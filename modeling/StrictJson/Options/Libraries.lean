import StrictJson.Datum
import StrictJson.Options
import StrictJson.Yaml.Error

/-!
# The libraries behind options

Options are made by functions of other libraries: one loads the YAML of an options file, and one
validates data against the declarations of the fields. Here they are parameters, so that what is
proved holds whatever they do, or says what it needs of them.
-/

namespace StrictJson

/-! ## Mistakes -/

/-- What can be wrong with an option. -/
inductive Mistake where
  | notSection
  | unknownKey
  | keyNotText
  | notInteger
  | unreadableInteger
  | integerSize
  | fractionalInteger
  | notFinite
  | tooSmall
  | notTruth
  | unreadableTruth
  | surrogates
deriving DecidableEq

/-- The identifier of a mistake. -/
def Mistake.name : Mistake → String
  | notSection => "model_type"
  | unknownKey => "extra_forbidden"
  | keyNotText => "invalid_key"
  | notInteger => "int_type"
  | unreadableInteger => "int_parsing"
  | integerSize => "int_parsing_size"
  | fractionalInteger => "int_from_float"
  | notFinite => "finite_number"
  | tooSmall => "greater_than_equal"
  | notTruth => "bool_type"
  | unreadableTruth => "bool_parsing"
  | surrogates => "string_unicode"

/-- A mistake, and the keys that lead to it. -/
structure Complaint where
  path : List String
  mistake : Mistake

/-! ## Libraries -/

/-- The functions of other libraries that options are made by. -/
class Libraries where
  /-- Load the YAML document of a text file with the given octets, which is open as UTF-8. -/
  load : List UInt8 → Except Yaml.Error (Datum × Heap)
  /-- Validate a datum as a section with the given fields. -/
  validate : (fs : Fields) → Heap → Datum → Except (List Complaint) fs.Values
  /-- Validate the arguments of a call as the fields that they name. -/
  validateArguments : (fs : Fields) → List (String × Datum) → Except (List Complaint) fs.Values

variable [Libraries]

/-- The settings for reading that a datum gives. -/
def ParseOptions.ofDatum (h : Heap) (d : Datum) : Except (List Complaint) ParseOptions :=
  (Libraries.validate fields h d).map ofValues

/-- The settings for writing that a datum gives. -/
def SerializeOptions.ofDatum (h : Heap) (d : Datum) : Except (List Complaint) SerializeOptions :=
  (Libraries.validate fields h d).map ofValues

/-- The settings in both sections that a datum gives. -/
def CodecOptions.ofDatum (h : Heap) (d : Datum) : Except (List Complaint) CodecOptions :=
  (Libraries.validate fields h d).map ofValues

/-- An argument of a call, if it is given. -/
def argument? (name : String) (d : Option Datum) : List (String × Datum) :=
  (d.map (name, ·)).toList

/-- The settings for reading, given by arguments. -/
def ParseOptions.ofArguments (maxDepth : Option Datum) : Except (List Complaint) ParseOptions :=
  (Libraries.validateArguments fields (argument? "max_depth" maxDepth)).map ofValues

/-- The settings for writing, given by arguments. -/
def SerializeOptions.ofArguments (pretty indent : Option Datum) :
    Except (List Complaint) SerializeOptions :=
  (Libraries.validateArguments fields
    (argument? "pretty" pretty ++ argument? "indent" indent)).map ofValues

end StrictJson
