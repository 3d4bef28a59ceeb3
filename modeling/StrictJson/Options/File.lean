import StrictJson.Options.Libraries

/-!
# Options files

An options file is a YAML mapping with the two sections of settings. An empty file gives the
defaults. Every other file either gives options or fails with one of a few causes.
-/

namespace StrictJson

/-- Why an options file gives no options. -/
inductive LoadFailure where
  /-- There is no such file. -/
  | unreadable
  | malformed (m : Yaml.Malformation)
  /-- The file is defective beyond being malformed. -/
  | defective (d : Yaml.Defect)
  /-- The file has a document other than a mapping. -/
  | notMapping
  | invalid (complaints : List Complaint)

variable [Libraries]

/-- The options that a datum from a file gives. -/
def CodecOptions.ofFileDatum (h : Heap) : Datum → Except LoadFailure CodecOptions
  | .none => .ok {}
  | .dict cell => (CodecOptions.ofDatum h (.dict cell)).mapError .invalid
  | _ => .error .notMapping

/-- The options of a file with the given contents. -/
def CodecOptions.ofFile (contents : Option (List UInt8)) : Except LoadFailure CodecOptions :=
  match contents with
  | none => .error .unreadable
  | some bs =>
    match Libraries.load bs with
    | .error (.malformed m) => .error (.malformed m)
    | .error (.defective d) => .error (.defective d)
    | .ok (d, h) => CodecOptions.ofFileDatum h d

end StrictJson
