import StrictJson.Number.Reading

/-!
# Command-line arguments

Long options may be shortened to any unambiguous beginning, and their values follow in the next
argument or behind an equals sign. The last occurrence of an option wins. There are no positional
arguments.
-/

namespace StrictJson.CommandLine

/-- The options of the command line. -/
inductive Name where
  | help
  | input
  | output
  | config
  | pretty
  | noPretty
  | indent
  | check
  | verbose
deriving DecidableEq

/-- The spelling of each option in full. -/
def Name.spellings : List (String × Name) :=
  [("-h", help), ("--help", help), ("--input", input), ("--output", output), ("--config", config),
    ("--pretty", pretty), ("--no-pretty", noPretty), ("--indent", indent), ("--check", check),
    ("--verbose", verbose)]

/-- Whether an option has a value. -/
def Name.takesValue : Name → Bool
  | input => true
  | output => true
  | config => true
  | indent => true
  | _ => false

/-- What an option is given. Two dashes behind an equals sign give it nothing at all. -/
inductive Given (α : Type) where
  | nothing
  | value (a : α)

/-- The settings that the arguments make. -/
structure Arguments where
  input : Option (Given String) := none
  output : Option (Given String) := none
  config : Option (Given String) := none
  pretty : Option Bool := none
  indent : Option (Given Int) := none
  check : Bool := false
  verbose : Bool := false

/-- Why arguments make no settings. -/
inductive Usage where
  /-- The user asked for help. -/
  | help
  | mistake

/-- What an argument is by itself. -/
inductive Word where
  | option (name : Name) (value : Option String)
  | unknownOption
  | value (s : String)
  /-- Two dashes, after which there are no options. -/
  | terminator

/-- Whether a text consists of digits and a point before some of them, or of digits alone. -/
def isPointed (cs : List Char) : Bool :=
  let areDigits (ds : List Char) : Bool := ds.all fun c => (Digit.value? c).isSome
  match cs.span (· != '.') with
  | (whole, []) => !whole.isEmpty && areDigits whole
  | (whole, _ :: fraction) => areDigits whole && !fraction.isEmpty && areDigits fraction

/-- Whether a text is a negative number in decimal digits. A line break at its end does not
count. -/
def isNegativeNumber (cs : List Char) : Bool :=
  match cs with
  | '-' :: r => isPointed (if r.getLast? == some '\n' then r.dropLast else r)
  | _ => false

/-- What an argument that begins with the short spelling of help asks for: help as such, or help
with a value, which it does not take. The letter may be repeated, and its repetitions may stand
behind an equals sign. -/
def shortHelp (behind : List Char) : Word :=
  let (hasEquals, letters) := match behind with
    | '=' :: r => (true, r)
    | r => (false, r)
  if letters.all (· == 'h') && !(hasEquals && letters.isEmpty) then .option .help none
  else .option .help (some (String.ofList letters))

/-- A text before its first equals sign and the text behind it, if there is one. -/
def splitEquals (cs : List Char) : List Char × Option (List Char) :=
  match cs.span (· != '=') with
  | (before, []) => (before, none)
  | (before, _ :: behind) => (before, some behind)

/-- Whether a text is the beginning of an option's spelling. -/
def isBeginning (cs : List Char) (spelling : String) : Bool :=
  cs.isPrefixOf spelling.toList

/-- What an argument is by itself. A shortened option has to begin one spelling only. -/
def classify (s : String) : Except Usage Word :=
  let cs := s.toList
  match cs with
  | [] => .ok (.value s)
  | ['-'] => .ok (.value s)
  | ['-', '-'] => .ok .terminator
  | '-' :: second :: _ =>
    if second == 'h' then .ok (shortHelp (cs.drop 2))
    else
      match Name.spellings.lookup s with
      | some name => .ok (.option name none)
      | none =>
        let (before, behind) := splitEquals cs
        match behind, Name.spellings.lookup (String.ofList before) with
        | some v, some name => .ok (.option name (some (String.ofList v)))
        | _, _ =>
          let isLong := second == '-'
          match Name.spellings.filter fun e => isLong && isBeginning before e.1 with
          | [(_, name)] => .ok (.option name (behind.map String.ofList))
          | _ :: _ :: _ => .error .mistake
          | [] => .ok (if isNegativeNumber cs || cs.contains ' ' then .value s else .unknownOption)
  | _ => .ok (.value s)

/-- What the arguments are. Behind two dashes all are values. -/
def classifyAll : List String → Except Usage (List Word)
  | [] => .ok []
  | s :: r => do
    match ← classify s with
    | .terminator => return .terminator :: r.map .value
    | w => return w :: (← classifyAll r)

namespace Arguments

/-- Give an option its value, or nothing. The value of the indentation has to be an integer. -/
def setGiven (a : Arguments) (name : Name) (g : Given String) : Except Usage Arguments :=
  match name, g with
  | .input, g => .ok { a with input := some g }
  | .output, g => .ok { a with output := some g }
  | .config, g => .ok { a with config := some g }
  | .indent, .nothing => .ok { a with indent := some .nothing }
  | .indent, .value v =>
    match intOfText? 10 v.toList with
    | some n => .ok { a with indent := some (.value n) }
    | none => .error .mistake
  | _, _ => .error .mistake

/-- What the text behind an equals sign gives to an option. -/
def givenBehindEquals (v : String) : Given String :=
  if v == "--" then .nothing else .value v

/-- Set an option that has no value. -/
def setFlag (a : Arguments) (name : Name) : Except Usage Arguments :=
  match name with
  | .help => .error .help
  | .pretty => .ok { a with pretty := some true }
  | .noPretty => .ok { a with pretty := some false }
  | .check => .ok { a with check := true }
  | .verbose => .ok { a with verbose := true }
  | _ => .error .mistake

/-- Apply the arguments one after the other. Those that are no options are refused at the end. -/
def ofWords (a : Arguments) (hasStrays : Bool) : List Word → Except Usage Arguments
  | [] => if hasStrays then .error .mistake else .ok a
  | .option name (some v) :: r => do
    if name.takesValue then ofWords (← a.setGiven name (givenBehindEquals v)) hasStrays r
    else throw .mistake
  | .option name none :: .value v :: r => do
    if name.takesValue then ofWords (← a.setGiven name (.value v)) hasStrays r
    else ofWords (← a.setFlag name) true r
  | .option name none :: r => do
    if name.takesValue then throw .mistake else ofWords (← a.setFlag name) hasStrays r
  | _ :: r => ofWords a true r

/-- The settings that arguments make. -/
def parse (args : List String) : Except Usage Arguments := do
  ofWords {} false (← classifyAll args)

end Arguments

end StrictJson.CommandLine
