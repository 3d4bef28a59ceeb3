import StrictJson.Codec
import StrictJson.CommandLine.Arguments
import StrictJson.Options.File

/-!
# Running the command

The command reads a document and writes it anew. Options come from a file and from the arguments,
input and options are resolved before the document is read, and nothing is written unless the
document is accepted. The command works over any world that can read and write files.
-/

namespace StrictJson.CommandLine

/-- What the command needs of the world. Reading and writing may fail. -/
structure World (m : Type → Type) where
  readInput : m (List UInt8)
  readFile : String → m (Option (List UInt8))
  writeFile : String → String → m Bool

/-- What breaks a run off without a diagnosis. -/
inductive Abort where
  /-- The options file is defective beyond being malformed. -/
  | options (d : Yaml.Defect)
  /-- An option for a path was given nothing. -/
  | nothingAsPath
  /-- A path has a null character. -/
  | nullInPath
  /-- The indentation is wider than a text can be. -/
  | indentTooWide

/-- How a run ends. -/
inductive Ending where
  /-- The user asked for help. -/
  | help
  /-- The arguments, the options or the files do not work out. -/
  | misused
  | aborted (cause : Abort)
  /-- The document was rejected; the lines are the diagnosis. -/
  | rejected (diagnosis : String)
  /-- The document was accepted; the text, if any, goes to the output. -/
  | accepted (text : String)

/-- The exit code of a run. A run that was aborted has the code of a crash. -/
def Ending.exitCode : Ending → Nat
  | help => 0
  | misused => 2
  | aborted _ => 1
  | rejected _ => 1
  | accepted _ => 0

/-- The line that tells of a rejection. -/
def rejectionLine (r : Document.Rejection) : String :=
  r.cause.kind.text ++ " at byte " ++ String.ofList (Nat.toDigits 10 r.position) ++ ": "
    ++ r.cause.message ++ "\n"

/-- The line that a verbose run puts before it. -/
def verboseLine (r : Document.Rejection) : String :=
  "DEBUG json_value_codec.parser: JSON parse failed: " ++ r.cause.kind.name ++ " at byte "
    ++ String.ofList (Nat.toDigits 10 r.position) ++ ": " ++ r.cause.message ++ "\n"

/-- Options with the settings of the arguments in place of the file's. An indentation has to be
given a value, which cannot be negative. -/
def override (a : Arguments) (o : CodecOptions) : Option CodecOptions :=
  let pretty := a.pretty.getD o.serialize.pretty
  match a.indent with
  | none => some { o with serialize := ⟨pretty, o.serialize.indent⟩ }
  | some .nothing => none
  | some (.value n) => if 0 ≤ n then some { o with serialize := ⟨pretty, n.toNat⟩ } else none

variable {m : Type → Type} [Monad m] [Platform] [Libraries]

/-- The path that an option was given. -/
def pathOf : Given String → Except Abort String
  | .nothing => .error .nothingAsPath
  | .value path => if path.toList.contains '\x00' then .error .nullInPath else .ok path

/-- The options of the file that the arguments name, or the defaults. No file is named by an empty
name or by nothing. -/
def loadOptions (w : World m) (a : Arguments) : m (Except Ending CodecOptions) :=
  match a.config with
  | none => pure (.ok {})
  | some .nothing => pure (.ok {})
  | some (.value path) =>
    if path.isEmpty then pure (.ok {})
    else
      match pathOf (.value path) with
      | .error cause => pure (.error (.aborted cause))
      | .ok path => do
        match CodecOptions.ofFile (← w.readFile path) with
        | .ok o => return .ok o
        | .error (.defective d) => return .error (.aborted (.options d))
        | .error _ => return .error .misused

/-- The octets of the document. -/
def loadInput (w : World m) (a : Arguments) : m (Except Ending (List UInt8)) :=
  match a.input with
  | none => do return .ok (← w.readInput)
  | some g =>
    match pathOf g with
    | .error cause => pure (.error (.aborted cause))
    | .ok path => do
      match ← w.readFile path with
      | some bs => return .ok bs
      | none => return .error .misused

/-- Hand over the text of an accepted document. -/
def deliver (w : World m) (a : Arguments) (text : String) : m Ending :=
  match a.output with
  | none => pure (.accepted text)
  | some g =>
    match pathOf g with
    | .error cause => pure (.aborted cause)
    | .ok path => do return if ← w.writeFile path text then .accepted "" else .misused

/-- Read, and unless it is only to be checked, write a document. A document that was read nests
within the limit of writing, so that only the indentation can be in the way. -/
def process (w : World m) (a : Arguments) (o : CodecOptions) (bs : List UInt8) : m Ending :=
  match Document.parseOctets o.parse bs with
  | .error r =>
    pure (.rejected ((if a.verbose then verboseLine r else "") ++ rejectionLine r))
  | .ok t =>
    if a.check then pure (.accepted "")
    else
      match t.serialize o.serialize with
      | .ok text => deliver w a (text ++ "\n")
      | .error _ => pure (.aborted .indentTooWide)

/-- Run the command with settings. -/
def runWith (w : World m) (a : Arguments) : m Ending := do
  match ← loadOptions w a with
  | .error ending => return ending
  | .ok o =>
    match override a o with
    | none => return .misused
    | some o =>
      match ← loadInput w a with
      | .error ending => return ending
      | .ok bs => process w a o bs

/-- Run the command. -/
def run (w : World m) (args : List String) : m Ending :=
  match Arguments.parse args with
  | .error .help => pure .help
  | .error .mistake => pure .misused
  | .ok a => runWith w a

end StrictJson.CommandLine
