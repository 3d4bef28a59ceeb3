import StrictJson.Options.Validation
import StrictJson.Yaml.Data

/-!
# The running program

What the library takes from outside: in the running program the nesting limit is a number that every
operation can follow, and options are loaded and validated by the readers of this project. Left out
altogether are lack of memory, the log but for the line that a verbose run shows, and the wording of
messages that quote what another program says: of these the cause is kept.
-/

namespace StrictJson

/-- The platform of the running program. -/
instance : Platform where
  nestingLimit := 490

/-- The libraries of the running program. -/
instance : Libraries where
  load bs := Yaml.load (Yaml.Input.ofOctets bs)
  validate fs := (Declaration.model fs).validate
  validateArguments := Fields.validateArguments

end StrictJson
