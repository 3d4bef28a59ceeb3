/-!
# Help

The text that explains the options of the command.
-/

namespace StrictJson.CommandLine

/-- The lines of the explanation. -/
def helpLines : List String :=
  ["usage: json-value-codec [-h] [--input INPUT] [--output OUTPUT]",
    "                        [--config CONFIG] [--pretty | --no-pretty]",
    "                        [--indent INDENT] [--check] [--verbose]",
    "",
    "Validate a JSON document and print it compact or pretty-printed",
    "",
    "options:",
    "  -h, --help            show this help message and exit",
    "  --input INPUT         Path to a JSON file (default: standard input)",
    "  --output OUTPUT       Path to write the result (default: standard output)",
    "  --config CONFIG       Path to a YAML options file",
    "  --pretty, --no-pretty",
    "                        Pretty-print the output (overrides the options file)",
    "  --indent INDENT       Spaces per level when pretty-printing",
    "  --check               Only validate the document, print nothing on success",
    "  --verbose             Enable debug logging"]

/-- The explanation of the options. -/
def helpText : String :=
  String.join (helpLines.map (· ++ "\n"))

end StrictJson.CommandLine
