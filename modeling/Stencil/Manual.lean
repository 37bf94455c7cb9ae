import Stencil.CommandLine

/-!
# Help pages

What the program prints when it is asked for help or for its version, and one line for every other
command line that asks for no command.
-/

namespace Stencil.Manual

/-- The name and the version of the program. -/
def versionLine : String := "resolvent 0.1.0\n"

/-- Terms with their meanings, which all start in the same column. -/
def table (rows : List (String × String)) : String :=
  let width := rows.foldl (fun n row => max n row.1.length) 0
  String.join (rows.map fun (term, meaning) =>
    "  " ++ term ++ String.ofList (Text.fill (width - term.length) ' ') ++ "  " ++ meaning ++ "\n")

/-- The options of every place. -/
def commonOptions : List (String × String) :=
  [("-v, --verbose", "Enable verbose output"),
    ("-c, --config <CONFIG>", "Path to configuration file"),
    ("    --no-color", "Disable colored output"),
    ("-h, --help", "Print help")]

/-- The options for the variables of a command. -/
def contextOptions : List (String × String) :=
  [("    --context <CONTEXT>", "YAML or JSON file with context variables"),
    ("-V, --var <VARS>", "Override template variables (key=value)")]

def overview : String :=
  "Resolve Handlebars expressions in templates, documents and files\n\n" ++
  "Usage: resolvent [OPTIONS] <COMMAND>\n\n" ++
  "Commands:\n" ++
  table
    [("render", "Render a template file to stdout"),
      ("resolve", "Resolve every expression in a YAML or JSON document"),
      ("sha256", "Print the SHA-256 digest of a file"),
      ("help", "Print this message or the help of the given subcommand(s)")] ++
  "\nOptions:\n" ++ table (commonOptions ++ [("-V, --version", "Print version")])

/-- The page of a command, from what it does, its name, its operand and its options. -/
def commandPage (about name operand meaning : String) (options : List (String × String)) : String :=
  about ++ "\n\nUsage: resolvent " ++ name ++ " [OPTIONS] <" ++ operand ++ ">\n\n" ++
  "Arguments:\n" ++ table [("<" ++ operand ++ ">", meaning)] ++
  "\nOptions:\n" ++ table (options ++ commonOptions)

def pageOf : CommandName → String
  | .render =>
    commandPage "Render a template file to stdout" "render" "TEMPLATE" "Path to the template file"
      contextOptions
  | .resolve =>
    commandPage "Resolve every expression in a YAML or JSON document" "resolve" "INPUT"
      "Path to the YAML or JSON document"
      (contextOptions ++
        [("-o, --output <OUTPUT>", "Write the resolved document to this file"),
          ("    --format <FORMAT>", "[default: yaml] [possible values: yaml, json]")])
  | .digest =>
    commandPage "Print the SHA-256 digest of a file" "sha256" "FILE" "Path to the file to hash" []

/-- What is printed for a command line that asks for no command. -/
def page : UsageError → String
  | .version => versionLine
  | .help (some command) => pageOf command
  | .help none | .nothingAsked => overview
  | .unknownArgument => "error: unexpected argument found\n"
  | .missingArgument => "error: a required argument was not provided\n"
  | .missingCommand => "error: a subcommand is required but one was not provided\n"
  | .unknownCommand => "error: unrecognized subcommand\n"
  | .invalidValue => "error: an argument has an invalid value or none\n"
  | .repeated => "error: an argument cannot be used multiple times\n"
  | .unexpectedValue => "error: an argument has a value but takes none\n"

end Stencil.Manual
