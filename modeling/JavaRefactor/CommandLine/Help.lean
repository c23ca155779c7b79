import JavaRefactor.CommandLine.Run

/-!
# `CommandLine.Help` — what the program tells of itself

## Contents
- **`helpText`**.
- **`printed`**, the texts of an answer on the two streams.
-/

namespace JavaRefactor.CommandLine

/-- What the program can be asked. -/
def helpText : String := lines [
  "Rewrites Java files by rules.",
  "",
  "Usage: " ++ program ++ " [SETTING]... COMMAND",
  "",
  "Commands:",
  "  list                  Lists all rules",
  "  show RULE             Shows the templates, constraints and imports of a rule",
  "  run RECIPE FILE...    Applies a rule, or a group of rules, to Java files",
  "",
  "With every command:",
  "  --format FORMAT       How the answer is written: human or json",
  "  -h, --help            Tells what the program can be asked",
  "",
  "With run:",
  "  --dry-run             Writes no file",
  "  --max-cycles N        How many cycles a file may take to settle",
  "  --jobs N              How many files are worked on at once",
  "  --best-effort         Goes on where a file does not settle",
  "",
  "Settings:",
  "  --config-path PATH    A file with settings",
  "  --rules-path PATH     A file, or a directory of files, with further rules",
  "  --max-cycles N        How many cycles a file may take to settle",
  "  --jobs N              How many files are worked on at once",
  "  --log-filter FILTER   Which events are logged",
  "  --log-format FORMAT   How events are logged: json or compact",
  "",
  "  -V, --version         Tells the version"]

/-- The texts of an answer on the two streams, that of results and that of faults. -/
def printed : Answer → String × String
  | .help => (helpText, "")
  | .version => (versionLine, "")
  | .text value _ => (value, "")
  | .fault f => ("", f.message ++ "\n")

end JavaRefactor.CommandLine
