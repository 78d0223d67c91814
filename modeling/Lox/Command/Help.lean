import Lox.Text
/-!
# Help texts

What the command prints when it is asked for help.
-/


namespace Lox

namespace Command

/-- Lines one below the other, the last one ended too. -/
def page (lines : List String) : Text := (lines.map fun l => l.toList ++ ['\n']).flatten

/-- The short help. -/
def summary : Text := page
  ["Scans and parses Lox expressions and prints them back",
    "",
    "Usage: rlox-front [OPTIONS] [FILE]",
    "",
    "Arguments:",
    "  [FILE]  Script to read. Without it, an interactive prompt is started",
    "",
    "Options:",
    "      --emit <EMIT>  What to print for each successfully processed input" ++
      " [default: lisp] [possible values: lisp, infix, polish, tokens]",
    "  -h, --help         Print help (see more with '--help')"]

/-- The long help. -/
def manual : Text := page
  ["Scans and parses Lox expressions and prints them back",
    "",
    "Usage: rlox-front [OPTIONS] [FILE]",
    "",
    "Arguments:",
    "  [FILE]",
    "          Script to read. Without it, an interactive prompt is started",
    "",
    "Options:",
    "      --emit <EMIT>",
    "          What to print for each successfully processed input",
    "",
    "          Possible values:",
    "          - lisp:   Parenthesized tree dump, e.g. `(+ 1 (group 2))`",
    "          - infix:  Infix form with no spaces, e.g. `1+(2)`",
    "          - polish: Reverse Polish (postfix) notation, e.g. `12+`",
    "          - tokens: One line per scanned token",
    "          ",
    "          [default: lisp]",
    "",
    "  -h, --help",
    "          Print help (see a summary with '-h')"]

/-- How the command is used, in one line. -/
def usage : Text := page ["Usage: rlox-front [OPTIONS] [FILE]"]

end Command

end Lox
