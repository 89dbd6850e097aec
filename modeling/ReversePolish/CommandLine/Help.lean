import ReversePolish.Text.Basic

/-! The command's description of itself, for a terminal of eighty columns. -/

namespace ReversePolish

def helpLines : List String :=
  ["Usage: rpncalc [OPTIONS] [TOKENS]...",
    "",
    "  Evaluate a reverse-Polish-notation expression, e.g. `rpncalc 3 5 + 2 .`",
    "",
    "  Without arguments, one line is read from standard input.",
    "",
    "Options:",
    "  -v, --verbose  Trace operators (-v) or every token (-vv) while evaluating.",
    "  --stats        Display execution statistics (e.g., number of steps).",
    "  -p, --plain    Strip ANSI color codes from all output.",
    "  -q, --quiet    Do not warn about invalid tokens that are ignored.",
    "  -h, --help     Show this message and exit.",
    "",
    "  Symbols: pi e ln log2 log10 sin cos tan + - . / log  (`.` multiplies; `a b",
    "  log` is the log of a in base b.)"]

def helpText : Text := ['\n'].intercalate (helpLines.map String.toList)

end ReversePolish
