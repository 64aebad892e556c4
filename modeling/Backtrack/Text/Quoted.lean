import Backtrack.Text.Hidden

/-!
# Quoted text

A character is written between apostrophes and a text between quotation marks, so that
the result shows exactly which characters are there: the delimiter and the backslash are
escaped, a few controls have names of their own, and characters that would leave no mark
on the page are shown by their code (`isHidden`).
-/

namespace Backtrack.Text

/-- The code of `c` in hexadecimal, as in `\u{7f}`. -/
def codeEscape (c : Char) : String :=
  "\\u\x7b" ++ String.ofList (Nat.toDigits 16 c.toNat) ++ "\x7d"

/-- How `c` is written between two marks `delimiter`. -/
def escaped (delimiter c : Char) : String :=
  match c with
  | '\x00' => "\\0"
  | '\t' => "\\t"
  | '\r' => "\\r"
  | '\n' => "\\n"
  | '\\' => "\\\\"
  | c =>
    if c = delimiter then String.ofList ['\\', c]
    else if isHidden c then codeEscape c
    else String.singleton c

def quotedChar (c : Char) : String :=
  "'" ++ escaped '\'' c ++ "'"

def quoted (s : String) : String :=
  "\"" ++ String.join (s.toList.map (escaped '"')) ++ "\""

end Backtrack.Text
