import ExprLowering.Text.Hidden

/-!
# Quoted text

A string between double quotes. The quote and the backslash are escaped, as are the characters that
could not be seen: five of them by a letter or a zero, the others by their code point.
-/

namespace ExprLowering.Text

/-- The code point in lower-case hexadecimal, between braces. -/
def codePoint (c : Char) : String :=
  "\\u\x7b" ++ String.ofList (Nat.toDigits 16 c.toNat) ++ "\x7d"

def escape (c : Char) : String :=
  match c with
  | '\x00' => "\\0"
  | '\t' => "\\t"
  | '\n' => "\\n"
  | '\r' => "\\r"
  | '"' => "\\\""
  | '\\' => "\\\\"
  | c => if isHidden c then codePoint c else c.toString

def quoted (s : String) : String :=
  "\"" ++ String.join (s.toList.map escape) ++ "\""

end ExprLowering.Text
