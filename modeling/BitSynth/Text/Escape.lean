import BitSynth.Text.ExtendingMark
import BitSynth.Text.Unprintable

/-!
# Characters shown inside messages

A message that quotes a character must stay readable whatever the character is, so quotes, line
ends and whatever does not stand visibly on its own are written as escapes.
-/

namespace BitSynth.Text

/-- The character itself if it shows on its own, and otherwise an escape: a backslash and a letter
for the usual controls and quotes, the code point in hexadecimal for all others. -/
def escape (c : Char) : String :=
  match c with
  | '\x00' => "\\0"
  | '\t' => "\\t"
  | '\r' => "\\r"
  | '\n' => "\\n"
  | '\\' => "\\\\"
  | '"' => "\\\""
  | _ =>
    if c.toNat = 39 then "\\" ++ c.toString
    else if c ∈ extendingMarks ∨ c ∈ unprintable then
      "\\u\x7b" ++ String.ofList (Nat.toDigits 16 c.toNat) ++ "\x7d"
    else c.toString

end BitSynth.Text
