import BitSynth.Text.Numeral

/-!
# The small parts of a settings document

Blanks and comments, texts in all four kinds of quotes, integers in all bases, and names. Every
reader takes the characters from a place on and gives back what is left behind the part it read.
-/

namespace BitSynth.Settings.Lexeme

def isBlank (c : Char) : Bool := c == ' ' || c == '\t'

/-- A character that can stand in a comment or a text. -/
def isPrintable (c : Char) : Bool := c == '\t' || 0x20 ≤ c.toNat && c.toNat != 0x7F

def skipBlanks (cs : List Char) : List Char := cs.dropWhile isBlank

/-- What is left behind the end of a line; the end of the document will do. -/
def lineEnd? : List Char → Option (List Char)
  | [] => some []
  | '\n' :: cs => some cs
  | '\r' :: '\n' :: cs => some cs
  | _ => none

/-- What is left of a line that holds nothing more than blanks and a comment. -/
def restOfLine? (cs : List Char) : Option (List Char) :=
  match skipBlanks cs with
  | '#' :: cs => lineEnd? (cs.dropWhile isPrintable)
  | cs => lineEnd? cs

/-- The character that stands for itself behind a backslash. -/
def escaped? : Char → Option Char
  | 'b' => some '\x08'
  | 't' => some '\t'
  | 'n' => some '\n'
  | 'f' => some '\x0c'
  | 'r' => some '\r'
  | 'e' => some '\x1b'
  | '"' => some '"'
  | '\\' => some '\\'
  | _ => none

/-- How many hexadecimal digits follow the letter behind a backslash. -/
def codeLength? : Char → Option Nat
  | 'x' => some 2
  | 'u' => some 4
  | 'U' => some 8
  | _ => none

/-- The character with the code that the digits give. -/
def codePoint? (digits : List Char) (length : Nat) : Option Char :=
  if digits.length = length ∧ digits.all Text.isHexDigit then
    let code := Text.ofDigits 16 digits
    if code.isValidChar then some (Char.ofNat code) else none
  else none

/-- What is left behind blanks and line ends. -/
def skipLines : List Char → List Char
  | [] => []
  | '\r' :: '\n' :: cs => skipLines cs
  | c :: cs => if isBlank c || c == '\n' then skipLines cs else c :: cs

theorem length_skipLines_le (cs : List Char) : (skipLines cs).length ≤ cs.length := by
  fun_induction skipLines cs <;> grind

/-- A text in double quotes up to its end: its characters, and what is left behind it. Over several
lines, `block`, it ends with three quotes, and a backslash at the end of a line removes the white
space up to the next character. -/
def quotedText? (block : Bool) (cs : List Char) : Option (List Char × List Char) :=
  let more (c : Char) (rest : Option (List Char × List Char)) :=
    rest.map fun (text, left) => (c :: text, left)
  match cs with
  | [] => none
  | '"' :: tail =>
    if !block then some ([], tail)
    else if tail.take 2 = ['"', '"'] ∧ tail[2]? ≠ some '"' then some ([], tail.drop 2)
    else more '"' (quotedText? block tail)
  | '\\' :: c :: tail =>
    match codeLength? c with
    | some n => (codePoint? (tail.take n) n).bind fun d => more d (quotedText? block (tail.drop n))
    | none =>
      if block && (lineEnd? (skipBlanks (c :: tail))).isSome then
        quotedText? block (skipLines tail)
      else (escaped? c).bind fun d => more d (quotedText? block tail)
  | '\r' :: '\n' :: tail => if block then more '\n' (quotedText? block tail) else none
  | '\n' :: tail => if block then more '\n' (quotedText? block tail) else none
  | c :: tail => if isPrintable c && c != '\\' then more c (quotedText? block tail) else none
termination_by cs.length
decreasing_by
  all_goals have := length_skipLines_le tail
  all_goals simp only [List.length_cons, List.length_drop]
  all_goals omega

/-- A text in single quotes up to its end, with nothing escaped. -/
def literalText? (block : Bool) : List Char → Option (List Char × List Char)
  | [] => none
  | c :: cs =>
    let more := (literalText? block cs).map fun (text, left) => (c :: text, left)
    if c.toNat = 39 then
      if block then
        if (cs.take 2).map Char.toNat = [39, 39] then some ([], cs.drop 2) else more
      else some ([], cs)
    else if isPrintable c || block && (c == '\n' || c == '\r') then more
    else none

/-- A text over several lines does not begin with a line end. -/
def dropLineEnd : List Char → List Char
  | '\n' :: cs => cs
  | '\r' :: '\n' :: cs => cs
  | cs => cs

/-- A text in any quotes, if one begins here. Only a value may extend over several lines. -/
def text? (isValue : Bool) (cs : List Char) : Option (List Char × List Char) :=
  match cs with
  | '"' :: '"' :: '"' :: cs => if isValue then quotedText? true (dropLineEnd cs) else none
  | '"' :: cs => quotedText? false cs
  | c :: cs =>
    if c.toNat = 39 then
      if isValue ∧ (cs.take 2).map Char.toNat = [39, 39] then
        literalText? true (dropLineEnd (cs.drop 2))
      else literalText? false cs
    else none
  | [] => none

/-- Digits of which any two may have an underscore between them. -/
def groupedDigits? (isDigit : Char → Bool) : List Char → Option (List Char)
  | [] => none
  | [c] => if isDigit c then some [c] else none
  | c :: '_' :: cs => if isDigit c then (groupedDigits? isDigit cs).map (c :: ·) else none
  | c :: cs => if isDigit c then (groupedDigits? isDigit cs).map (c :: ·) else none

/-- A decimal number, which begins with zero only if it is zero. -/
def decimal? (cs : List Char) : Option Nat := do
  let ds ← groupedDigits? Char.isDigit cs
  if ds.length = 1 ∨ ds.head? ≠ some '0' then some (Text.ofDigits 10 ds) else none

/-- The integer of this spelling. Only decimal integers have a sign. -/
def integer? : List Char → Option Int
  | '0' :: 'x' :: cs => (groupedDigits? Text.isHexDigit cs).map fun ds => Text.ofDigits 16 ds
  | '0' :: 'o' :: cs =>
    (groupedDigits? (fun c => '0' ≤ c && c ≤ '7') cs).map fun ds => Text.ofDigits 8 ds
  | '0' :: 'b' :: cs => (groupedDigits? Text.isBinaryDigit cs).map fun ds => Text.ofDigits 2 ds
  | '+' :: cs => (decimal? cs).map fun n => n
  | '-' :: cs => (decimal? cs).map fun n => -n
  | cs => (decimal? cs).map fun n => n

/-- A name and what is left behind it. -/
def name? (cs : List Char) : Option (String × List Char) :=
  match text? false cs with
  | some (text, left) => some (String.ofList text, left)
  | none =>
    let isPart (c : Char) := c.isAlphanum || c == '_' || c == '-'
    match cs.takeWhile isPart with
    | [] => none
    | name => some (String.ofList name, cs.dropWhile isPart)

end BitSynth.Settings.Lexeme
