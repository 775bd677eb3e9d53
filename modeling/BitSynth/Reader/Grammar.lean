import BitSynth.Expr.Basic
import BitSynth.Reader.Basic
import BitSynth.Text.Numeral

/-!
# The grammar of problem descriptions

Names, numbers, expressions and top-level forms. White space may stand between any two tokens and
need not stand anywhere. A number in parentheses of its own is that number.
-/

namespace BitSynth

open Text

namespace Reader

def identStart : CharClass := .unnamed Ident.isStart

def identContinue : CharClass := .unnamed Ident.isContinue

def digit : CharClass := .ofName Char.isDigit .digit

def hexDigit : CharClass := .ofName isHexDigit .digit

def ident : Reader Ident := named .identifier do
  let c ← charOf identStart
  let cs ← run identContinue
  return ⟨String.ofList (c :: cs)⟩

/-- A magnitude after `0x`. -/
def hexadecimal : Reader Nat := named .hexadecimal do
  char '0'
  let _ ← oneOf ['x', 'X']
  let ds ← run1 hexDigit
  return ofDigits 16 ds

/-- A magnitude after `0b`. -/
def binary : Reader Nat := named .binary do
  char '0'
  let _ ← oneOf ['b', 'B']
  let ds ← many1 (oneOf ['0', '1'])
  return ofDigits 2 ds

def decimal : Reader Nat := named .decimal do
  let ds ← run1 digit
  return ofDigits 10 ds

/-- A number without sign and width, in the first base that fits. -/
def magnitude : Reader Nat := apart (hexadecimal <|> binary <|> decimal)

/-- The number behind the colon of a width. One of more than 32 bits is no width, and that is then
all there is to say about its digits. -/
def widthNumber : Reader Nat := fun c f =>
  match run1 digit c none with
  | (none, inner) => (none, rejoin inner f)
  | (some (ds, c'), inner) =>
    if ofDigits 10 ds < Bits.modulus 32 then (some (ofDigits 10 ds, c'), rejoin inner f)
    else (none, some (Failure.merge ⟨c.offset, c'.offset, .widthOutOfRange (String.ofList ds)⟩ f))

def bitWidth : Reader Nat := named .bitWidth do
  char ':'
  widthNumber

def literal : Reader Literal := named .number do
  let sign ← optional (char '-')
  let n ← magnitude
  let w ← optional bitWidth
  return ⟨if sign.isSome then -(n : Int) else n, w⟩

/-- A name and the arguments that follow it, each read by `arg`. -/
def application (arg : Reader Expr) : Reader App := do
  let op ← spaced ident
  let args ← many (spaced arg)
  return ⟨op, args⟩

/-- What stands between parentheses: a number, or a name with arguments. -/
def parenthesized (arg : Reader Expr) : Reader Expr := named .parenthesized do
  char '('
  let e ← (Expr.literal <$> spaced literal) <|> (App.toExpr <$> application arg)
  char ')'
  return e

/-- An expression with parentheses nested less than `depth` deep. A text shorter than `depth` has
no others. -/
def exprWithin : (depth : Nat) → Reader Expr
  | 0 => fail
  | depth + 1 => fun c f => named .expression
      (parenthesized (exprWithin depth) <|> (Expr.literal <$> literal)
        <|> (Expr.ident <$> ident)) c f

/-- An expression, nested as deep as the text goes. -/
def expr : Reader Expr := fun c f => exprWithin (c.rest.length + 1) c f

/-- An application at the top level. -/
def form : Reader App := named .form do
  char '('
  let a ← application expr
  char ')'
  return a

end Reader

/-- Reads an identifier and nothing else. -/
def Ident.read (text : String) : Except LexError Ident := Reader.ident.parse text

/-- Reads a literal and nothing else. -/
def Literal.read (text : String) : Except LexError Literal := Reader.literal.parse text

/-- Reads an expression with white space around it. -/
def Expr.read (text : String) : Except LexError Expr := (Reader.spaced .expr).parse text

/-- Reads one top-level form and nothing else. -/
def App.read (text : String) : Except LexError App := Reader.form.parse text

/-- Reads the top-level forms of a problem description, of which there is at least one. -/
def App.readAll (text : String) : Except LexError (List App) :=
  (Reader.many1 (.spaced .form)).parse text

end BitSynth
