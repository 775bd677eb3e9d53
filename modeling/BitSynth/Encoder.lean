import BitSynth.Bits
import BitSynth.Event
import BitSynth.Operator
import BitSynth.Settings.Basic
import BitSynth.Term

/-!
# Expressions for a solver

An expression becomes an SMT-LIB term over bit vectors. Names stay, operators get their SMT-LIB
names, and literals become bit strings of their own width or of the width at hand.
-/

namespace BitSynth

/-- The width of a literal without one, and what to do with a literal that does not fit. -/
structure Encoder where
  bitWidth : Nat
  policy : LiteralPolicy

namespace Encoder

variable (e : Encoder)

/-- Refuses an empty width. A value that does not fit is refused or reported, as the policy
says. -/
def checkFit (value : Int) (width : Nat) : Logged Unit :=
  if width = 0 then .fail (.zeroWidthLiteral value)
  else if Bits.Fits value width then return ()
  else match e.policy with
    | .strict => .fail (.literalRange value width)
    | .truncate => .emit .warn .encoding
        ("Literal " ++ toString value ++ " does not fit in " ++ toString width
          ++ " bits, truncating")

def encodeBits (value : Int) (width : Nat) : Logged String := do
  e.checkFit value width
  return Bits.binary (Bits.truncate value width) width

/-- A literal in its own width, or in the encoder's if it has none. -/
def encodeLiteral (l : Literal) : Logged String :=
  e.encodeBits l.value (l.width.getD e.bitWidth)

/-- A constant of some width as a bit string of the encoder's width: zeros are put in front of a
narrower one, and a wider one keeps its low bits. -/
def encodeConstant (value : Int) (width : Nat) : Logged String := do
  e.checkFit value width
  return Bits.binary (Bits.truncate value (min width e.bitWidth)) e.bitWidth

mutual

/-- The term for an expression. The bounds of an extraction are plain numbers, and the first
operand of an `ite` is a condition. -/
def encodeFor (use : Operator.Use) : Expr → Logged Term
  | .ident x => return .atom x.name
  | .literal l => do
    let s ← e.encodeLiteral l
    return .atom s
  | .app op args =>
    if op.name = Extraction.operator then
      match args with
      | [.literal low, .literal high, operand] => do
        let t ← encodeFor .value operand
        return .extract high.value low.value t
      | _ => .fail (.malformedExtract ⟨op, args⟩)
    else do
      let ts ← encodeArgs (if op.name = Operator.ite then .condition else .value) args
      return .app (Operator.smtName op.name use) ts

/-- The terms for the arguments, of which the first is for a use of its own. -/
def encodeArgs (first : Operator.Use) : List Expr → Logged (List Term)
  | [] => return []
  | a :: as => do
    let t ← encodeFor first a
    let ts ← encodeArgs .value as
    return t :: ts

end

def encode (x : Expr) : Logged Term := e.encodeFor .value x

end Encoder

end BitSynth
