import BitSynth.Bits
import BitSynth.Text.Alphabetic
import BitSynth.Text.Numeric

/-!
# Expressions

The trees that a problem description is written in: names, integer literals with an optional bit
width, and applications of an operator to any number of arguments. How many arguments an operator
takes is no concern of the tree.
-/

namespace BitSynth

open Text

/-- A name of a variable, an operator or a function. The reader produces only names that are
`Ident.Valid`; a name that comes from elsewhere need not be. -/
structure Ident where
  name : String
deriving DecidableEq, Hashable, Repr, Inhabited

namespace Ident

def isStart (c : Char) : Bool := c ∈ alphabetic || c == '_' || c == '.'

def isContinue (c : Char) : Bool := c ∈ alphabetic || c ∈ numeric || c == '_' || c == '.'

/-- A spelling of a name: a start character, then characters that continue it. -/
def isSpelling : List Char → Bool
  | [] => false
  | c :: cs => isStart c && cs.all isContinue

/-- The name can be written in a problem description. -/
def Valid (x : Ident) : Prop := isSpelling x.name.toList = true

instance (x : Ident) : Decidable x.Valid := inferInstanceAs (Decidable (_ = true))

def ofString? (s : String) : Option Ident := if isSpelling s.toList then some ⟨s⟩ else none

def parse (s : String) : Except String Ident :=
  match ofString? s with
  | some x => .ok x
  | none => .error ("`" ++ s ++ "` is not a valid identifier")

instance : ToString Ident := ⟨Ident.name⟩

theorem isContinue_of_isStart {c : Char} (h : isStart c = true) : isContinue c = true := by
  simp only [isStart, isContinue, Bool.or_eq_true] at h ⊢
  rcases h with (h | h) | h <;> simp [h]

theorem ofString?_eq_some_iff {s : String} {x : Ident} :
    ofString? s = some x ↔ x.name = s ∧ x.Valid := by
  unfold ofString? Valid
  split
  · rename_i h
    constructor
    · rintro ⟨⟩
      exact ⟨rfl, h⟩
    · rintro ⟨rfl, -⟩
      rfl
  · rename_i h
    simp only [reduceCtorEq, false_iff, not_and]
    rintro rfl
    exact h

end Ident

/-- An integer with an optional bit width. Without one, the width comes from where it stands. -/
structure Literal where
  value : Int
  width : Option Nat
deriving DecidableEq, Hashable, Repr, Inhabited

namespace Literal

/-- The value, where it is a natural number of 32 bits. -/
def natValue? (l : Literal) : Option Nat :=
  if 0 ≤ l.value ∧ l.value < Bits.modulus 32 then some l.value.toNat else none

def text (l : Literal) : String :=
  match l.width with
  | some w => toString l.value ++ ":" ++ toString w
  | none => toString l.value

instance : ToString Literal := ⟨text⟩

end Literal

inductive Expr where
  | ident (x : Ident)
  | literal (l : Literal)
  | app (op : Ident) (args : List Expr)
deriving Repr, Inhabited

/-- An application on its own, as at the top level of a problem description. -/
structure App where
  op : Ident
  args : List Expr
deriving Repr, Inhabited

namespace Expr

mutual

def same : Expr → Expr → Bool
  | .ident x, .ident y => x == y
  | .literal l, .literal m => l == m
  | .app f as, .app g bs => f == g && sameAll as bs
  | _, _ => false

def sameAll : List Expr → List Expr → Bool
  | [], [] => true
  | a :: as, b :: bs => same a b && sameAll as bs
  | _, _ => false

end

mutual

theorem same_iff : ∀ {a b : Expr}, same a b = true ↔ a = b
  | .ident x, .ident y => by simp [same]
  | .literal l, .literal m => by simp [same]
  | .app f as, .app g bs => by simp [same, sameAll_iff]
  | .ident _, .literal _ => by simp [same]
  | .ident _, .app _ _ => by simp [same]
  | .literal _, .ident _ => by simp [same]
  | .literal _, .app _ _ => by simp [same]
  | .app _ _, .ident _ => by simp [same]
  | .app _ _, .literal _ => by simp [same]

theorem sameAll_iff : ∀ {as bs : List Expr}, sameAll as bs = true ↔ as = bs
  | [], [] => by simp [sameAll]
  | a :: as, b :: bs => by simp [sameAll, same_iff, sameAll_iff]
  | [], _ :: _ => by simp [sameAll]
  | _ :: _, [] => by simp [sameAll]

end

instance : DecidableEq Expr := fun _ _ => decidable_of_iff _ same_iff

mutual

/-- The expression in the syntax it is read from: applications in parentheses, one space between
neighbours. -/
def text : Expr → String
  | .ident x => x.name
  | .literal l => l.text
  | .app op args => "(" ++ op.name ++ textArgs args ++ ")"

def textArgs : List Expr → String
  | [] => ""
  | e :: es => " " ++ e.text ++ textArgs es

end

instance : ToString Expr := ⟨text⟩

end Expr

namespace App

def toExpr (a : App) : Expr := .app a.op a.args

def text (a : App) : String := a.toExpr.text

instance : ToString App := ⟨text⟩

instance : DecidableEq App := fun a b =>
  decidable_of_iff (a.op = b.op ∧ a.args = b.args) (by cases a; cases b; simp)

end App

/-- The parts of a well-formed bit extraction: two literal bounds and the operand. -/
structure Extraction where
  low : Literal
  high : Literal
  operand : Expr
deriving DecidableEq, Repr

namespace Extraction

def operator : String := "extract"

/-- The parts of an application of `extract`, if its arguments are two literals and an operand. -/
def ofArgs? : List Expr → Option Extraction
  | [.literal low, .literal high, operand] => some ⟨low, high, operand⟩
  | _ => none

def ofApp? (op : Ident) (args : List Expr) : Option Extraction :=
  if op.name = operator then ofArgs? args else none

end Extraction

end BitSynth
