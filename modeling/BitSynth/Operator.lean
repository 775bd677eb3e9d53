import BitSynth.Expr.Basic

/-!
# Operators

What the names of operators mean to a translation: how many operands they take, which of them
compare, and what a solver calls them.
-/

namespace BitSynth

/-- The comparisons, unsigned and signed. Their results are truth values. -/
inductive Relation where
  | eq
  | neq
  | ult
  | ule
  | ugt
  | uge
  | slt
  | sle
  | sgt
  | sge
deriving DecidableEq, Repr

namespace Relation

def name : Relation → String
  | eq => "eq"
  | neq => "neq"
  | ult => "ult"
  | ule => "ule"
  | ugt => "ugt"
  | uge => "uge"
  | slt => "slt"
  | sle => "sle"
  | sgt => "sgt"
  | sge => "sge"

def all : List Relation := [eq, neq, ult, ule, ugt, uge, slt, sle, sgt, sge]

def ofName? (s : String) : Option Relation := all.find? (·.name == s)

theorem mem_all (r : Relation) : r ∈ all := by cases r <;> decide

theorem ofName?_name (r : Relation) : ofName? r.name = some r := by cases r <;> decide

end Relation

namespace Operator

def ite : String := "ite"

def concat : String := "concat"

/-- The operands of a built-in operator: three for `ite`, one for `not` and `neg`, two otherwise. -/
def arity (name : String) : Nat :=
  if name = ite then 3
  else if name = "not" ∨ name = "neg" then 1
  else 2

/-- What an expression is wanted for: its value, or its truth as the condition of an `ite`. -/
inductive Use where
  | value
  | condition
deriving DecidableEq, Repr

def helperMark : String := "cust_"

def helperName (function : String) : String := helperMark ++ function

def isHelper (name : String) : Bool := helperMark.toList.isPrefixOf name.toList

/-- What SMT-LIB calls the operator. Bit-vector operations have `bv` in front; equality, `ite`,
`concat` and the helpers do not, nor do the connectives where a condition is wanted. -/
def smtName (name : String) (use : Use) : String :=
  if name = "eq" then "="
  else if name = "neq" then "distinct"
  else if name = ite ∨ name = concat then name
  else if (name = "and" ∨ name = "or" ∨ name = "xor") ∧ use = .condition then name
  else if isHelper name then name
  else "bv" ++ name

end Operator

end BitSynth
