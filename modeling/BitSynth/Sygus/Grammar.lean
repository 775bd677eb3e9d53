import BitSynth.Sygus.Library

/-!
# The grammar of solutions

A nonterminal for each usage within the budgets: it derives what may stand where that much has been
used. Applying a kind moves on to the nonterminal with one more use of it, so no derivation goes
over a budget.
-/

namespace BitSynth.Sygus

structure Nonterminal where
  name : String
  sort : Term
  productions : List Term
deriving DecidableEq, Repr

def Nonterminal.term (n : Nonterminal) : Term := .list [.atom n.name, n.sort, .list n.productions]

def Nonterminal.text (n : Nonterminal) : String := n.term.text

def Usage.name (u : Usage) : String := "Start" ++ String.join (u.map fun n => "_" ++ toString n)

namespace Grammar

def variableName : String := "Var"

def constantName : String := "Const"

def anyOf (name termClass : String) (width : Nat) : Nonterminal :=
  let sort := Term.bitVec width
  ⟨name, sort, [.list [.atom termClass, sort]]⟩

/-- A free constant of some width behind an empty tag: a narrower one is filled up with zeros, a
wider one keeps its low bits. -/
def freeConstant (tagWidth width bitWidth : Nat) : Term :=
  let constant := Term.atom constantName
  if width < bitWidth then
    .concat (.atom (Bits.zeros (tagWidth + bitWidth - width))) constant
  else if width = bitWidth then .concat (.atom (Bits.zeros tagWidth)) constant
  else .concat (.atom (Bits.zeros tagWidth)) (.extract (bitWidth - 1 : Nat) 0 constant)

variable (l : TaggedLibrary) (bitWidth : Nat)

/-- What may stand anywhere: an input, the free constant, and the constants with a value, all with
an empty tag. -/
def leaves : List Term :=
  let untagged (leaf : Term) := Term.concat (.atom (Bits.zeros l.tagWidth)) leaf
  [untagged (.atom variableName)]
    ++ (l.freeWidth.map fun w => freeConstant l.tagWidth w bitWidth).toList
    ++ l.kinds.filterMap fun k =>
      match k.form with
      | .constant literal => some (untagged (.atom literal))
      | .operator .. => none

/-- The applications that a usage affords, by kind. -/
def applications (u : Usage) : List Term :=
  l.kinds.zipIdx.filterMap fun (k, i) =>
    match k.form with
    | .operator _ arity _ =>
      if u.Affords l.budgets i then
        some (.call k.wrapperName (List.replicate arity (.atom (u.spend i).name)))
      else none
    | .constant _ => none

def ofUsage (u : Usage) : Nonterminal :=
  ⟨u.name, .bitVec (l.tagWidth + bitWidth), leaves l bitWidth ++ applications l u⟩

/-- The nonterminals, the start symbol first and those of free constants and inputs last. -/
def nonterminals : Logged (List Nonterminal) := do
  let starts := (Usage.reachable l.budgets).map (ofUsage l bitWidth)
  starts.forM fun n => .emit .trace .grammar ("Nonterminal " ++ n.text)
  return starts ++ (l.freeWidth.map (anyOf constantName "Constant")).toList
    ++ [anyOf variableName "Variable" bitWidth]

end Grammar

end BitSynth.Sygus
