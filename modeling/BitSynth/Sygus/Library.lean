import BitSynth.Encoder
import BitSynth.Program.Basic
import BitSynth.Sygus.Usage

/-!
# The library as kinds of components

Equal entries of the library are one kind with a count. Each kind has a slot in a tag of bits that
a solution carries beside its value; the slot counts how often the kind was used. A solution has
used the library up when its tag is the target.
-/

namespace BitSynth.Sygus

/-- What a kind contributes: an operator, or a bit string that may stand anywhere and is not
counted. -/
inductive KindForm where
  | operator (smtName : String) (arity : Nat) (relation : Bool)
  | constant (literal : String)
deriving DecidableEq, Repr

/-- Library entries that are the same, and how many of them there are. -/
structure Kind where
  key : String
  count : Nat
  form : KindForm
deriving DecidableEq, Repr

namespace Kind

/-- The name of the function that applies the kind and counts the use. -/
def wrapperName (k : Kind) : String := "op_" ++ k.key

def arity (k : Kind) : Nat :=
  match k.form with
  | .operator _ n _ => n
  | .constant _ => 0

/-- How often the kind may be used; constants are not counted. -/
def budget (k : Kind) : Nat :=
  match k.form with
  | .operator .. => k.count
  | .constant _ => 0

/-- Counts an entry with this key: one more of its kind, or a new kind at the end. -/
def tally (key : String) (form : KindForm) : List Kind → List Kind
  | [] => [⟨key, 1, form⟩]
  | k :: ks =>
    if k.key = key then { k with count := k.count + 1 } :: ks else k :: tally key form ks

end Kind

/-- The kinds in order of first appearance, the width of the free constant if there is one, and the
definitions of the library's functions. -/
structure Library where
  kinds : List Kind := []
  freeWidth : Option Nat := none
  helpers : List Term := []
deriving DecidableEq, Repr

namespace Library

/-- Takes one entry into the library. Of functions with one name the first is defined and the
others are counted as uses of it. -/
def add (e : Encoder) (l : Library) : LibraryEntry → Logged Library
  | .operator name =>
    let form := .operator (Operator.smtName name.name .value) (Operator.arity name.name)
      (Relation.ofName? name.name).isSome
    return { l with kinds := Kind.tally name.name form l.kinds }
  | .constant width none =>
    match l.freeWidth with
    | some first =>
      if first = width then return l else .fail (.constantWidths first width)
    | none => return { l with freeWidth := some width }
  | .constant width (some literal) => do
    let key ← e.encodeConstant literal.value width
    return { l with kinds := Kind.tally key (.constant key) l.kinds }
  | .function name params body => do
    let key := Operator.helperName name.name
    let helpers ←
      if l.kinds.any (·.key = key) then pure l.helpers
      else do
        let t ← e.encode body
        let sort := Term.bitVec e.bitWidth
        pure (l.helpers ++ [.defineFun key (params.map Ident.name) sort sort t])
    return { l with
      kinds := Kind.tally key (.operator key params.length false) l.kinds
      helpers := helpers }

def budgets (l : Library) : List Nat := l.kinds.map Kind.budget

/-- The most uses of each kind that a solution can make or needs to make. -/
def uses (l : Library) : List Nat :=
  List.zipWith max (Usage.worstCase l.budgets (l.kinds.map Kind.arity)) l.budgets

/-- Refuses a library with a kind that can be used more often than a counter of the given bits can
tell. -/
def checkCounts (l : Library) (tagBits : Nat) : Except Error Unit :=
  match (l.kinds.zip l.uses).find? (fun p => maxCount tagBits < p.2) with
  | some (k, n) => .error (.tagOverflow k.key n tagBits)
  | none => .ok ()

end Library

/-- A library whose counts fit into counters of `tagBits` bits. -/
structure TaggedLibrary extends Library where
  tagBits : Nat
deriving DecidableEq, Repr

namespace TaggedLibrary

/-- The library of a program, and a report of each kind. -/
def ofEntries (entries : List LibraryEntry) (e : Encoder) (s : Settings) :
    Logged TaggedLibrary := do
  let l ← entries.foldlM (Library.add e) {}
  .ofExcept (l.checkCounts s.tagBits)
  l.kinds.forM fun k =>
    .emit .debug .library ("Kind " ++ k.key ++ " required " ++ toString k.count ++ " times")
  return { toLibrary := l, tagBits := s.tagBits }

variable (l : TaggedLibrary)

/-- The bits of the tag: a slot for each kind, and one slot if there is no kind. -/
def tagWidth : Nat := max l.tagBits (l.kinds.length * l.tagBits)

def oneHot (kind : Nat) : String := Bits.binary (Bits.modulus (kind * l.tagBits)) l.tagWidth

/-- The number that the tag of a finished solution is: each kind's budget in its slot, the first
kind in the lowest. -/
def targetValue : Nat :=
  Usage.total (l.budgets.mapIdx fun i n => n * Bits.modulus (i * l.tagBits))

def target : String := Bits.binary l.targetValue l.tagWidth

def operandNames (arity : Nat) : List String :=
  (List.range arity).map fun i => "i" ++ toString i

/-- The definition of a wrapper. Its operands carry tags in their high bits; it adds them up with
the tag of its own use, and applies the operator to the low bits. The truth value of a comparison
becomes one or zero. -/
def wrapper (bitWidth index : Nat) (k : Kind) (smtName : String) (arity : Nat) (relation : Bool) :
    Term :=
  let total := l.tagWidth + bitWidth
  let names := operandNames arity
  let part (high low : Nat) := names.map fun x => Term.extract high low (.atom x)
  let oneHot := Term.atom (l.oneHot index)
  let tag := if arity = 0 then oneHot else .app "bvadd" (oneHot :: part (total - 1) bitWidth)
  let value := Term.call smtName (part (bitWidth - 1) 0)
  let value := if relation then
      .app Operator.ite [value, .atom (Bits.binary 1 bitWidth), .atom (Bits.zeros bitWidth)]
    else value
  let sort := Term.bitVec total
  .defineFun k.wrapperName names sort sort (.concat tag value)

def wrappers (bitWidth : Nat) : List Term :=
  l.kinds.zipIdx.filterMap fun (k, i) =>
    match k.form with
    | .operator smtName arity relation => some (l.wrapper bitWidth i k smtName arity relation)
    | .constant _ => none

end TaggedLibrary

end BitSynth.Sygus
