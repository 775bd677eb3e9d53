import BitSynth.Proofs.Grammar.Derivation
import BitSynth.Proofs.Solver.Word

/-!
# What a solver makes of a problem

Terms are evaluated over words and truth values. What the operators of the library do to bit vectors
of the program's width is up to an interpretation; joining, adding, extracting and comparing words
is that of SMT-LIB. The body of a wrapper is a tag joined with a value: the tag is a matter of the
encoding and is evaluated with SMT-LIB's operations, the value with the interpretation's.
-/

namespace BitSynth.Sygus

/-- A word, or the truth of a comparison. -/
inductive Value where
  | word (a : Word)
  | truth (b : Bool)
deriving DecidableEq

namespace Value

def word? : Value → Option Word
  | word a => some a
  | truth _ => none

def bits? (width : Nat) : Value → Option (BitVec width)
  | word a => if h : a.width = width then some (a.bits.cast h) else none
  | truth _ => none

@[simp] theorem bits?_word {width : Nat} (v : BitVec width) :
    (word ⟨width, v⟩).bits? width = some v := by
  simp [bits?]

end Value

/-! ## Terms -/

/-- What symbols make of their arguments, where they mean something. -/
abbrev Meaning := String → List Value → Option Value

/-- The operations of SMT-LIB that the encoding itself uses. -/
def smtLib : Meaning
  | "concat", [.word a, .word b] => some (.word (a.concat b))
  | "bvadd", .word a :: vs => (vs.mapM Value.word?).bind fun bs => (bs.foldlM Word.add? a).map .word
  | "=", [a, b] => some (.truth (a == b))
  | _, _ => none

theorem mapM_map {α β γ : Type} {f : β → Option γ} {g : α → β} {h : α → γ} : ∀ {as : List α},
    (∀ a ∈ as, f (g a) = some (h a)) → (as.map g).mapM f = some (as.map h)
  | [], _ => rfl
  | a :: as, hf => by
    rw [List.map_cons, List.mapM_cons, hf a (List.mem_cons_self ..),
      mapM_map fun b hb => hf b (List.mem_cons_of_mem a hb)]
    rfl

theorem smtLib_bvadd {α : Type} (a : Word) (f : α → Word) (as : List α) :
    smtLib "bvadd" (.word a :: as.map fun x => .word (f x))
      = ((as.map f).foldlM Word.add? a).map .word := by
  have hwords : (as.map fun x => Value.word (f x)).mapM Value.word? = some (as.map f) :=
    mapM_map fun _ _ => rfl
  rw [smtLib, hwords, Option.bind_some]

namespace Candidate

mutual

/-- The term with its parameters told apart from the symbols. What stands at the head of a list is
no parameter. -/
def ofTerm (names : List String) : Term → Candidate
  | .atom s => if s ∈ names then .input s else .symbol s
  | .list [] => .list []
  | .list (head :: args) => .list (ofTerm [] head :: ofTerms names args)

def ofTerms (names : List String) : List Term → List Candidate
  | [] => []
  | t :: ts => ofTerm names t :: ofTerms names ts

end

def number (s : String) : Nat := Text.ofDigits 10 s.toList

/-- The value of a head with its arguments: a symbol is given its meaning, and an extraction takes
bits of a word. -/
def applyHead (F : Meaning) : Candidate → List Value → Option Value
  | .symbol f, vs => F f vs
  | .list [.symbol "_", .symbol "extract", .symbol high, .symbol low], [.word a] =>
    (a.extract (number high) (number low)).map .word
  | _, _ => none

mutual

/-- The value of a candidate whose inputs have the given values. A symbol that is no bit string is
given its meaning. -/
def value (F : Meaning) (σ : String → Option Value) : Candidate → Option Value
  | .symbol s => (Word.ofLiteral? s).elim (F s []) fun a => some (.word a)
  | .input x => σ x
  | .constant width v => some (.word ⟨width, v⟩)
  | .list [] => none
  | .list (head :: args) => (values F σ args).bind (applyHead F head)

def values (F : Meaning) (σ : String → Option Value) : List Candidate → Option (List Value)
  | [] => some []
  | c :: cs => (value F σ c).bind fun v => (values F σ cs).map (v :: ·)

end

section Values

variable {F : Meaning} {σ : String → Option Value} {f : String}

theorem values_map {α : Type} {c : α → Candidate} {v : α → Value} : ∀ {as : List α},
    (∀ a ∈ as, value F σ (c a) = some (v a)) → values F σ (as.map c) = some (as.map v)
  | [], _ => rfl
  | a :: as, h => by
    rw [List.map_cons, List.map_cons, values, h a (List.mem_cons_self ..), Option.bind_some,
      values_map fun b hb => h b (List.mem_cons_of_mem a hb), Option.map_some]

theorem value_call (hf : f.toList.head? ≠ some '#') (cs : List Candidate) :
    value F σ (.call f cs) = (values F σ cs).bind (F f) := by
  cases cs with
  | nil =>
    rw [call, List.isEmpty_nil, if_pos rfl, value, Word.ofLiteral?_eq_none hf]
    rfl
  | cons c cs =>
    show value F σ (.list (.symbol f :: c :: cs)) = _
    rw [value]
    rfl

theorem value_behind {n : Nat} {c : Candidate} {a : Word} (hn : 0 < n)
    (hc : value F σ c = some (.word a)) :
    value F σ (.behind n c) = F "concat" [.word ⟨n, 0⟩, .word a] := by
  rw [behind, value, values, values, values, value, Word.ofLiteral?_zeros hn, hc]
  rfl

theorem number_toString (n : Nat) : number (toString n) = n := by
  rw [number, Text.toList_toString_nat, Text.ofDigits_toDigits (by decide) (by decide)]

theorem value_extract {high low : Nat} {c : Candidate} {a : Word}
    (hc : value F σ c = some (.word a)) :
    value F σ (.list [.list [.symbol "_", .symbol "extract", .symbol (toString high),
      .symbol (toString low)], c]) = (a.extract high low).map .word := by
  rw [value, values, values, hc, Option.bind_some, Option.map_some, Option.bind_some, applyHead,
    number_toString, number_toString]

theorem ofTerms_eq_map (names : List String) : ∀ ts : List Term,
    ofTerms names ts = ts.map (ofTerm names)
  | [] => rfl
  | t :: ts => by rw [ofTerms, List.map_cons, ofTerms_eq_map names ts]

theorem ofTerm_app (names : List String) (f : String) (ts : List Term) :
    ofTerm names (.app f ts) = .list (.symbol f :: ts.map (ofTerm names)) := by
  rw [Term.app, ofTerm, ofTerms_eq_map]
  rfl

theorem ofTerm_call {names : List String} (ts : List Term) (h : ts = [] → f ∉ names) :
    ofTerm names (.call f ts) = .call f (ts.map (ofTerm names)) := by
  cases ts with
  | nil => exact if_neg (h rfl)
  | cons t ts => exact ofTerm_app names f (t :: ts)

theorem ofTerm_extract (names : List String) (high low : Nat) (t : Term) :
    ofTerm names (.extract high low t) = .list [.list [.symbol "_", .symbol "extract",
      .symbol (toString high), .symbol (toString low)], ofTerm names t] := rfl

theorem ofTerm_of_notMem {names : List String} {s : String} (h : s ∉ names) :
    ofTerm names (.atom s) = .symbol s := if_neg h

theorem ofTerm_of_mem {names : List String} {x : String} (h : x ∈ names) :
    ofTerm names (.atom x) = .input x := if_pos h

end Values

end Candidate

/-! ## Problems -/

/-- What the operators of a library do to bit vectors of a width, by the names that solvers know
them by. -/
structure Interpretation (width : Nat) where
  function : String → List (BitVec width) → BitVec width
  relation : String → List (BitVec width) → Bool

def isRelation (smtName : String) : Bool :=
  Relation.all.any fun r => Operator.smtName r.name .value == smtName

namespace Interpretation

variable {width : Nat} (I : Interpretation width)

/-- A choice by the truth of a comparison is a choice; all other symbols are up to the
interpretation. -/
def meaning : Meaning
  | "ite", [.truth b, v, w] => some (if b then v else w)
  | f, vs => (vs.mapM (Value.bits? width)).map fun bs =>
    if isRelation f then .truth (I.relation f bs) else .word ⟨width, I.function f bs⟩

/-- What a kind of the library makes of bit vectors: truth becomes one or zero. -/
def apply (k : Kind) (vs : List (BitVec width)) : BitVec width :=
  match k.form with
  | .operator smtName _ true => if I.relation smtName vs then 1 else 0
  | .operator smtName _ false => I.function smtName vs
  | .constant _ => 0

end Interpretation

def assign (names : List String) (vs : List Value) (x : String) : Option Value :=
  (names.zip vs).lookup x

/-- The parameters and the body of the term, if it defines the function. -/
def definitionOf (f : String) : Term → Option (List String × Term)
  | .list [.atom "define-fun", .atom g, params, _, body] =>
    if g = f then some (params.parameters.map Prod.fst, body) else none
  | _ => none

namespace Problem

variable {width : Nat} (q : Problem) (I : Interpretation width)

/-- What the symbols of a candidate mean: those that the problem defines as a tag joined with a
value are applied, and the others are SMT-LIB's. -/
def meaning : Meaning := fun f vs =>
  match q.definitions.findSome? (definitionOf f) with
  | some (names, .list [.atom "concat", tag, value]) =>
    ((Candidate.ofTerm names tag).value smtLib (assign names vs)).bind fun a =>
    ((Candidate.ofTerm names value).value I.meaning (assign names vs)).bind fun b =>
      smtLib "concat" [a, b]
  | _ => smtLib f vs

def evaluate (env : String → BitVec width) (c : Candidate) : Option Value :=
  c.value (q.meaning I) fun x => some (.word ⟨width, env x⟩)

def declared : List String :=
  q.declarations.filterMap fun
    | .list [.atom "declare-var", .atom x, _] => some x
    | _ => none

/-- What the symbols of the constraint mean when the function to meet is `spec` and the candidate is
taken for the function to find. -/
def constraintMeaning (spec : List (BitVec width) → BitVec width) (c : Candidate) : Meaning
  | "spec", vs => (vs.mapM (Value.bits? width)).map fun bs => .word ⟨width, spec bs⟩
  | "res", vs => c.value (q.meaning I) (assign (q.parameters.map Prod.fst) vs)
  | f, vs => smtLib f vs

/-- The candidate meets the constraint at an input. -/
def Holds (spec : List (BitVec width) → BitVec width) (c : Candidate)
    (env : String → BitVec width) : Prop :=
  ∃ t, q.constraint = .app "constraint" [t]
    ∧ (Candidate.ofTerm q.declared t).value (q.constraintMeaning I spec c)
        (fun x => some (.word ⟨width, env x⟩)) = some (.truth true)

end Problem

end BitSynth.Sygus
