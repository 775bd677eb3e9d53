import BitSynth.Proofs.Grammar.Derivation
import BitSynth.Proofs.Solver.Word

/-!
# Sorts

The sorts that SMT-LIB gives to terms over words and truth values. Operations on words ask for words
of one width and keep it, comparisons make a truth value of them, `ite` asks for a truth value and
two branches of one sort, `concat` adds widths up, and an extraction has the width of its bounds. A
definition is well-sorted if its body has the sort that it is declared with.
-/

namespace BitSynth

/-- The sort of the words of a width, or that of truth values. -/
inductive ValueSort where
  | word (width : Nat)
  | truth
deriving DecidableEq, Repr

/-! ## Operations -/

namespace SmtLib

def unaryOperations : List String := ["bvnot", "bvneg"]

/-- The binary operations without `bv` in front. -/
def binaryNames : List String := [
  "and", "or", "xor", "nand", "nor", "xnor", "add", "sub", "mul", "udiv", "urem", "sdiv", "srem",
  "smod", "shl", "lshr", "ashr"]

def binaryOperations : List String := binaryNames.map ("bv" ++ ·)

/-- The binary operations that may have more than two operands. -/
def associativeOperations : List String := ["bvand", "bvor", "bvadd", "bvmul"]

def comparisons : List String := [
  "bvult", "bvule", "bvugt", "bvuge", "bvslt", "bvsle", "bvsgt", "bvsge"]

def equalities : List String := ["=", "distinct"]

def connectives : List String := ["and", "or", "xor"]

def symbols : List String :=
  ["ite", "concat"] ++ unaryOperations ++ binaryOperations ++ comparisons ++ equalities
    ++ connectives

/-- The sort that two operands or more have in common. -/
def commonSort? : List ValueSort → Option ValueSort
  | s :: t :: ss => if ∀ u ∈ t :: ss, u = s then some s else none
  | _ => none

/-- The sort of an operation on so many operands of a sort. -/
def uniformSort? (f : String) (count : Nat) : ValueSort → Option ValueSort
  | .word n =>
    if f ∈ binaryOperations ∧ count = 2 ∨ f ∈ associativeOperations then some (.word n)
    else if f ∈ comparisons ∧ count = 2 ∨ f ∈ equalities then some .truth
    else none
  | .truth => if f ∈ equalities ∨ f ∈ connectives then some .truth else none

/-- The sort of an operation on operands of these sorts, if it takes them. -/
def resultSort? (f : String) (ss : List ValueSort) : Option ValueSort :=
  if f = "ite" then
    match ss with
    | [.truth, s, t] => if s = t then some s else none
    | _ => none
  else if f = "concat" then
    match ss with
    | [.word m, .word n] => some (.word (m + n))
    | _ => none
  else if f ∈ unaryOperations then
    match ss with
    | [.word n] => some (.word n)
    | _ => none
  else (commonSort? ss).bind (uniformSort? f ss.length)

theorem commonSort?_replicate (σ : ValueSort) (n : Nat) :
    commonSort? (List.replicate (n + 2) σ) = some σ := by
  rw [List.replicate_succ, List.replicate_succ, commonSort?, ← List.replicate_succ]
  exact if_pos fun u hu => List.eq_of_mem_replicate hu

theorem resultSort?_ite (σ : ValueSort) : resultSort? "ite" [.truth, σ, σ] = some σ := by
  simp [resultSort?]

theorem resultSort?_unary {f : String} (hf : f ∈ unaryOperations) (n : Nat) :
    resultSort? f [.word n] = some (.word n) := by
  have hne : ∀ f ∈ unaryOperations, f ≠ "ite" ∧ f ≠ "concat" := by decide
  rw [resultSort?, if_neg (hne f hf).1, if_neg (hne f hf).2, if_pos hf]

/-- What is neither `ite` nor `concat` and has no single operand goes by the sort that its operands
have in common. -/
theorem resultSort?_eq {f : String} (hite : f ≠ "ite") (hconcat : f ≠ "concat")
    (hunary : f ∉ unaryOperations) {ss : List ValueSort} {σ : ValueSort}
    (h : commonSort? ss = some σ) : resultSort? f ss = uniformSort? f ss.length σ := by
  unfold resultSort?
  rw [if_neg hite, if_neg hconcat, if_neg hunary, h, Option.bind_some]

theorem resultSort?_binary {f : String} (hf : f ∈ binaryOperations) (n : Nat) :
    resultSort? f [.word n, .word n] = some (.word n) := by
  have hne : ∀ f ∈ binaryOperations, f ≠ "ite" ∧ f ≠ "concat" ∧ f ∉ unaryOperations := by decide
  obtain ⟨hite, hconcat, hunary⟩ := hne f hf
  refine (resultSort?_eq hite hconcat hunary (commonSort?_replicate (.word n) 0)).trans ?_
  exact if_pos (.inl ⟨hf, rfl⟩)

theorem resultSort?_bvadd (k n : Nat) :
    resultSort? "bvadd" (List.replicate (k + 2) (.word n)) = some (.word n) := by
  rw [resultSort?_eq (by decide) (by decide) (by decide) (commonSort?_replicate (.word n) k)]
  exact if_pos (.inr (by decide))

theorem resultSort?_comparison {f : String} (hf : f ∈ comparisons ∨ f ∈ equalities) (n : Nat) :
    resultSort? f [.word n, .word n] = some .truth := by
  have hne : ∀ f ∈ comparisons ++ equalities, f ≠ "ite" ∧ f ≠ "concat" ∧
      f ∉ unaryOperations ∧ f ∉ binaryOperations ∧ f ∉ associativeOperations := by decide
  obtain ⟨hite, hconcat, hunary, hbinary, hassociative⟩ := hne f (List.mem_append.2 hf)
  refine (resultSort?_eq hite hconcat hunary (commonSort?_replicate (.word n) 0)).trans ?_
  have hnot : ¬ (f ∈ binaryOperations ∧ 2 = 2 ∨ f ∈ associativeOperations) := by
    rintro (⟨h, -⟩ | h)
    exacts [hbinary h, hassociative h]
  exact (if_neg hnot).trans (if_pos (hf.imp_left fun h => ⟨h, rfl⟩))

end SmtLib

/-! ## Terms -/

/-- The number that a numeral denotes. -/
def numeral? (s : String) : Option Nat :=
  if s.toList ≠ [] ∧ s.toList.all Char.isDigit = true then some (Text.ofDigits 10 s.toList)
  else none

theorem numeral?_toString (n : Nat) : numeral? (toString n) = some n := by
  have hall : (Text.toDigits 10 n).all Char.isDigit = true :=
    List.all_eq_true.2 fun c hc => Text.isDigit_of_mem_toDigits hc
  rw [numeral?, Text.toList_toString_nat, if_pos ⟨Nat.toDigits_ne_nil, hall⟩,
    Text.ofDigits_toDigits (by decide) (by decide)]

/-- The sorts of the operands and of the result of the functions that are declared; those of
constants have no operands. -/
abbrev Declarations := String → Option (List ValueSort × ValueSort)

/-- The sort of an application. What is declared is no longer SMT-LIB's. -/
def headSort? (Γ : Declarations) : Term → List ValueSort → Option ValueSort
  | .atom f, ss =>
    match Γ f with
    | some (params, σ) => if ss = params then some σ else none
    | none => SmtLib.resultSort? f ss
  | .list [.atom "_", .atom "extract", .atom high, .atom low], [.word w] =>
    (numeral? high).bind fun h => (numeral? low).bind fun l =>
      if l ≤ h ∧ h < w then some (.word (h - l + 1)) else none
  | _, _ => none

namespace Term

mutual

/-- The sort of a term, if it is well-sorted. -/
def sort? (Γ : Declarations) : Term → Option ValueSort
  | .atom s => (Word.ofLiteral? s).elim (headSort? Γ (.atom s) []) fun a => some (.word a.width)
  | .list [] => none
  | .list (head :: args) => (sorts? Γ args).bind (headSort? Γ head)

def sorts? (Γ : Declarations) : List Term → Option (List ValueSort)
  | [] => some []
  | t :: ts => (sort? Γ t).bind fun σ => (sorts? Γ ts).map (σ :: ·)

end

section Sorts

variable {Γ : Declarations} {f : String} {t : Term} {ts : List Term}

theorem sort?_app (Γ : Declarations) (f : String) (ts : List Term) :
    sort? Γ (.app f ts) = (sorts? Γ ts).bind (headSort? Γ (.atom f)) := by
  rw [app, sort?]

theorem sort?_call (hf : f.toList.head? ≠ some '#') (ts : List Term) :
    sort? Γ (.call f ts) = (sorts? Γ ts).bind (headSort? Γ (.atom f)) := by
  cases ts with
  | nil =>
    rw [call, List.isEmpty_nil, if_pos rfl, sort?, Word.ofLiteral?_eq_none hf]
    rfl
  | cons t ts =>
    show sort? Γ (.app f (t :: ts)) = _
    rw [sort?_app]

theorem sorts?_map {α : Type} {g : α → Term} {σ : ValueSort} : ∀ {as : List α},
    (∀ a ∈ as, sort? Γ (g a) = some σ) →
      sorts? Γ (as.map g) = some (List.replicate as.length σ)
  | [], _ => by rw [List.map_nil, sorts?]; rfl
  | a :: as, h => by
    obtain ⟨ha, has⟩ := List.forall_mem_cons.1 h
    rw [List.map_cons, sorts?, ha, sorts?_map has]
    rfl

theorem sorts?_append (Γ : Declarations) : ∀ ts us : List Term,
    sorts? Γ (ts ++ us) = (sorts? Γ ts).bind fun ss => (sorts? Γ us).map (ss ++ ·)
  | [], us => by
    rw [List.nil_append, sorts?, Option.bind_some]
    exact Option.map_id'.symm
  | t :: ts, us => by
    rw [List.cons_append, sorts?, sorts?, sorts?_append Γ ts us]
    cases sort? Γ t with
    | none => rfl
    | some σ =>
      cases sorts? Γ ts with
      | none => rfl
      | some ss => cases sorts? Γ us <;> rfl

theorem sorts?_pair {t u : Term} {σ τ : ValueSort} (ht : sort? Γ t = some σ)
    (hu : sort? Γ u = some τ) : sorts? Γ [t, u] = some [σ, τ] := by
  rw [sorts?, sorts?, sorts?, ht, hu]
  rfl

theorem sort?_binary {v width : Nat} (hw : 0 < width) (hv : v < Bits.modulus width) :
    sort? Γ (.atom (Bits.binary v width)) = some (.word width) := by
  rw [sort?, Word.ofLiteral?_binary hw hv]
  rfl

theorem sort?_zeros {width : Nat} (hw : 0 < width) :
    sort? Γ (.atom (Bits.zeros width)) = some (.word width) := by
  rw [sort?, Word.ofLiteral?_zeros hw]
  rfl

theorem sort?_extract {high low width : Nat} (ht : sort? Γ t = some (.word width))
    (hlow : low ≤ high) (hhigh : high < width) :
    sort? Γ (.extract high low t) = some (.word (high - low + 1)) := by
  have hindex : headSort? Γ (.app "_" [.atom "extract", .atom (toString high),
      .atom (toString low)]) [.word width] = some (.word (high - low + 1)) := by
    show (numeral? (toString high)).bind _ = _
    rw [numeral?_toString, Option.bind_some, numeral?_toString, Option.bind_some,
      if_pos ⟨hlow, hhigh⟩]
  show (sorts? Γ [t]).bind (headSort? Γ (.app "_" _)) = _
  rw [sorts?, sorts?, ht]
  exact hindex

/-- Where nothing is declared an operation is SMT-LIB's. -/
theorem headSort?_of_none (h : Γ f = none) (ss : List ValueSort) :
    headSort? Γ (.atom f) ss = SmtLib.resultSort? f ss := by
  rw [headSort?, h]

theorem headSort?_of_some {params : List ValueSort} {σ : ValueSort} (h : Γ f = some (params, σ)) :
    headSort? Γ (.atom f) params = some σ := by
  rw [headSort?, h]
  exact if_pos rfl

/-- A truth value chooses between the words one and zero. -/
theorem sort?_choice {t : Term} {width : Nat} (hite : Γ "ite" = none) (hw : 0 < width)
    (ht : sort? Γ t = some .truth) :
    sort? Γ (.app "ite" [t, .atom (Bits.binary 1 width), .atom (Bits.zeros width)])
      = some (.word width) := by
  have hone : sort? Γ (.atom (Bits.binary 1 width)) = some (.word width) :=
    sort?_binary hw (Nat.one_lt_two_pow (Nat.ne_of_gt hw))
  rw [sort?_app, sorts?, ht, Option.bind_some, sorts?_pair hone (sort?_zeros hw), Option.map_some,
    Option.bind_some, headSort?_of_none hite]
  exact SmtLib.resultSort?_ite _

theorem sort?_constant {σ : ValueSort} (hf : f.toList.head? ≠ some '#') (h : Γ f = some ([], σ)) :
    sort? Γ (.atom f) = some σ := by
  rw [sort?, Word.ofLiteral?_eq_none hf]
  exact headSort?_of_some h

theorem sort?_concat {t u : Term} {m n : Nat} (hconcat : Γ "concat" = none)
    (ht : sort? Γ t = some (.word m)) (hu : sort? Γ u = some (.word n)) :
    sort? Γ (.concat t u) = some (.word (m + n)) := by
  rw [Term.concat, sort?_app, sorts?_pair ht hu, Option.bind_some, headSort?_of_none hconcat]
  rfl

/-- What stands behind a word takes up what the word leaves of the width. -/
theorem sort?_concat_iff {t u : Term} {m n : Nat} (hconcat : Γ "concat" = none)
    (ht : sort? Γ t = some (.word m)) :
    sort? Γ (.concat t u) = some (.word (m + n)) ↔ sort? Γ u = some (.word n) := by
  refine ⟨fun h => ?_, sort?_concat hconcat ht⟩
  match hu : sort? Γ u with
  | none =>
    rw [Term.concat, sort?_app, sorts?, sorts?, ht, hu] at h
    cases h
  | some .truth =>
    rw [Term.concat, sort?_app, sorts?_pair ht hu, Option.bind_some, headSort?_of_none hconcat] at h
    cases h
  | some (.word k) =>
    rw [sort?_concat hconcat ht hu] at h
    obtain rfl : k = n := Nat.add_left_cancel (ValueSort.word.inj (Option.some.inj h))
    rfl

end Sorts

/-! ## Definitions -/

/-- The sort that a term names. -/
def sortNamed? : Term → Option ValueSort
  | .atom "Bool" => some .truth
  | .list [.atom "_", .atom "BitVec", .atom n] => (numeral? n).map .word
  | _ => none

@[simp] theorem sortNamed?_bitVec (width : Nat) :
    sortNamed? (.bitVec width) = some (.word width) := by
  show (numeral? (toString width)).map ValueSort.word = _
  rw [numeral?_toString, Option.map_some]

/-- The names of parameters and the sorts that they are declared with. -/
def parameterSorts? (params : Term) : Option (List (String × ValueSort)) :=
  params.parameters.mapM fun p => (sortNamed? p.2).map (p.1, ·)

theorem parameterSorts?_params (names : List String) (width : Nat) :
    parameterSorts? (.params names (.bitVec width)) = some (names.map (·, .word width)) := by
  rw [parameterSorts?, parameters_params]
  induction names with
  | nil => rfl
  | cons x names ih =>
    rw [List.map_cons, List.mapM_cons, ih, sortNamed?_bitVec]
    rfl

/-- The name that a definition declares, with the sorts of its operands and of its result. -/
def declaration? : Term → Option (String × List ValueSort × ValueSort)
  | .list [.atom "define-fun", .atom f, params, sort, _] =>
    (parameterSorts? params).bind fun ps => (sortNamed? sort).map fun σ => (f, ps.map Prod.snd, σ)
  | _ => none

theorem declaration?_defineFun (f : String) (names : List String) (v w : Nat) (body : Term) :
    declaration? (.defineFun f names (.bitVec v) (.bitVec w) body)
      = some (f, List.replicate names.length (.word v), .word w) := by
  show (parameterSorts? (.params names (.bitVec v))).bind _ = _
  rw [parameterSorts?_params, Option.bind_some, sortNamed?_bitVec, List.map_map]
  simp [Function.comp_def, List.map_const']

end Term

namespace Declarations

def ofDefinition (t : Term) : Declarations := fun f =>
  t.declaration?.bind fun d => if d.1 = f then some d.2 else none

/-- What the definitions declare. -/
def ofDefinitions (ts : List Term) : Declarations := fun f => ts.findSome? (ofDefinition · f)

/-- The declarations with constants of their own sorts in front of them. -/
def withConstants (Γ : Declarations) (xs : List (String × ValueSort)) : Declarations := fun f =>
  ((xs.lookup f).map ([], ·)).or (Γ f)

variable {Γ : Declarations} {f : String}

theorem ofDefinition_defineFun (f g : String) (names : List String) (v w : Nat) (body : Term) :
    ofDefinition (.defineFun g names (.bitVec v) (.bitVec w) body) f
      = if g = f then some (List.replicate names.length (.word v), .word w) else none := by
  rw [ofDefinition, Term.declaration?_defineFun, Option.bind_some]

theorem ofDefinition_of_ne {g : String} (h : g ≠ f) (names : List String) (s t body : Term) :
    ofDefinition (.defineFun g names s t body) f = none := by
  show (((Term.params names s).parameterSorts?.bind fun ps =>
    t.sortNamed?.map fun σ => (g, ps.map Prod.snd, σ)).bind fun d =>
      if d.1 = f then some d.2 else none) = none
  cases (Term.params names s).parameterSorts? with
  | none => rfl
  | some ps =>
    cases t.sortNamed? with
    | none => rfl
    | some σ => exact if_neg h

theorem ofDefinitions_append (ts us : List Term) (f : String) :
    ofDefinitions (ts ++ us) f = (ofDefinitions ts f).or (ofDefinitions us f) :=
  List.findSome?_append

theorem withConstants_of_mem {names : List String} (σ : ValueSort) (h : f ∈ names) :
    withConstants Γ (names.map (·, σ)) f = some ([], σ) := by
  have hlookup : (names.map (·, σ)).lookup f = some σ := by
    induction names with
    | nil => cases h
    | cons x names ih =>
      rw [List.map_cons, List.lookup_cons]
      by_cases hx : f = x
      · rw [hx, beq_self_eq_true]
      · rw [beq_false_of_ne hx]
        exact ih ((List.mem_cons.1 h).resolve_left hx)
  rw [withConstants, hlookup]
  rfl

theorem withConstants_of_notMem {xs : List (String × ValueSort)} (h : f ∉ xs.map Prod.fst) :
    withConstants Γ xs f = Γ f := by
  have hlookup : xs.lookup f = none := by
    rw [List.lookup_eq_none_iff]
    intro p hp
    rw [bne_iff_ne]
    rintro rfl
    exact h (List.mem_map_of_mem hp)
  rw [withConstants, hlookup]
  rfl

end Declarations

namespace Term

/-- The sort that a definition is declared with and that of its body, where both have one. -/
def definitionSorts? (Γ : Declarations) : Term → Option (ValueSort × ValueSort)
  | .list [.atom "define-fun", .atom _, params, sort, body] =>
    (parameterSorts? params).bind fun ps => (sortNamed? sort).bind fun σ =>
      (body.sort? (Γ.withConstants ps)).map fun τ => (σ, τ)
  | _ => none

/-- The definition's body has the sort that is declared. -/
def WellSorted (Γ : Declarations) (t : Term) : Prop :=
  ∃ σ, t.definitionSorts? Γ = some (σ, σ)

instance (Γ : Declarations) (t : Term) : Decidable (t.WellSorted Γ) :=
  decidable_of_iff (∃ p ∈ t.definitionSorts? Γ, p.1 = p.2) ⟨
    fun ⟨⟨σ, τ⟩, hp, h⟩ => ⟨σ, by rw [Option.mem_def.1 hp, ← show σ = τ from h]⟩,
    fun ⟨σ, h⟩ => ⟨(σ, σ), h, rfl⟩⟩

theorem wellSorted_defineFun_iff {Γ : Declarations} {f : String} {names : List String} {v w : Nat}
    {body : Term} : (defineFun f names (.bitVec v) (.bitVec w) body).WellSorted Γ ↔
      body.sort? (Γ.withConstants (names.map (·, .word v))) = some (.word w) := by
  have hsorts : (defineFun f names (.bitVec v) (.bitVec w) body).definitionSorts? Γ
      = (body.sort? (Γ.withConstants (names.map (·, .word v)))).map fun τ => (.word w, τ) := by
    show (parameterSorts? (.params names (.bitVec v))).bind _ = _
    rw [parameterSorts?_params, Option.bind_some, sortNamed?_bitVec, Option.bind_some]
  unfold WellSorted
  rw [hsorts]
  constructor
  · rintro ⟨σ, h⟩
    obtain ⟨τ, hτ, heq⟩ := Option.map_eq_some_iff.1 h
    obtain ⟨rfl, rfl⟩ := Prod.mk.inj heq
    exact hτ
  · intro h
    exact ⟨.word w, by rw [h, Option.map_some]⟩

end Term

end BitSynth
