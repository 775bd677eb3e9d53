import BitSynth.Proofs.Grammar.Language
import BitSynth.Proofs.Library.Tags
import BitSynth.Proofs.Solver.Meaning
import BitSynth.Sygus.Problem

/-!
# What wrappers do

A problem that defines the helpers and wrappers of a library finds the wrapper of each operator kind
under its name. Applied to tagged values, the wrapper adds up their tags and the tag of its own use,
and applies the kind to the values.
-/

namespace BitSynth.Sygus

/-! ## Names -/

theorem smtName_cases (name : String) :
    name = "eq" ∧ Operator.smtName name .value = "="
      ∨ name = "neq" ∧ Operator.smtName name .value = "distinct"
      ∨ (name = "ite" ∨ name = "concat") ∧ Operator.smtName name .value = name
      ∨ Operator.isHelper name = true ∧ Operator.smtName name .value = name
      ∨ Operator.smtName name .value = "bv" ++ name := by
  unfold Operator.smtName Operator.ite Operator.concat
  split_ifs <;> simp_all

theorem isHelper_helperName (function : String) :
    Operator.isHelper (Operator.helperName function) = true := by
  simp [Operator.isHelper, Operator.helperName, String.toList_append]

theorem head?_of_isHelper {name : String} (h : Operator.isHelper name = true) :
    name.toList.head? = some 'c' := by
  obtain ⟨rest, h⟩ := List.isPrefixOf_iff_prefix.1 h
  rw [← h]
  rfl

theorem head?_smtName (name : String) :
    (Operator.smtName name .value).toList.head? ≠ some '#' := by
  rcases smtName_cases name with ⟨-, h⟩ | ⟨-, h⟩ | ⟨hname, h⟩ | ⟨hname, h⟩ | h <;> rw [h]
  · decide
  · decide
  · rcases hname with rfl | rfl <;> decide
  · rw [head?_of_isHelper hname]
    decide
  · simp [String.toList_append]

theorem eq_of_smtName_eq {name : String} {r : Relation}
    (h : Operator.smtName r.name .value = Operator.smtName name .value) : r.name = name := by
  have hbv {s t : String} (h : "bv" ++ s = "bv" ++ t) : s = t := by
    have := congrArg String.toList h
    simpa [String.toList_append, String.toList_inj] using this
  rcases smtName_cases name with ⟨hname, hs⟩ | ⟨hname, hs⟩ | ⟨hname, hs⟩ | ⟨hname, hs⟩ | hs <;>
    rw [hs] at h
  · cases r <;> first | exact hname.symm | exact absurd h (by decide)
  · cases r <;> first | exact hname.symm | exact absurd h (by decide)
  · rcases hname with rfl | rfl <;> cases r <;> exact absurd h (by decide)
  · have hhead := head?_of_isHelper hname
    rw [← h] at hhead
    cases r <;> exact absurd hhead (by decide)
  · have hhead := congrArg (fun s => s.toList.take 2) h
    cases r
    · simp [String.toList_append] at hhead
      exact absurd hhead (by decide)
    · simp [String.toList_append] at hhead
      exact absurd hhead (by decide)
    all_goals exact hbv h

theorem isRelation_iff {s : String} :
    isRelation s = true ↔ ∃ r : Relation, Operator.smtName r.name .value = s := by
  unfold isRelation
  simp only [List.any_eq_true, beq_iff_eq]
  exact exists_congr fun r => and_iff_right (Relation.mem_all r)

/-- Of a kind with a form that goes with its key, the name that solvers know tells whether it
compares. -/
theorem KindForm.Of.isRelation_eq {bitWidth arity : Nat} {key smtName : String} {relation : Bool}
    (h : (KindForm.operator smtName arity relation).Of bitWidth key) :
    isRelation smtName = relation := by
  rw [Bool.eq_iff_iff, isRelation_iff]
  cases h with
  | builtin name =>
    rw [Relation.ofName?, List.find?_isSome]
    simp only [beq_iff_eq]
    refine exists_congr fun r => ⟨fun h => ⟨Relation.mem_all r, eq_of_smtName_eq h⟩, ?_⟩
    rintro ⟨-, h⟩
    rw [h]
  | helper function =>
    refine iff_of_false ?_ (by decide)
    rintro ⟨r, h⟩
    have hhead := head?_of_isHelper (isHelper_helperName function)
    rw [← h] at hhead
    cases r <;> exact absurd hhead (by decide)

theorem KindForm.Of.head?_ne {bitWidth arity : Nat} {key smtName : String} {relation : Bool}
    (h : (KindForm.operator smtName arity relation).Of bitWidth key) :
    smtName.toList.head? ≠ some '#' := by
  cases h with
  | builtin => exact head?_smtName _
  | helper function =>
    rw [head?_of_isHelper (isHelper_helperName function)]
    decide

/-! ## Definitions -/

theorem definitionOf_defineFun (f g : String) (names : List String) (s t body : Term) :
    definitionOf f (.defineFun g names s t body) = if g = f then some (names, body) else none := by
  simp only [Term.defineFun, Term.app, definitionOf, Term.parameters_params, List.map_map]
  simp [Function.comp_def]

theorem findSome?_eq_some {α β : Type} {f : α → Option β} {a : α} {b : β} : ∀ {as : List α},
    a ∈ as → f a = some b → (∀ a' ∈ as, ∀ b', f a' = some b' → b' = b) → as.findSome? f = some b
  | c :: as, ha, hb, h => by
    rw [List.findSome?_cons]
    cases hc : f c with
    | some b' => rw [h c (List.mem_cons_self ..) b' hc]
    | none =>
      rcases List.mem_cons.1 ha with rfl | ha
      · rw [hb] at hc
        cases hc
      · exact findSome?_eq_some ha hb fun a' ha' => h a' (List.mem_cons_of_mem c ha')

namespace TaggedLibrary

variable {l : TaggedLibrary} {bitWidth : Nat}

/-- The operands of a wrapper, cut down to some of their bits. -/
def operandParts (arity high low : Nat) : List Term :=
  (operandNames arity).map fun x => .extract high low (.atom x)

def wrapperTag (l : TaggedLibrary) (bitWidth index arity : Nat) : Term :=
  if arity = 0 then .atom (l.oneHot index)
  else .app "bvadd"
    (.atom (l.oneHot index) :: operandParts arity (l.tagWidth + bitWidth - 1) bitWidth)

def wrapperValue (bitWidth : Nat) (smtName : String) (arity : Nat) (relation : Bool) : Term :=
  let value := Term.call smtName (operandParts arity (bitWidth - 1) 0)
  if relation then
    .app "ite" [value, .atom (Bits.binary 1 bitWidth), .atom (Bits.zeros bitWidth)]
  else value

theorem wrapper_eq (l : TaggedLibrary) (bitWidth index : Nat) (k : Kind) (smtName : String)
    (arity : Nat) (relation : Bool) :
    l.wrapper bitWidth index k smtName arity relation
      = .defineFun k.wrapperName (operandNames arity) (.bitVec (l.tagWidth + bitWidth))
          (.bitVec (l.tagWidth + bitWidth))
          (.concat (l.wrapperTag bitWidth index arity)
            (wrapperValue bitWidth smtName arity relation)) := rfl

theorem mem_wrappers_iff {t : Term} : t ∈ l.wrappers bitWidth ↔
    ∃ i k smtName arity relation, l.kinds[i]? = some k
      ∧ k.form = .operator smtName arity relation
      ∧ t = l.wrapper bitWidth i k smtName arity relation := by
  unfold wrappers
  simp only [List.mem_filterMap, Prod.exists, List.mem_zipIdx_iff_getElem?]
  refine ⟨?_, ?_⟩
  · rintro ⟨k, i, hk, ht⟩
    split at ht
    · rename_i smtName arity relation hform
      exact ⟨i, k, smtName, arity, relation, hk, hform, (Option.some.inj ht).symm⟩
    · cases ht
  · rintro ⟨i, k, smtName, arity, relation, hk, hform, rfl⟩
    exact ⟨k, i, hk, by rw [hform]⟩

end TaggedLibrary

theorem isHelper_wrapperName (k : Kind) : Operator.isHelper k.wrapperName = false := by
  rw [Bool.eq_false_iff]
  intro h
  have hhead := head?_of_isHelper h
  simp [Kind.wrapperName, String.toList_append] at hhead

section Definitions

variable {q : Problem} {l : TaggedLibrary} {bitWidth : Nat} {f : String}

theorem definitionOf_helper {t : Term} (ht : Library.IsHelper t)
    (hf : Operator.isHelper f = false) : definitionOf f t = none := by
  obtain ⟨function, names, sort, body, rfl⟩ := ht
  rw [definitionOf_defineFun, if_neg]
  rintro rfl
  rw [isHelper_helperName] at hf
  cases hf

/-- What is neither the name of a helper nor that of a wrapper is not defined. -/
theorem findSome?_definitions_eq_none (hl : l.toLibrary.Sound bitWidth)
    (hf : Operator.isHelper f = false) (hop : ∀ k : Kind, k.wrapperName ≠ f) :
    (l.helpers ++ l.wrappers bitWidth).findSome? (definitionOf f) = none := by
  rw [List.findSome?_eq_none_iff]
  intro t ht
  rcases List.mem_append.1 ht with ht | ht
  · exact definitionOf_helper (hl.helpers t ht) hf
  · obtain ⟨i, k, smtName, arity, relation, -, -, rfl⟩ := TaggedLibrary.mem_wrappers_iff.1 ht
    rw [TaggedLibrary.wrapper_eq, definitionOf_defineFun, if_neg (hop k)]

/-- The wrapper of each operator kind is found under its name. -/
theorem findSome?_definitions (hl : l.toLibrary.Sound bitWidth) {i : Nat} {k : Kind}
    {smtName : String} {arity : Nat} {relation : Bool} (hk : l.kinds[i]? = some k)
    (hform : k.form = .operator smtName arity relation) :
    (l.helpers ++ l.wrappers bitWidth).findSome? (definitionOf k.wrapperName)
      = some (TaggedLibrary.operandNames arity, .concat (l.wrapperTag bitWidth i arity)
          (TaggedLibrary.wrapperValue bitWidth smtName arity relation)) := by
  have hmem : l.wrapper bitWidth i k smtName arity relation ∈ l.helpers ++ l.wrappers bitWidth :=
    List.mem_append_right _ (TaggedLibrary.mem_wrappers_iff.2
      ⟨i, k, smtName, arity, relation, hk, hform, rfl⟩)
  refine findSome?_eq_some hmem ?_ ?_
  · rw [TaggedLibrary.wrapper_eq, definitionOf_defineFun, if_pos rfl]
  · intro t ht b hb
    rcases List.mem_append.1 ht with ht | ht
    · rw [definitionOf_helper (hl.helpers t ht) (isHelper_wrapperName k)] at hb
      cases hb
    · obtain ⟨j, k', smtName', arity', relation', hk', hform', rfl⟩ :=
        TaggedLibrary.mem_wrappers_iff.1 ht
      rw [TaggedLibrary.wrapper_eq, definitionOf_defineFun] at hb
      split_ifs at hb with hname
      obtain rfl := hl.eq_of_wrapperName_eq hk' hk hname
      obtain rfl : k' = k := Option.some.inj (hk'.symm.trans hk)
      rw [hform] at hform'
      cases hform'
      exact (Option.some.inj hb).symm

end Definitions

/-! ## Operands -/

theorem assign_map {names : List String} {x : String} (v : String → Value) (hx : x ∈ names) :
    assign names (names.map v) x = some (v x) := by
  unfold assign
  induction names with
  | nil => cases hx
  | cons y names ih =>
    rw [List.map_cons, List.zip_cons_cons, List.lookup_cons]
    by_cases hxy : x = y
    · rw [hxy, beq_self_eq_true]
    · rw [beq_false_of_ne hxy]
      exact ih ((List.mem_cons.1 hx).resolve_left hxy)

/-- Operands can be told by the names of their parameters. -/
theorem exists_map_eq {α : Type} [Inhabited α] : ∀ {names : List String} {as : List α},
    names.Nodup → names.length = as.length → ∃ g : String → α, names.map g = as
  | [], [], _, _ => ⟨default, rfl⟩
  | x :: names, a :: as, hnodup, hlen => by
    rw [List.nodup_cons] at hnodup
    obtain ⟨g, hg⟩ := exists_map_eq hnodup.2 (Nat.succ.inj hlen)
    refine ⟨fun y => if y = x then a else g y, ?_⟩
    rw [List.map_cons, if_pos rfl, ← hg]
    refine congrArg (a :: ·) (List.map_congr_left fun y hy => if_neg ?_)
    rintro rfl
    exact hnodup.1 hy

theorem nodup_operandNames (arity : Nat) : (TaggedLibrary.operandNames arity).Nodup := by
  refine List.Nodup.map_on ?_ List.nodup_range
  intro i _ j _ h
  have := congrArg String.toList h
  simp only [String.toList_append, List.append_cancel_left_eq, String.toList_inj] at this
  exact Text.toString_nat_inj this

theorem notMem_operandNames {arity : Nat} {s : String} (hs : s.toList.head? = some '#') :
    s ∉ TaggedLibrary.operandNames arity := by
  intro h
  obtain ⟨i, -, rfl⟩ := List.mem_map.1 h
  simp [String.toList_append] at hs

theorem head?_binary (v : Int) (width : Nat) : (Bits.binary v width).toList.head? = some '#' := by
  simp [Bits.binary]

theorem head?_zeros (width : Nat) : (Bits.zeros width).toList.head? = some '#' := by
  simp [Bits.zeros]

namespace Interpretation

variable {width : Nat} (I : Interpretation width)

theorem meaning_words (f : String) (vs : List (BitVec width)) :
    I.meaning f (vs.map fun v => .word ⟨width, v⟩)
      = some (if isRelation f then .truth (I.relation f vs)
          else .word ⟨width, I.function f vs⟩) := by
  unfold meaning
  split
  · rename_i h
    rcases vs with _ | ⟨v, vs⟩ <;> simp at h
  · rw [mapM_map fun v _ => Value.bits?_word v, List.map_id', Option.map_some]

end Interpretation

/-! ## Evaluation -/

section Evaluation

variable {l : TaggedLibrary} {bitWidth arity : Nat} {g : String → Nat × BitVec bitWidth}

def operands (l : TaggedLibrary) (arity : Nat) (g : String → Nat × BitVec bitWidth) : List Value :=
  (TaggedLibrary.operandNames arity).map fun x => .word (.tagged l.tagWidth (g x).1 (g x).2)

theorem value_operandParts {F : Meaning} {high low : Nat} {part : String → Word}
    (hpart : ∀ x, (Word.tagged l.tagWidth (g x).1 (g x).2).extract high low = some (part x)) :
    Candidate.values F (assign (TaggedLibrary.operandNames arity) (operands l arity g))
      ((TaggedLibrary.operandParts arity high low).map
        (Candidate.ofTerm (TaggedLibrary.operandNames arity)))
      = some ((TaggedLibrary.operandNames arity).map fun x => .word (part x)) := by
  rw [TaggedLibrary.operandParts, List.map_map]
  refine Candidate.values_map fun x hx => ?_
  have hinput : (Candidate.input x).value F
      (assign (TaggedLibrary.operandNames arity) (operands l arity g))
      = some (.word (.tagged l.tagWidth (g x).1 (g x).2)) := by
    rw [Candidate.value]
    exact assign_map _ hx
  rw [Function.comp_apply, Candidate.ofTerm_extract, Candidate.ofTerm_of_mem hx,
    Candidate.value_extract hinput, hpart, Option.map_some]

/-- The tag of an application is that of its own use and those of its operands. -/
theorem value_wrapperTag (htag : 1 ≤ l.tagBits) {i : Nat} (hi : i < l.kinds.length) :
    (Candidate.ofTerm (TaggedLibrary.operandNames arity) (l.wrapperTag bitWidth i arity)).value
        smtLib (assign (TaggedLibrary.operandNames arity) (operands l arity g))
      = some (.word ⟨l.tagWidth, BitVec.ofNat _ (Bits.modulus (i * l.tagBits)
          + Usage.total ((TaggedLibrary.operandNames arity).map fun x => (g x).1))⟩) := by
  have hpos := l.tagWidth_pos htag
  have hone : Word.ofLiteral? (l.oneHot i)
      = some ⟨l.tagWidth, BitVec.ofNat _ (Bits.modulus (i * l.tagBits))⟩ :=
    Word.ofLiteral?_binary hpos (l.modulus_slot_lt htag hi)
  have hnot : l.oneHot i ∉ TaggedLibrary.operandNames arity :=
    notMem_operandNames (head?_binary _ _)
  rw [TaggedLibrary.wrapperTag]
  split_ifs with h
  · subst h
    rw [Candidate.ofTerm_of_notMem hnot, Candidate.value, hone]
    rfl
  · rw [Candidate.ofTerm_app, List.map_cons, Candidate.ofTerm_of_notMem hnot, Candidate.value,
      Candidate.values, Candidate.value, hone, value_operandParts fun x => Word.extract_tag hpos _]
    have hsum := @Word.foldlM_add? l.tagWidth
      ((TaggedLibrary.operandNames arity).map fun x => (g x).1) (Bits.modulus (i * l.tagBits))
    rw [List.map_map] at hsum
    exact (smtLib_bvadd _ _ _).trans (congrArg (Option.map Value.word) hsum)

/-- The value of an application is what the kind makes of the values of its operands. -/
theorem value_wrapperValue (I : Interpretation bitWidth) (hwidth : 0 < bitWidth) {k : Kind}
    {smtName : String} {relation : Bool} (hform : k.form = .operator smtName arity relation)
    (hof : k.form.Of bitWidth k.key) :
    (Candidate.ofTerm (TaggedLibrary.operandNames arity)
        (TaggedLibrary.wrapperValue bitWidth smtName arity relation)).value
        I.meaning (assign (TaggedLibrary.operandNames arity) (operands l arity g))
      = some (.word ⟨bitWidth, I.apply k
          ((TaggedLibrary.operandNames arity).map fun x => (g x).2)⟩) := by
  rw [hform] at hof
  have hempty : TaggedLibrary.operandParts arity (bitWidth - 1) 0 = [] →
      smtName ∉ TaggedLibrary.operandNames arity := by
    intro h
    rw [List.map_eq_nil_iff.1 h]
    exact List.not_mem_nil
  have hcall : (Candidate.ofTerm (TaggedLibrary.operandNames arity)
      (.call smtName (TaggedLibrary.operandParts arity (bitWidth - 1) 0))).value I.meaning
        (assign (TaggedLibrary.operandNames arity) (operands l arity g))
      = some (if relation then .truth (I.relation smtName
            ((TaggedLibrary.operandNames arity).map fun x => (g x).2))
          else .word ⟨bitWidth, I.function smtName
            ((TaggedLibrary.operandNames arity).map fun x => (g x).2)⟩) := by
    rw [Candidate.ofTerm_call _ hempty, Candidate.value_call hof.head?_ne,
      value_operandParts fun x => Word.extract_value hwidth _, Option.bind_some,
      ← hof.isRelation_eq, ← I.meaning_words, List.map_map]
    rfl
  unfold TaggedLibrary.wrapperValue Interpretation.apply
  rw [hform]
  cases relation with
  | false => exact hcall
  | true =>
    have hone : Word.ofLiteral? (Bits.binary 1 bitWidth) = some ⟨bitWidth, 1⟩ :=
      Word.ofLiteral?_binary hwidth (Nat.one_lt_two_pow (Nat.ne_of_gt hwidth))
    simp only [if_true] at hcall ⊢
    rw [Candidate.ofTerm_app, List.map_cons, List.map_cons, List.map_singleton,
      Candidate.ofTerm_of_notMem (notMem_operandNames (head?_binary _ _)),
      Candidate.ofTerm_of_notMem (notMem_operandNames (head?_zeros _)), Candidate.value,
      Candidate.values, hcall, Candidate.values, Candidate.value, hone, Candidate.values,
      Candidate.value, Word.ofLiteral?_zeros hwidth]
    show some (if _ then Value.word ⟨bitWidth, 1⟩ else Value.word ⟨bitWidth, 0⟩) = _
    split_ifs <;> rfl

end Evaluation

end BitSynth.Sygus
