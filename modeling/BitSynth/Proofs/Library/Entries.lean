import BitSynth.Proofs.Library.Kinds
import Mathlib.Data.List.Induction

/-!
# Libraries and their entries

The entries are taken into a library one by one, but what comes of them can be told from the list as
a whole: each key has the number of its entries for a count, and what stands for the key comes from
the first of them (`Gathers`). The entries make a library exactly if the constants and the first
function of each name can be written and all free constants have one width (`Admitted`).
-/

namespace BitSynth.Sygus

/-- What an entry brings with it: a key, and for the case that no entry before it has the key, the
form of the kind and the definition of a helper, which is missing where the body of the function
cannot be encoded. -/
structure Contribution where
  key : String
  form : KindForm
  definition : Option (Option Term) := none
deriving DecidableEq

namespace Library

variable (e : Encoder)

/-- The contribution of an entry. Free constants are not counted, and a constant that cannot be
written has no key. -/
def contribution? : LibraryEntry → Option Contribution
  | .operator name => some {
      key := name.name
      form := .operator (Operator.smtName name.name .value) (Operator.arity name.name)
        (Relation.ofName? name.name).isSome }
  | .constant _ none => none
  | .constant width (some literal) =>
    (e.encodeConstant literal.value width).result.toOption.map fun key => ⟨key, .constant key, none⟩
  | .function name params body =>
    let key := Operator.helperName name.name
    let sort := Term.bitVec e.bitWidth
    some {
      key := key
      form := .operator key params.length false
      definition := some ((e.encode body).result.toOption.map fun t =>
        .defineFun key (params.map Ident.name) sort sort t) }

def contributions (es : List LibraryEntry) : List Contribution := es.filterMap (contribution? e)

/-- What the first entry with the key brings with it. -/
def first? (es : List LibraryEntry) (key : String) : Option Contribution :=
  (contributions e es).find? (·.key = key)

/-- The number of the entries with the key. -/
def countOf (es : List LibraryEntry) (key : String) : Nat :=
  (contributions e es).countP (·.key = key)

variable {e} {a : LibraryEntry} {es : List LibraryEntry} {c : Contribution} {key : String}
  {l l' : Library}

theorem key_of_first? (h : first? e es key = some c) : c.key = key := by
  simpa using List.find?_some h

theorem exists_mem_of_first? (h : first? e es key = some c) :
    ∃ a ∈ es, contribution? e a = some c := by
  obtain ⟨a, ha, hc⟩ := List.mem_filterMap.1 (List.mem_of_find?_eq_some h)
  exact ⟨a, ha, hc⟩

theorem exists_first?_of_mem (ha : a ∈ es) (hc : contribution? e a = some c) :
    ∃ c', first? e es c.key = some c' := by
  rw [← Option.isSome_iff_exists, first?, List.find?_isSome]
  exact ⟨c, List.mem_filterMap.2 ⟨a, ha, hc⟩, decide_eq_true rfl⟩

theorem contribution?_eq_none (h : contribution? e a = none) :
    (∃ width, a = .constant width none) ∨ ∃ width literal, a = .constant width (some literal)
      ∧ ∀ key, (e.encodeConstant literal.value width).result ≠ .ok key := by
  cases a with
  | operator name => cases h
  | constant width value =>
    cases value with
    | none => exact .inl ⟨width, rfl⟩
    | some literal =>
      rw [contribution?, Option.map_eq_none_iff] at h
      refine .inr ⟨width, literal, rfl, fun key hkey => ?_⟩
      rw [toOption_eq_some_iff.2 hkey] at h
      cases h
  | function name params body => cases h

theorem contributions_concat (es : List LibraryEntry) (a : LibraryEntry) :
    contributions e (es ++ [a]) = contributions e es ++ (contribution? e a).toList := by
  rw [contributions, List.filterMap_append, contributions]
  cases h : contribution? e a with
  | none => simp [h]
  | some c => simp [h]

theorem first?_concat (h : contribution? e a = some c) (es : List LibraryEntry) (key : String) :
    first? e (es ++ [a]) key = (first? e es key).or (if c.key = key then some c else none) := by
  rw [first?, contributions_concat, h, List.find?_append, first?]
  simp [List.find?_singleton]

/-- An entry behind another one with its key is not the first of any key. -/
theorem first?_concat_of_isSome (h : contribution? e a = some c)
    (hc : (first? e es c.key).isSome = true) (key : String) :
    first? e (es ++ [a]) key = first? e es key := by
  rw [first?_concat h]
  by_cases hkey : c.key = key
  · subst hkey
    rw [Option.or_of_isSome hc]
  · rw [if_neg hkey, Option.or_none]

theorem first?_concat_of_none (h : contribution? e a = some c) (hc : first? e es c.key = none)
    (key : String) :
    first? e (es ++ [a]) key = if c.key = key then some c else first? e es key := by
  rw [first?_concat h]
  by_cases hkey : c.key = key
  · subst hkey
    rw [hc, if_pos rfl, Option.none_or]
  · rw [if_neg hkey, if_neg hkey, Option.or_none]

theorem countOf_eq_zero_iff : countOf e es key = 0 ↔ first? e es key = none :=
  List.countP_eq_zero.trans List.find?_eq_none.symm

theorem countOf_concat (h : contribution? e a = some c) (es : List LibraryEntry) (key : String) :
    countOf e (es ++ [a]) key = countOf e es key + if c.key = key then 1 else 0 := by
  rw [countOf, contributions_concat, h, List.countP_append, countOf]
  simp [List.countP_singleton]

theorem contributions_concat_of_none (h : contribution? e a = none) (es : List LibraryEntry) :
    contributions e (es ++ [a]) = contributions e es := by
  rw [contributions_concat, h, Option.toList_none, List.append_nil]

/-! ## One entry -/

/-- An entry with a contribution is counted. If it is the first with its key, the helper it brings
is defined, and it is refused where that is missing. -/
theorem add_eq_ok_iff (h : contribution? e a = some c) : (add e l a).result = .ok l' ↔
    (c.key ∉ l.kinds.map Kind.key → c.definition ≠ some none) ∧
      l' = { l with
        kinds := Kind.tally c.key c.form l.kinds
        helpers := if c.key ∈ l.kinds.map Kind.key then l.helpers
          else l.helpers ++ c.definition.join.toList } := by
  cases a with
  | operator name =>
    obtain rfl := Option.some.inj h
    simp [add, eq_comm]
  | constant width value =>
    cases value with
    | none => cases h
    | some literal =>
      rw [contribution?, Option.map_eq_some_iff] at h
      obtain ⟨key, hkey, rfl⟩ := h
      rw [toOption_eq_some_iff] at hkey
      simp only [add, Logged.result_bind_eq_ok_iff, hkey]
      simp [eq_comm]
  | function name params body =>
    obtain rfl := Option.some.inj h
    by_cases hkey : Operator.helperName name.name ∈ l.kinds.map Kind.key
    · simp only [add, any_key_iff.2 hkey, if_true, if_pos hkey]
      simp only [Logged.result_bind_eq_ok_iff]
      simp [hkey, eq_comm]
    · simp only [add, Bool.eq_false_iff.2 (mt any_key_iff.1 hkey), if_neg hkey]
      cases hbody : (e.encode body).result with
      | error err => simp [Logged.result_bind_eq_ok_iff, hbody, hkey, Except.toOption]
      | ok t =>
        simp [Logged.result_bind, hbody, hkey, Except.toOption, eq_comm]
        exact ⟨Except.ok.inj, congrArg Except.ok⟩

theorem add_free_eq_ok_iff {width : Nat} : (add e l (.constant width none)).result = .ok l' ↔
    (∀ w, l.freeWidth = some w → w = width) ∧ l' = { l with freeWidth := some width } := by
  simp only [add]
  cases hfree : l.freeWidth with
  | none => simp [eq_comm]
  | some first =>
    by_cases hw : first = width
    · subst hw
      have hl : l = { l with freeWidth := some first } := by rw [← hfree]
      simp [← hl, eq_comm]
    · simp [hw]
      rintro ⟨⟩

/-! ## All entries -/

/-- The entries can be taken into a library: all constants and the first function of each name can
be written, and the free constants have one width. -/
structure Admitted (e : Encoder) (es : List LibraryEntry) : Prop where
  constants : ∀ width literal, .constant width (some literal) ∈ es →
    ∃ key, (e.encodeConstant literal.value width).result = .ok key
  widths : ∀ v w, .constant v none ∈ es → .constant w none ∈ es → v = w
  definitions : ∀ key c, first? e es key = some c → c.definition ≠ some none

/-- The library is what comes of the entries. -/
structure Gathers (e : Encoder) (es : List LibraryEntry) (l : Library) : Prop where
  keys : (l.kinds.map Kind.key).Nodup
  kinds : ∀ key, l.kinds.find? (·.key = key)
    = (first? e es key).map fun c => ⟨key, countOf e es key, c.form⟩
  freeWidth : ∀ width, l.freeWidth = some width ↔ .constant width none ∈ es
  helpers : ∀ t, t ∈ l.helpers ↔ ∃ key c, first? e es key = some c ∧ c.definition = some (some t)
  nodup : l.helpers.Nodup

theorem gathers_nil : Gathers e [] {} where
  keys := List.nodup_nil
  kinds _ := rfl
  freeWidth := by simp
  helpers := by simp [first?, contributions]
  nodup := List.nodup_nil

theorem Gathers.mem_keys_iff (h : Gathers e es l) :
    key ∈ l.kinds.map Kind.key ↔ (first? e es key).isSome = true := by
  have hfind := congrArg Option.isSome (h.kinds key)
  rw [Option.isSome_map] at hfind
  rw [← hfind, List.find?_isSome, List.mem_map]
  simp only [decide_eq_true_eq]

theorem Gathers.mem_kinds_iff (h : Gathers e es l) {k : Kind} : k ∈ l.kinds ↔
    (first? e es k.key).map (fun c => ⟨k.key, countOf e es k.key, c.form⟩) = some k := by
  rw [← h.kinds]
  exact ⟨Kind.find?_of_mem h.keys, List.mem_of_find?_eq_some⟩

/-- A helper is defined under the key of its contribution. -/
theorem definition_eq (h : first? e es key = some c) {t : Term} (ht : c.definition = some (some t)) :
    ∃ names sort body, t = .defineFun key names sort sort body := by
  obtain ⟨a, -, ha⟩ := exists_mem_of_first? h
  obtain rfl := key_of_first? h
  cases a with
  | operator name =>
    obtain rfl := Option.some.inj ha
    cases ht
  | constant width value =>
    cases value with
    | none => cases ha
    | some literal =>
      rw [contribution?, Option.map_eq_some_iff] at ha
      obtain ⟨key, -, rfl⟩ := ha
      cases ht
  | function name params body =>
    obtain rfl := Option.some.inj ha
    obtain ⟨t', -, rfl⟩ := Option.map_eq_some_iff.1 (Option.some.inj ht)
    exact ⟨_, _, _, rfl⟩

theorem key_of_definition {key' : String} {c' : Contribution} {t : Term}
    (h : first? e es key = some c) (ht : c.definition = some (some t))
    (h' : first? e es key' = some c') (ht' : c'.definition = some (some t)) : key = key' := by
  obtain ⟨names, sort, body, rfl⟩ := definition_eq h ht
  obtain ⟨names', sort', body', heq⟩ := definition_eq h' ht'
  simp only [Term.defineFun, Term.app, Term.list.injEq, List.cons.injEq, Term.atom.injEq] at heq
  exact heq.2.1

section Step

variable (hl : Gathers e es l)

include hl

theorem Gathers.kinds_tally (h : contribution? e a = some c) (key : String) :
    (Kind.tally c.key c.form l.kinds).find? (·.key = key)
      = (first? e (es ++ [a]) key).map fun c => ⟨key, countOf e (es ++ [a]) key, c.form⟩ := by
  rw [Kind.find?_tally, hl.kinds, hl.kinds, first?_concat h, countOf_concat h]
  by_cases hkey : c.key = key
  · subst hkey
    cases hfirst : first? e es c.key with
    | none => simp [countOf_eq_zero_iff.2 hfirst]
    | some c' => simp
  · simp [hkey]

theorem Gathers.mem_helpers_iff (h : contribution? e a = some c) (t : Term) :
    (t ∈ if c.key ∈ l.kinds.map Kind.key then l.helpers
        else l.helpers ++ c.definition.join.toList)
      ↔ ∃ key c', first? e (es ++ [a]) key = some c' ∧ c'.definition = some (some t) := by
  by_cases hkey : c.key ∈ l.kinds.map Kind.key
  · rw [if_pos hkey, hl.helpers]
    simp only [first?_concat_of_isSome h (hl.mem_keys_iff.1 hkey)]
  · have hnone : first? e es c.key = none := by
      rwa [hl.mem_keys_iff, Option.not_isSome_iff_eq_none] at hkey
    rw [if_neg hkey, List.mem_append, hl.helpers, Option.mem_toList, Option.join_eq_some_iff]
    simp only [first?_concat_of_none h hnone]
    constructor
    · rintro (⟨key, c', hfirst, ht⟩ | ht)
      · refine ⟨key, c', ?_, ht⟩
        have hne : c.key ≠ key := by
          rintro rfl
          rw [hnone] at hfirst
          cases hfirst
        rwa [if_neg hne]
      · exact ⟨c.key, c, if_pos rfl, ht⟩
    · rintro ⟨key, c', hfirst, ht⟩
      split_ifs at hfirst
      · obtain rfl := Option.some.inj hfirst
        exact .inr ht
      · exact .inl ⟨key, c', hfirst, ht⟩

theorem Gathers.nodup_helpers (h : contribution? e a = some c) :
    (if c.key ∈ l.kinds.map Kind.key then l.helpers
      else l.helpers ++ c.definition.join.toList).Nodup := by
  by_cases hkey : c.key ∈ l.kinds.map Kind.key
  · rw [if_pos hkey]
    exact hl.nodup
  · have hnone : first? e es c.key = none := by
      rwa [hl.mem_keys_iff, Option.not_isSome_iff_eq_none] at hkey
    have hfirst := first?_concat_of_none h hnone
    rw [if_neg hkey]
    have hone : c.definition.join.toList.Nodup := by cases c.definition.join <;> simp
    refine List.nodup_append.2 ⟨hl.nodup, hone, fun t ht t' ht' => ?_⟩
    rw [Option.mem_toList, Option.join_eq_some_iff] at ht'
    obtain ⟨key, c', hc', hdefinition⟩ := (hl.helpers t).1 ht
    rintro rfl
    have hne : c.key ≠ key := by
      rintro rfl
      rw [hnone] at hc'
      cases hc'
    have hfirst' : first? e (es ++ [a]) key = some c' := by rw [hfirst, if_neg hne, hc']
    exact hne (key_of_definition ((hfirst c.key).trans (if_pos rfl)) ht' hfirst' hdefinition)

theorem Gathers.add (h : (add e l a).result = .ok l') : Gathers e (es ++ [a]) l' := by
  cases hc : contribution? e a with
  | some c =>
    obtain ⟨-, rfl⟩ := (add_eq_ok_iff hc).1 h
    refine ⟨Kind.nodup_key_tally hl.keys, hl.kinds_tally hc, fun width => ?_,
      hl.mem_helpers_iff hc, hl.nodup_helpers hc⟩
    have ha : .constant width none ≠ a := by
      rintro rfl
      cases hc
    simp [hl.freeWidth, ha]
  | none =>
    have hfirst (key : String) : first? e (es ++ [a]) key = first? e es key := by
      rw [first?, contributions_concat_of_none hc, first?]
    have hcount (key : String) : countOf e (es ++ [a]) key = countOf e es key := by
      rw [countOf, contributions_concat_of_none hc, countOf]
    obtain ⟨width, rfl⟩ | ⟨width, literal, rfl, hkey⟩ := contribution?_eq_none hc
    · obtain ⟨hwidth, rfl⟩ := add_free_eq_ok_iff.1 h
      refine ⟨hl.keys, fun key => ?_, fun w => ?_, fun t => ?_, hl.nodup⟩
      · rw [hfirst, hcount, hl.kinds]
      · rw [List.mem_append, List.mem_singleton, ← hl.freeWidth, LibraryEntry.constant.injEq]
        show some width = some w ↔ _
        rw [Option.some.injEq, eq_comm (a := width)]
        exact ⟨fun hw => .inr ⟨hw, rfl⟩, fun hw => hw.elim (hwidth w) And.left⟩
      · simp only [hfirst, hl.helpers]
    · simp only [Library.add, Logged.result_bind_eq_ok_iff] at h
      obtain ⟨key, hok, -⟩ := h
      exact absurd hok (hkey key)

end Step

theorem foldlM_concat_eq_ok_iff : ((es ++ [a]).foldlM (add e) {}).result = .ok l' ↔
    ∃ l, (es.foldlM (add e) {}).result = .ok l ∧ (add e l a).result = .ok l' := by
  simp only [Logged.result_foldlM, List.foldlM_append, bind_eq_ok_iff, List.foldlM_cons,
    List.foldlM_nil]
  constructor
  · rintro ⟨l, hl, _, h, ⟨⟩⟩
    exact ⟨l, hl, h⟩
  · rintro ⟨l, hl, h⟩
    exact ⟨l, hl, l', h, rfl⟩

theorem gathers_of_foldlM (h : (es.foldlM (add e) {}).result = .ok l) : Gathers e es l := by
  induction es using List.reverseRecOn generalizing l with
  | nil =>
    obtain rfl := Except.ok.inj h
    exact gathers_nil
  | append_singleton es a ih =>
    obtain ⟨l', hl', h⟩ := foldlM_concat_eq_ok_iff.1 h
    exact (ih hl').add h

theorem admitted_nil : Admitted e [] where
  constants := by simp
  widths := by simp
  definitions := by simp [first?, contributions]

theorem Admitted.of_add (hes : Admitted e es) (hl : Gathers e es l)
    (h : (Library.add e l a).result = .ok l') : Admitted e (es ++ [a]) := by
  have hl' := hl.add h
  refine ⟨fun width literal hmem => ?_, fun v w hv hw => ?_, fun key c' hfirst => ?_⟩
  · rcases List.mem_append.1 hmem with hmem | hmem
    · exact hes.constants width literal hmem
    · obtain rfl := List.mem_singleton.1 hmem
      simp only [Library.add, Logged.result_bind_eq_ok_iff] at h
      obtain ⟨key, hkey, -⟩ := h
      exact ⟨key, hkey⟩
  · rw [← hl'.freeWidth] at hv hw
    exact Option.some.inj (hv.symm.trans hw)
  · cases hc : contribution? e a with
    | none =>
      rw [first?, contributions_concat_of_none hc, ← first?] at hfirst
      exact hes.definitions key c' hfirst
    | some c =>
      have hdefined := ((add_eq_ok_iff hc).1 h).1
      rw [hl.mem_keys_iff, Option.not_isSome_iff_eq_none] at hdefined
      cases hfresh : first? e es c.key with
      | some c₀ =>
        rw [first?_concat_of_isSome hc (by rw [hfresh]; rfl)] at hfirst
        exact hes.definitions key c' hfirst
      | none =>
        rw [first?_concat_of_none hc hfresh] at hfirst
        split_ifs at hfirst
        · obtain rfl := Option.some.inj hfirst
          exact hdefined hfresh
        · exact hes.definitions key c' hfirst

theorem admitted_of_foldlM (h : (es.foldlM (add e) {}).result = .ok l) : Admitted e es := by
  induction es using List.reverseRecOn generalizing l with
  | nil => exact admitted_nil
  | append_singleton es a ih =>
    obtain ⟨l', hl', h⟩ := foldlM_concat_eq_ok_iff.1 h
    exact (ih hl').of_add (gathers_of_foldlM hl') h

theorem Admitted.of_concat (h : Admitted e (es ++ [a])) : Admitted e es where
  constants width literal hmem := h.constants width literal (List.mem_append_left _ hmem)
  widths v w hv hw := h.widths v w (List.mem_append_left _ hv) (List.mem_append_left _ hw)
  definitions key c hc := by
    refine h.definitions key c ?_
    rw [first?, contributions_concat, List.find?_append, ← first?, hc, Option.some_or]

/-- Entries that are admitted are taken in one after the other. -/
theorem Admitted.exists_foldlM (h : Admitted e es) :
    ∃ l, (es.foldlM (add e) {}).result = .ok l := by
  induction es using List.reverseRecOn with
  | nil => exact ⟨_, rfl⟩
  | append_singleton es a ih =>
    obtain ⟨l, hl⟩ := ih h.of_concat
    have hgathers := gathers_of_foldlM hl
    suffices ∃ l', (add e l a).result = .ok l' by
      obtain ⟨l', hl'⟩ := this
      exact ⟨l', foldlM_concat_eq_ok_iff.2 ⟨l, hl, hl'⟩⟩
    cases hc : contribution? e a with
    | some c =>
      refine ⟨_, (add_eq_ok_iff hc).2 ⟨fun hkey => h.definitions c.key c ?_, rfl⟩⟩
      rw [hgathers.mem_keys_iff, Option.not_isSome_iff_eq_none] at hkey
      rw [first?_concat_of_none hc hkey, if_pos rfl]
    | none =>
      obtain ⟨width, rfl⟩ | ⟨width, literal, rfl, hkey⟩ := contribution?_eq_none hc
      · refine ⟨_, add_free_eq_ok_iff.2 ⟨fun w hw => ?_, rfl⟩⟩
        refine h.widths w width ?_ ?_
        · exact List.mem_append_left _ ((hgathers.freeWidth w).1 hw)
        · exact List.mem_append_right _ (List.mem_singleton_self _)
      · obtain ⟨key, hok⟩ := h.constants width literal
          (List.mem_append_right _ (List.mem_singleton_self _))
        exact absurd hok (hkey key)

end Library

end BitSynth.Sygus
