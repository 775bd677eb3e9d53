import BitSynth.Proofs.Library.Entries
import BitSynth.Proofs.Library.Tags
import BitSynth.Proofs.Usage.Relabelling

/-!
# Libraries in another order

The order of the entries decides what stands for a key that several entries have, and where a kind
has its slot, and nothing else. In any two orders the keys are the same, and so are their counts and
the free constant. If the first entry of each key brings the same with it in both, they come out with
the same kinds and helpers, or neither does.
-/

namespace BitSynth.Sygus

namespace Library

variable {e : Encoder} {es es' : List LibraryEntry} {l l' : Library} {tagBits : Nat}

/-- For each key, the first of its entries brings the same with it in both lists. -/
def SameFirsts (e : Encoder) (es es' : List LibraryEntry) : Prop :=
  ∀ key, first? e es key = first? e es' key

theorem SameFirsts.symm (h : SameFirsts e es es') : SameFirsts e es' es := fun key => (h key).symm

/-- Only the keys of the entries have to be looked at. -/
theorem sameFirsts_iff : SameFirsts e es es' ↔
    ∀ c ∈ contributions e es ++ contributions e es', first? e es c.key = first? e es' c.key := by
  refine ⟨fun h c _ => h c.key, fun h key => ?_⟩
  cases hc : first? e es key with
  | some c =>
    obtain rfl := key_of_first? hc
    rw [← hc, h c (List.mem_append_left _ (List.mem_of_find?_eq_some hc))]
  | none =>
    cases hd : first? e es' key with
    | none => rfl
    | some d =>
      obtain rfl := key_of_first? hd
      rw [← hc, h d (List.mem_append_right _ (List.mem_of_find?_eq_some hd)), hd]

instance : Decidable (SameFirsts e es es') := decidable_of_iff _ sameFirsts_iff.symm

theorem Admitted.perm (h : Admitted e es) (hperm : es.Perm es') (hfirst : SameFirsts e es es') :
    Admitted e es' where
  constants width literal hmem := h.constants width literal (hperm.mem_iff.2 hmem)
  widths v w hv hw := h.widths v w (hperm.mem_iff.2 hv) (hperm.mem_iff.2 hw)
  definitions key c hc := h.definitions key c ((hfirst key).trans hc)

theorem countOf_perm (h : es.Perm es') (key : String) : countOf e es key = countOf e es' key :=
  (h.filterMap _).countP_eq _

/-- The keys with their counts. -/
def counts (l : Library) : List (String × Nat) := l.kinds.map fun k => (k.key, k.count)

theorem Gathers.nodup_counts (h : Gathers e es l) : l.counts.Nodup := by
  refine List.Nodup.of_map Prod.fst ?_
  rw [counts, List.map_map]
  exact h.keys

theorem Gathers.mem_counts_iff (h : Gathers e es l) {key : String} {n : Nat} :
    (key, n) ∈ l.counts ↔ n = countOf e es key ∧ n ≠ 0 := by
  rw [counts, List.mem_map]
  constructor
  · rintro ⟨k, hk, heq⟩
    obtain ⟨rfl, rfl⟩ := Prod.mk.inj heq
    obtain ⟨c, hc, hkind⟩ := Option.map_eq_some_iff.1 (h.mem_kinds_iff.1 hk)
    have hcount : k.count = countOf e es k.key := congrArg Kind.count hkind.symm
    refine ⟨hcount, fun hzero => ?_⟩
    rw [countOf_eq_zero_iff.1 (hcount ▸ hzero)] at hc
    cases hc
  · rintro ⟨rfl, hn⟩
    obtain ⟨c, hc⟩ := Option.ne_none_iff_exists'.1 (mt countOf_eq_zero_iff.2 hn)
    exact ⟨⟨key, countOf e es key, c.form⟩, h.mem_kinds_iff.2 (by rw [hc]; rfl), rfl⟩

section Gathers

variable (h : Gathers e es l) (h' : Gathers e es' l') (hperm : es.Perm es')

include h h' hperm

theorem Gathers.counts_perm : l.counts.Perm l'.counts := by
  refine (List.perm_ext_iff_of_nodup h.nodup_counts h'.nodup_counts).2 fun ⟨key, n⟩ => ?_
  rw [h.mem_counts_iff, h'.mem_counts_iff, countOf_perm hperm]

theorem Gathers.freeWidth_eq : l.freeWidth = l'.freeWidth := by
  refine Option.ext fun width => ?_
  rw [h.freeWidth, h'.freeWidth, hperm.mem_iff]

theorem Gathers.kinds_perm (hfirst : SameFirsts e es es') : l.kinds.Perm l'.kinds := by
  refine (List.perm_ext_iff_of_nodup h.keys.of_map h'.keys.of_map).2 fun k => ?_
  rw [h.mem_kinds_iff, h'.mem_kinds_iff, hfirst, countOf_perm hperm]

omit hperm in
theorem Gathers.helpers_perm (hfirst : SameFirsts e es es') : l.helpers.Perm l'.helpers := by
  refine (List.perm_ext_iff_of_nodup h.nodup h'.nodup).2 fun t => ?_
  simp only [h.helpers, h'.helpers, hfirst _]

end Gathers

/-! ## The check of the counts -/

theorem getD_uses_relabel {ρ : Equiv.Perm Nat} (h : Relabels ρ l.kinds l'.kinds) (i : Nat) :
    l'.uses.getD (ρ i) 0 = l.uses.getD i 0 := by
  have hbudgets : Relabels ρ l.budgets l'.budgets := h.map Kind.budget
  rw [getD_uses_eq, getD_uses_eq, Usage.getD_most_relabel hbudgets (h.map Kind.arity),
    hbudgets.getD_eq]

/-- Kinds can be used just as often in any order. -/
theorem checkCounts_perm (h : l.kinds.Perm l'.kinds) (hl : l.checkCounts tagBits = .ok ()) :
    l'.checkCounts tagBits = .ok () := by
  obtain ⟨ρ, hρ⟩ := exists_relabels h
  rw [checkCounts_eq_ok_iff_getD] at hl ⊢
  intro i
  rw [← ρ.apply_symm_apply i, getD_uses_relabel hρ]
  exact hl _

end Library

namespace TaggedLibrary

open Library

variable {e : Encoder} {s : Settings} {es es' : List LibraryEntry}

theorem exists_ofEntries_perm (hperm : es.Perm es') (hfirst : SameFirsts e es es')
    (h : ∃ l, (ofEntries es e s).result = .ok l) : ∃ l, (ofEntries es' e s).result = .ok l := by
  obtain ⟨l, hl⟩ := h
  obtain ⟨hfold, hcheck, -⟩ := ofEntries_eq_ok_iff.1 hl
  obtain ⟨l', hfold'⟩ := ((admitted_of_foldlM hfold).perm hperm hfirst).exists_foldlM
  have hkinds := (gathers_of_foldlM hfold).kinds_perm (gathers_of_foldlM hfold') hperm hfirst
  exact ⟨⟨l', s.tagBits⟩, ofEntries_eq_ok_iff.2 ⟨hfold', checkCounts_perm hkinds hcheck, rfl⟩⟩

/-- A library comes out in one order if it does in another with the same first entries, and then
with the same kinds and helpers. Where it comes out in two orders, whatever their first entries are,
it has the same keys as often, the same free constant and a tag of the same width. -/
theorem ofEntries_perm (hperm : es.Perm es') :
    (SameFirsts e es es' →
      ((∃ l, (ofEntries es e s).result = .ok l) ↔ ∃ l, (ofEntries es' e s).result = .ok l))
      ∧ ∀ l l', (ofEntries es e s).result = .ok l → (ofEntries es' e s).result = .ok l' →
        l.counts.Perm l'.counts ∧ l.freeWidth = l'.freeWidth
          ∧ l.tagBits = l'.tagBits ∧ l.tagWidth = l'.tagWidth
          ∧ (SameFirsts e es es' → l.kinds.Perm l'.kinds ∧ l.helpers.Perm l'.helpers) := by
  refine ⟨fun hfirst =>
    ⟨exists_ofEntries_perm hperm hfirst, exists_ofEntries_perm hperm.symm hfirst.symm⟩, ?_⟩
  intro l l' hl hl'
  obtain ⟨hfold, -, htag⟩ := ofEntries_eq_ok_iff.1 hl
  obtain ⟨hfold', -, htag'⟩ := ofEntries_eq_ok_iff.1 hl'
  have hgathers := gathers_of_foldlM hfold
  have hgathers' := gathers_of_foldlM hfold'
  have hcounts := hgathers.counts_perm hgathers' hperm
  have htags : l.tagBits = l'.tagBits := htag.trans htag'.symm
  have hlength : l.kinds.length = l'.kinds.length := by
    simpa [counts] using hcounts.length_eq
  refine ⟨hcounts, hgathers.freeWidth_eq hgathers' hperm, htags, ?_, fun hfirst => ?_⟩
  · rw [tagWidth, tagWidth, htags, hlength]
  · exact ⟨hgathers.kinds_perm hgathers' hperm hfirst, hgathers.helpers_perm hgathers' hfirst⟩

/-- Two functions of one name, of which the first is defined, and an operator and a free constant. -/
def twices : List LibraryEntry := [
  .function ⟨"twice"⟩ [⟨"a"⟩] (.app ⟨"add"⟩ [.ident ⟨"a"⟩, .ident ⟨"a"⟩]), .operator ⟨"add"⟩,
  .function ⟨"twice"⟩ [⟨"b"⟩] (.app ⟨"mul"⟩ [.ident ⟨"b"⟩, .literal ⟨2, none⟩]), .constant 4 none]

/-- The operator and the constant may stand in front of the functions. -/
theorem ofEntries_perm_twices : ∃ l l' es',
    twices.Perm es' ∧ SameFirsts ⟨4, .strict⟩ twices es'
      ∧ (ofEntries twices ⟨4, .strict⟩ {}).result = .ok l
      ∧ (ofEntries es' ⟨4, .strict⟩ {}).result = .ok l' ∧ l ≠ l'
      ∧ l.counts.Perm l'.counts ∧ l.freeWidth = l'.freeWidth
      ∧ l.tagBits = l'.tagBits ∧ l.tagWidth = l'.tagWidth
      ∧ l.kinds.Perm l'.kinds ∧ l.helpers.Perm l'.helpers := by
  let es' : List LibraryEntry := [
    .constant 4 none, .operator ⟨"add"⟩,
    .function ⟨"twice"⟩ [⟨"a"⟩] (.app ⟨"add"⟩ [.ident ⟨"a"⟩, .ident ⟨"a"⟩]),
    .function ⟨"twice"⟩ [⟨"b"⟩] (.app ⟨"mul"⟩ [.ident ⟨"b"⟩, .literal ⟨2, none⟩])]
  have hperm : twices.Perm es' := by decide
  have hfirst : SameFirsts ⟨4, .strict⟩ twices es' := by decide
  obtain ⟨l, l', hl, hl', hne⟩ : ∃ l l', (ofEntries twices ⟨4, .strict⟩ {}).result = .ok l
      ∧ (ofEntries es' ⟨4, .strict⟩ {}).result = .ok l' ∧ l ≠ l' := ⟨_, _, rfl, rfl, by decide⟩
  obtain ⟨hcounts, hfree, htags, hwidth, hsame⟩ := (ofEntries_perm hperm).2 l l' hl hl'
  exact ⟨l, l', es', hperm, hfirst, hl, hl', hne, hcounts, hfree, htags, hwidth, hsame hfirst⟩

/-- Without the condition the order does matter: of two functions of one name, the one that comes
first is defined. -/
theorem not_forall_ofEntries_perm : ¬ ∀ (bitWidth : Nat) (s : Settings) (es es' : List LibraryEntry),
    es.Perm es' →
      ((∃ l, (ofEntries es ⟨bitWidth, s.policy⟩ s).result = .ok l)
        ↔ ∃ l, (ofEntries es' ⟨bitWidth, s.policy⟩ s).result = .ok l)
      ∧ ∀ l l', (ofEntries es ⟨bitWidth, s.policy⟩ s).result = .ok l →
        (ofEntries es' ⟨bitWidth, s.policy⟩ s).result = .ok l' →
          (∀ k, k ∈ l.kinds ↔ k ∈ l'.kinds) ∧ l.freeWidth = l'.freeWidth
            ∧ ∀ t, t ∈ l.helpers ↔ t ∈ l'.helpers := by
  intro h
  have hperm : twices.Perm twices.reverse := twices.reverse_perm.symm
  obtain ⟨-, -, hhelpers⟩ := (h 4 {} twices twices.reverse hperm).2 _ _ rfl rfl
  let t : Term := .defineFun "cust_twice" ["a"] (.bitVec 4) (.bitVec 4)
    (.app "bvadd" [.atom "a", .atom "a"])
  exact absurd ((hhelpers t).1 (by decide)) (by decide)

end TaggedLibrary

end BitSynth.Sygus
