import BitSynth.Sygus.Usage
import Mathlib.Data.List.GetD
import Mathlib.Data.List.Nodup
import Mathlib.Tactic.Common

/-!
# The usages within the budgets

The search from no use at all finds each usage within the budgets (`mem_reachable_iff`) and finds
it once (`nodup_reachable`). It goes by levels: those of the level `d` make `d` uses in all
(`mem_level_iff`), so no usage comes after one that makes more uses (`pairwise_total_reachable`).
-/

namespace BitSynth.Sygus

namespace Usage

variable {budgets : List Nat} {u : Usage}

/-- No kind is used more often than its budget. -/
def Within (budgets : List Nat) (u : Usage) : Prop :=
  u.length = budgets.length ∧ ∀ k, u.getD k 0 ≤ budgets.getD k 0

/-! ## One more use -/

@[simp] theorem length_spend (u : Usage) (k : Nat) : (u.spend k).length = u.length :=
  List.length_modify ..

theorem getD_spend (u : Usage) (k i : Nat) :
    (u.spend k).getD i 0 = u.getD i 0 + if i = k ∧ k < u.length then 1 else 0 := by
  simp only [spend, List.getD_eq_getElem?_getD, List.getElem?_modify]
  by_cases hi : i < u.length
  · by_cases hk : i = k
    · subst hk
      simp [hi]
    · simp [hi, hk, Ne.symm hk]
  · have hk : ¬ (i = k ∧ k < u.length) := by omega
    simp [hk, List.getElem?_eq_none (Nat.not_lt.1 hi)]

@[simp] theorem total_cons (n : Nat) (u : Usage) : total (n :: u) = n + total u := rfl

theorem total_spend : ∀ (u : Usage) {k : Nat}, k < u.length → (u.spend k).total = u.total + 1
  | n :: u, 0, _ => by simp only [spend, List.modify_zero_cons, total_cons]; omega
  | n :: u, k + 1, h => by
    have ih := total_spend u (k := k) (by simpa using h)
    simp only [spend, List.modify_succ_cons, total_cons] at ih ⊢
    omega

theorem total_zero (n : Nat) : (zero n).total = 0 := by
  induction n with
  | zero => rfl
  | succ n ih => simpa [zero, List.replicate_succ] using ih

@[simp] theorem length_zero (n : Nat) : (zero n).length = n := List.length_replicate

theorem getD_zero (n k : Nat) : (zero n).getD k 0 = 0 := by
  simp only [zero, List.getD_eq_getElem?_getD, List.getElem?_replicate]
  split_ifs <;> rfl

theorem eq_zero_of_total : ∀ {u : Usage}, total u = 0 → u = zero u.length
  | [], _ => rfl
  | n :: u, h => by
    rw [total_cons] at h
    have ih := eq_zero_of_total (u := u) (by omega)
    rw [List.length_cons, zero, List.replicate_succ, ← zero, ← ih, show n = 0 by omega]

theorem lt_length_of_affords {k : Nat} (h : u.Affords budgets k) : k < budgets.length := by
  by_contra hk
  simp [Affords, List.getElem?_eq_none (Nat.not_lt.1 hk)] at h

theorem mem_affordable_iff {k : Nat} : k ∈ u.affordable budgets ↔ u.Affords budgets k := by
  simp only [affordable, List.mem_filter, List.mem_range, decide_eq_true_eq, and_iff_right_iff_imp]
  exact lt_length_of_affords

theorem mem_successors_iff {v : Usage} :
    v ∈ u.successors budgets ↔ ∃ k, u.Affords budgets k ∧ u.spend k = v := by
  simp [successors, mem_affordable_iff]

theorem within_zero (budgets : List Nat) : (zero budgets.length).Within budgets :=
  ⟨length_zero _, fun k => by rw [getD_zero]; exact Nat.zero_le _⟩

theorem Within.spend {k : Nat} (h : u.Within budgets) (hk : u.Affords budgets k) :
    (u.spend k).Within budgets := by
  refine ⟨by rw [length_spend, h.1], fun i => ?_⟩
  have hi := h.2 i
  rw [getD_spend]
  split_ifs with hik
  · rw [hik.1]
    exact hk
  · omega

/-- A usage that is not empty is one more use than another one. -/
theorem exists_spend : ∀ {u : Usage}, total u ≠ 0 →
    ∃ (v : Usage) (k : Nat), k < v.length ∧ u = spend v k
  | [], h => absurd rfl h
  | (n + 1) :: u, _ => ⟨n :: u, 0, by simp, rfl⟩
  | 0 :: u, h => by
    obtain ⟨v, k, hk, rfl⟩ := exists_spend (u := u) (by simpa using h)
    exact ⟨0 :: v, k + 1, by simpa using hk, rfl⟩

theorem Within.of_spend {k : Nat} (hk : k < u.length) (h : (u.spend k).Within budgets) :
    u.Within budgets ∧ u.Affords budgets k := by
  have hget := h.2
  simp only [getD_spend] at hget
  refine ⟨⟨by rw [← h.1, length_spend], fun i => by have := hget i; omega⟩, ?_⟩
  have := hget k
  rw [if_pos ⟨rfl, hk⟩] at this
  exact this

theorem Within.total_le : ∀ {budgets : List Nat} {u : Usage}, u.Within budgets →
    total u ≤ total budgets
  | [], [], _ => Nat.le_refl _
  | b :: budgets, n :: u, h => by
    have h₀ : n ≤ b := h.2 0
    have ih : total u ≤ total budgets :=
      Within.total_le ⟨by simpa using h.1, fun k => by simpa using h.2 (k + 1)⟩
    simp only [total_cons]
    omega
  | [], _ :: _, h => absurd h.1 (by simp)
  | _ :: _, [], h => absurd h.1 (by simp)

/-! ## The levels -/

theorem mem_distinct_go {u : Usage} : ∀ {us : List Usage} {seen : Std.TreeSet Usage},
    u ∈ distinct.go seen us ↔ u ∈ us ∧ u ∉ seen
  | [], seen => by simp [distinct.go]
  | v :: us, seen => by
    have ih {s : Std.TreeSet Usage} : u ∈ distinct.go s us ↔ u ∈ us ∧ u ∉ s := mem_distinct_go
    unfold distinct.go
    split
    · rename_i hv
      rw [Std.TreeSet.contains_iff_mem] at hv
      rw [ih, List.mem_cons]
      constructor
      · exact fun h => ⟨.inr h.1, h.2⟩
      · rintro ⟨rfl | h, hu⟩
        · exact absurd hv hu
        · exact ⟨h, hu⟩
    · rename_i hv
      rw [Std.TreeSet.contains_iff_mem] at hv
      rw [List.mem_cons, ih, List.mem_cons, Std.TreeSet.mem_insert,
        Std.LawfulEqCmp.compare_eq_iff_eq]
      constructor
      · rintro (rfl | ⟨h, hn⟩)
        · exact ⟨.inl rfl, hv⟩
        · exact ⟨.inr h, fun hu => hn (.inr hu)⟩
      · rintro ⟨rfl | h, hu⟩
        · exact .inl rfl
        · by_cases hvu : v = u
          · exact .inl hvu.symm
          · exact .inr ⟨h, fun hn => hn.elim hvu hu⟩

theorem mem_distinct_iff {us : List Usage} : u ∈ distinct us ↔ u ∈ us := by
  simp [distinct, mem_distinct_go]

theorem nodup_distinct_go : ∀ {us : List Usage} {seen : Std.TreeSet Usage},
    (distinct.go seen us).Nodup
  | [], seen => List.nodup_nil
  | v :: us, seen => by
    unfold distinct.go
    split
    · exact nodup_distinct_go
    · refine List.nodup_cons.2 ⟨fun h => (mem_distinct_go.1 h).2 ?_, nodup_distinct_go⟩
      exact Std.TreeSet.mem_insert_self

/-- The usages that the search finds in its round `d`. -/
def level (budgets : List Nat) : (d : Nat) → List Usage
  | 0 => [zero budgets.length]
  | d + 1 => nextLevel budgets (level budgets d)

theorem mem_nextLevel_iff {us : List Usage} {v : Usage} :
    v ∈ nextLevel budgets us ↔ ∃ u ∈ us, ∃ k, u.Affords budgets k ∧ u.spend k = v := by
  simp [nextLevel, mem_distinct_iff, mem_successors_iff]

/-- The usages of a level are those within the budgets that make so many uses in all. -/
theorem mem_level_iff {d : Nat} : u ∈ level budgets d ↔ u.Within budgets ∧ u.total = d := by
  induction d generalizing u with
  | zero =>
    rw [level, List.mem_singleton]
    constructor
    · rintro rfl
      exact ⟨within_zero budgets, total_zero _⟩
    · rintro ⟨h, h₀⟩
      exact h.1 ▸ eq_zero_of_total h₀
  | succ d ih =>
    simp only [level, mem_nextLevel_iff, ih]
    constructor
    · rintro ⟨v, ⟨hv, rfl⟩, k, hk, rfl⟩
      exact ⟨hv.spend hk, total_spend v (hv.1 ▸ lt_length_of_affords hk)⟩
    · rintro ⟨hu, htot⟩
      obtain ⟨v, k, hk, rfl⟩ := exists_spend (u := u) (by omega)
      rw [total_spend v hk, Nat.add_right_cancel_iff] at htot
      obtain ⟨hv, hafford⟩ := Within.of_spend hk hu
      exact ⟨v, ⟨hv, htot⟩, k, hafford, rfl⟩

theorem nodup_level : ∀ (d : Nat), (level budgets d).Nodup
  | 0 => List.nodup_singleton _
  | _ + 1 => nodup_distinct_go

theorem levels_eq_map (budgets : List Nat) : ∀ (depth d : Nat),
    levels budgets depth (level budgets d)
      = (List.range (depth + 1)).map fun i => level budgets (d + i)
  | 0, d => rfl
  | depth + 1, d => by
    have ih := levels_eq_map budgets depth (d + 1)
    rw [level] at ih
    rw [levels, ih, List.range_succ_eq_map (n := depth + 1), List.map_cons, List.map_map]
    simp only [Nat.add_zero, Function.comp_def, Nat.succ_eq_add_one, Nat.add_assoc, Nat.add_comm 1]

theorem reachable_eq_flatMap (budgets : List Nat) :
    reachable budgets = (List.range (total budgets + 1)).flatMap (level budgets) := by
  rw [reachable, show [zero budgets.length] = level budgets 0 from rfl, levels_eq_map,
    List.flatMap_def]
  simp only [Nat.zero_add]

theorem head?_reachable (budgets : List Nat) :
    (reachable budgets).head? = some (zero budgets.length) := by
  rw [reachable_eq_flatMap, List.range_succ_eq_map, List.flatMap_cons, level]
  rfl

/-- The search finds the usages within the budgets and no others. -/
theorem mem_reachable_iff : u ∈ reachable budgets ↔ u.Within budgets := by
  simp only [reachable_eq_flatMap, List.mem_flatMap, List.mem_range, mem_level_iff]
  constructor
  · rintro ⟨d, -, h, -⟩
    exact h
  · intro h
    exact ⟨u.total, Nat.lt_succ_of_le h.total_le, h, rfl⟩

/-- In the order of the search the total number of uses never goes down. -/
theorem pairwise_total_reachable (budgets : List Nat) :
    (reachable budgets).Pairwise fun u v => total u ≤ total v := by
  rw [reachable_eq_flatMap, List.pairwise_flatMap]
  refine ⟨fun d _ => List.pairwise_of_forall_mem_list fun u hu v hv => ?_, ?_⟩
  · have hu := (mem_level_iff.1 hu).2
    have hv := (mem_level_iff.1 hv).2
    omega
  · refine List.pairwise_lt_range.imp fun hlt u hu v hv => ?_
    have hu := (mem_level_iff.1 hu).2
    have hv := (mem_level_iff.1 hv).2
    omega

theorem nodup_reachable (budgets : List Nat) : (reachable budgets).Nodup := by
  rw [reachable_eq_flatMap, List.nodup_flatMap]
  refine ⟨fun d _ => nodup_level d, List.pairwise_lt_range.imp fun hlt u hu hv => ?_⟩
  have := (mem_level_iff.1 hu).2.symm.trans (mem_level_iff.1 hv).2
  omega

end Usage

end BitSynth.Sygus
