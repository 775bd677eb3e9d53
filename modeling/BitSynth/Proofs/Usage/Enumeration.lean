import BitSynth.Proofs.Usage.Queue
import Mathlib.Algebra.BigOperators.Group.List.Basic
import Mathlib.Data.List.Induction
import Mathlib.Data.List.Lex
import Mathlib.Data.List.Sort

/-!
# The order of the usages

The usages within the budgets come by the number of uses in all, and among those of one number the
greater ones come first in the order of dictionaries (`pairwise_reachable`). A usage may follow
several others by one use more. The first of these in the order is the one that lacks the last use
(`finder`), so it is the one that finds the usage, and what the usages of a level find comes in the
order of the level (`finder_le_finder`).
-/

namespace BitSynth.Sygus

namespace Usage

variable {budgets : List Nat} {u v : Usage} {k d : Nat}

/-- The first usage comes before the second: it makes fewer uses in all, or as many and is the
greater one in the order of dictionaries. -/
def Earlier (u v : Usage) : Prop := total u < total v ∨ total u = total v ∧ v < u

theorem cons_le_cons_iff {m n : Nat} : m :: u ≤ n :: v ↔ m < n ∨ m = n ∧ u ≤ v := by
  rw [le_iff_lt_or_eq, le_iff_lt_or_eq, List.cons_lt_cons_iff, List.cons.injEq, or_assoc,
    ← and_or_left]

/-! ## The finder of a usage -/

/-- The usage without its last use. -/
def finder : Usage → Usage
  | [] => []
  | n :: u => if total u = 0 then (n - 1) :: u else n :: finder u

theorem exists_spend_finder : ∀ {u : Usage}, total u ≠ 0 →
    ∃ k < (finder u).length, (finder u).spend k = u
  | [], h => absurd rfl h
  | n :: u, h => by
    rw [finder]
    split_ifs with hu
    · obtain ⟨m, rfl⟩ : ∃ m, n = m + 1 := Nat.exists_eq_succ_of_ne_zero (by simpa [hu] using h)
      exact ⟨0, Nat.succ_pos _, rfl⟩
    · obtain ⟨k, hk, hspend⟩ := exists_spend_finder hu
      exact ⟨k + 1, Nat.succ_lt_succ hk, congrArg (n :: ·) hspend⟩

/-- No other usage that comes to the same by one use more is greater. -/
theorem le_finder_spend : ∀ {u : Usage} {k : Nat}, k < u.length → u ≤ finder (u.spend k)
  | n :: u, 0, _ => by
    show n :: u ≤ finder ((n + 1) :: u)
    rw [finder]
    split_ifs
    · exact le_rfl
    · exact cons_le_cons_iff.2 (.inl (Nat.lt_succ_self n))
  | n :: u, k + 1, hk => by
    have hlt : k < u.length := Nat.lt_of_succ_lt_succ hk
    have htotal : total (spend u k) ≠ 0 := by
      rw [total_spend u hlt]
      exact Nat.succ_ne_zero _
    show n :: u ≤ finder (n :: spend u k)
    rw [finder, if_neg htotal]
    exact cons_le_cons_iff.2 (.inr ⟨rfl, le_finder_spend hlt⟩)

theorem total_finder (h : total u ≠ 0) : total (finder u) + 1 = total u := by
  obtain ⟨k, hk, hspend⟩ := exists_spend_finder h
  rw [← total_spend (finder u) hk, hspend]

theorem length_finder : ∀ u : Usage, (finder u).length = u.length
  | [] => rfl
  | n :: u => by
    rw [finder]
    split_ifs
    · rfl
    · rw [List.length_cons, length_finder u, List.length_cons]

theorem eq_of_total_eq_zero (hlen : u.length = v.length) (hu : total u = 0) (hv : total v = 0) :
    u = v := by
  rw [eq_zero_of_total hu, eq_zero_of_total hv, hlen]

/-- Of usages with one number of uses in all, the lesser one has the lesser finder or the same. -/
theorem finder_le_finder : ∀ {u v : Usage}, u.length = v.length → total u = total v → u < v →
    finder u ≤ finder v
  | [], [], _, _, h => absurd h (lt_irrefl _)
  | m :: u, n :: v, hlen, htotal, h => by
    have hlens : u.length = v.length := Nat.succ.inj hlen
    rw [total_cons, total_cons] at htotal
    rw [finder, finder]
    rcases List.cons_lt_cons_iff.1 h with hlt | ⟨rfl, hlt⟩
    · -- what the first usage lacks in front it has behind
      have hu : total u ≠ 0 := by omega
      rw [if_neg hu]
      split_ifs with hv
      · rw [cons_le_cons_iff]
        rcases Nat.lt_or_ge m (n - 1) with hm | hm
        · exact .inl hm
        · have hzero : total (finder u) = 0 := by
            have := total_finder hu
            omega
          refine .inr ⟨by omega, le_of_eq ?_⟩
          exact eq_of_total_eq_zero ((length_finder u).trans hlens) hzero hv
      · exact cons_le_cons_iff.2 (.inl hlt)
    · have htotals : total u = total v := Nat.add_left_cancel htotal
      by_cases hu : total u = 0
      · have heq : u = v := eq_of_total_eq_zero hlens hu (htotals ▸ hu)
        exact absurd (heq ▸ hlt) (lt_irrefl v)
      · rw [if_neg hu, if_neg (htotals ▸ hu)]
        exact cons_le_cons_iff.2 (.inr ⟨rfl, finder_le_finder hlens htotals hlt⟩)

/-! ## The order of a level -/

theorem spend_lt_spend : ∀ {u : Usage} {j k : Nat}, j < k → j < u.length → u.spend k < u.spend j
  | n :: u, 0, k + 1, _, _ => List.cons_lt_cons_iff.2 (.inl (Nat.lt_succ_self n))
  | n :: u, j + 1, k + 1, hjk, hj => by
    have ih := spend_lt_spend (Nat.lt_of_succ_lt_succ hjk) (Nat.lt_of_succ_lt_succ hj)
    exact List.cons_lt_cons_iff.2 (.inr ⟨rfl, ih⟩)

theorem pairwise_successors (hu : u.Within budgets) :
    (u.successors budgets).Pairwise (· > ·) := by
  have hrange : (u.affordable budgets).Pairwise (· < ·) := List.pairwise_lt_range.filter _
  rw [successors, List.pairwise_map]
  refine hrange.imp_of_mem fun {j k} hj _ hjk => spend_lt_spend hjk ?_
  exact hu.1 ▸ lt_length_of_affords (mem_affordable_iff.1 hj)

theorem distinct_go_of_nodup : ∀ {us : List Usage} {found : Std.TreeSet Usage}, us.Nodup →
    distinct.go found us = us.filter (· ∉ found)
  | [], found, _ => rfl
  | u :: us, found, h => by
    rw [List.nodup_cons] at h
    rw [distinct.go]
    split_ifs with hu
    · rw [Std.TreeSet.contains_iff_mem] at hu
      rw [distinct_go_of_nodup h.2, List.filter_cons_of_neg (by simpa using hu)]
    · rw [Std.TreeSet.contains_iff_mem] at hu
      rw [distinct_go_of_nodup h.2, List.filter_cons_of_pos (by simpa using hu)]
      refine congrArg (u :: ·) (List.filter_congr fun v hv => ?_)
      have hne : u ≠ v := fun h' => h.1 (h' ▸ hv)
      simp [hne]

theorem le_finder_of_mem_successors (hu : u.Within budgets) (h : v ∈ u.successors budgets) :
    u ≤ finder v := by
  obtain ⟨k, hk, rfl⟩ := mem_successors_iff.1 h
  exact le_finder_spend (hu.1 ▸ lt_length_of_affords hk)

/-- A usage of a level is found from the level before. -/
theorem finder_mem_level (h : v ∈ level budgets (d + 1)) :
    finder v ∈ level budgets d ∧ v ∈ (finder v).successors budgets := by
  obtain ⟨hv, htotal⟩ := mem_level_iff.1 h
  have hne : total v ≠ 0 := by omega
  obtain ⟨k, hk, hspend⟩ := exists_spend_finder hne
  obtain ⟨hwithin, hafford⟩ := Within.of_spend hk (hspend.symm ▸ hv)
  have := total_finder hne
  exact ⟨mem_level_iff.2 ⟨hwithin, by omega⟩, mem_successors_iff.2 ⟨k, hafford, hspend⟩⟩

/-- In a level that is in order, a usage comes behind another one with the same successor exactly if
it is not the finder of that. -/
theorem mem_before_iff {before after : List Usage} (hlevel : level budgets d = before ++ u :: after)
    (hsorted : (level budgets d).Pairwise (· > ·)) (hv : v ∈ u.successors budgets) :
    v ∈ before.flatMap (successors budgets) ↔ finder v ≠ u := by
  have hmem {w : Usage} (hw : w ∈ before ++ u :: after) : w.Within budgets :=
    (mem_level_iff.1 (hlevel ▸ hw)).1
  have hu : u ∈ before ++ u :: after := List.mem_append_right _ (List.mem_cons_self ..)
  rw [hlevel, List.pairwise_append] at hsorted
  obtain ⟨-, hafter, hbefore⟩ := hsorted
  rw [List.mem_flatMap]
  constructor
  · rintro ⟨w, hw, hvw⟩ rfl
    have hle := le_finder_of_mem_successors (hmem (List.mem_append_left _ hw)) hvw
    exact absurd (hbefore w hw _ (List.mem_cons_self ..)) (not_lt_of_ge hle)
  · intro hne
    have hlt : u < finder v := lt_of_le_of_ne (le_finder_of_mem_successors (hmem hu) hv) hne.symm
    have hnext : v ∈ level budgets (d + 1) :=
      mem_flatMap_successors_iff.1 (List.mem_flatMap.2 ⟨u, hlevel ▸ hu, hv⟩)
    obtain ⟨hfinder, hfound⟩ := finder_mem_level hnext
    refine ⟨finder v, ?_, hfound⟩
    rw [hlevel, List.mem_append, List.mem_cons] at hfinder
    rcases hfinder with h | rfl | h
    · exact h
    · exact absurd rfl hne
    · exact absurd ((List.pairwise_cons.1 hafter).1 _ h) (not_lt_of_gt hlt)

/-- A level in order leaves to each of its usages the successors whose finder it is. -/
theorem nextLevel_eq_flatMap (hsorted : (level budgets d).Pairwise (· > ·)) :
    nextLevel budgets (level budgets d)
      = (level budgets d).flatMap fun u => (u.successors budgets).filter (finder · = u) := by
  suffices h : ∀ us after, level budgets d = us ++ after →
      distinct (us.flatMap (successors budgets))
        = us.flatMap fun u => (u.successors budgets).filter (finder · = u) from
    h _ [] (List.append_nil _).symm
  intro us
  induction us using List.reverseRecOn with
  | nil => exact fun _ _ => rfl
  | append_singleton us u ih =>
    intro after hafter
    rw [List.append_assoc, List.singleton_append] at hafter
    have hu : u.Within budgets :=
      (mem_level_iff.1 (hafter ▸ List.mem_append_right us (List.mem_cons_self ..))).1
    have hnodup : (u.successors budgets).Nodup := (pairwise_successors hu).imp ne_of_gt
    rw [List.flatMap_append, List.flatMap_append, List.flatMap_singleton, List.flatMap_singleton,
      distinct, distinct_go_append, ← distinct, ih _ hafter, distinct_go_of_nodup hnodup]
    refine congrArg _ (List.filter_congr fun v hv => ?_)
    have hbefore := mem_before_iff hafter hsorted hv
    simp [mem_remember_iff, hbefore]

theorem pairwise_level : ∀ d, (level budgets d).Pairwise (· > ·)
  | 0 => List.pairwise_singleton ..
  | d + 1 => by
    have ih : (level budgets d).Pairwise (· > ·) := pairwise_level d
    have hwithin {u : Usage} (hu : u ∈ level budgets d) := (mem_level_iff.1 hu).1
    rw [level, nextLevel_eq_flatMap ih, List.pairwise_flatMap]
    refine ⟨fun u hu => (pairwise_successors (hwithin hu)).filter _, ?_⟩
    refine ih.imp_of_mem fun {u u'} hu hu' hlt v hv v' hv' => ?_
    rw [List.mem_filter, decide_eq_true_eq] at hv hv'
    obtain ⟨hv, rfl⟩ := hv
    obtain ⟨hv', rfl⟩ := hv'
    obtain ⟨hv, htotal⟩ := mem_level_iff.1
      (mem_flatMap_successors_iff.1 (List.mem_flatMap.2 ⟨_, hu, hv⟩))
    obtain ⟨hv', htotal'⟩ := mem_level_iff.1
      (mem_flatMap_successors_iff.1 (List.mem_flatMap.2 ⟨_, hu', hv'⟩))
    -- otherwise the finders would be in the opposite order
    by_contra hle
    rcases lt_or_eq_of_le (not_lt.1 hle) with hlt' | rfl
    · have hfinders := finder_le_finder (hv.1.trans hv'.1.symm) (htotal.trans htotal'.symm) hlt'
      exact absurd hlt (not_lt_of_ge hfinders)
    · exact absurd hlt (lt_irrefl _)

/-! ## The order of all usages -/

theorem pairwise_reachable (budgets : List Nat) : (reachable budgets).Pairwise Earlier := by
  rw [reachable_eq_flatMap, List.pairwise_flatMap]
  refine ⟨fun d _ => (pairwise_level d).imp_of_mem fun hu hv hlt => .inr ⟨?_, hlt⟩, ?_⟩
  · rw [(mem_level_iff.1 hu).2, (mem_level_iff.1 hv).2]
  · refine List.pairwise_lt_range.imp fun hlt u hu v hv => .inl ?_
    rwa [(mem_level_iff.1 hu).2, (mem_level_iff.1 hv).2]

theorem Earlier.not_symm (h : Earlier u v) : ¬ Earlier v u := by
  rintro (h' | ⟨htotal, hlt⟩)
  · rcases h with h | ⟨htotal, -⟩ <;> omega
  · rcases h with h | ⟨-, hlt'⟩
    · omega
    · exact lt_asymm hlt hlt'

theorem nodup_of_pairwise_earlier {us : List Usage} (h : us.Pairwise Earlier) : us.Nodup :=
  h.imp fun h => by
    rintro rfl
    exact h.not_symm h

theorem eq_reachable_iff {us : List Usage} : us = reachable budgets ↔
    (∀ u, u ∈ us ↔ u.Within budgets) ∧ us.Pairwise Earlier := by
  constructor
  · rintro rfl
    exact ⟨fun u => mem_reachable_iff, pairwise_reachable budgets⟩
  · rintro ⟨hmem, hsorted⟩
    have hperm : us.Perm (reachable budgets) :=
      (List.perm_ext_iff_of_nodup (nodup_of_pairwise_earlier hsorted) (nodup_reachable budgets)).2
        fun u => (hmem u).trans mem_reachable_iff.symm
    exact hperm.eq_of_pairwise (fun u v _ _ h h' => absurd h' h.not_symm) hsorted
      (pairwise_reachable budgets)

theorem idxOf_lt_idxOf {us : List Usage} (hsorted : us.Pairwise Earlier) (hu : u ∈ us) (hv : v ∈ us)
    (h : Earlier u v) : us.idxOf u < us.idxOf v := by
  have hlt {w : Usage} (hw : w ∈ us) : us.idxOf w < us.length := List.idxOf_lt_length_of_mem hw
  by_contra hle
  rcases Nat.lt_or_eq_of_le (Nat.not_lt.1 hle) with hlt' | heq
  · have hvu := List.pairwise_iff_getElem.1 hsorted _ _ (hlt hv) (hlt hu) hlt'
    rw [List.getElem_idxOf, List.getElem_idxOf] at hvu
    exact h.not_symm hvu
  · have huv := (List.idxOf_inj hv).1 heq
    subst huv
    exact h.not_symm h

/-! ## The number of usages -/

theorem within_cons_iff {n b : Nat} :
    Within (b :: budgets) (n :: u) ↔ n ≤ b ∧ u.Within budgets := by
  constructor
  · intro h
    exact ⟨h.2 0, by simpa using h.1, fun k => by simpa using h.2 (k + 1)⟩
  · rintro ⟨hn, hlen, hle⟩
    refine ⟨congrArg (· + 1) hlen, fun k => ?_⟩
    cases k with
    | zero => exact hn
    | succ k => simpa using hle k

/-- The usages within the budgets, one kind after the other. -/
def box : List Nat → List Usage
  | [] => [[]]
  | b :: budgets => (List.range (b + 1)).flatMap fun n => (box budgets).map (n :: ·)

theorem mem_box_iff : ∀ {budgets : List Nat} {u : Usage}, u ∈ box budgets ↔ u.Within budgets
  | [], u => by
    rw [box, List.mem_singleton]
    constructor
    · rintro rfl
      exact within_zero []
    · exact fun h => List.eq_nil_of_length_eq_zero h.1
  | b :: budgets, [] => by
    simp [box, Within]
  | b :: budgets, n :: u => by
    simp only [box, List.mem_flatMap, List.mem_range, Nat.lt_succ_iff, List.mem_map, mem_box_iff,
      List.cons.injEq, exists_eq_right_right, within_cons_iff]

theorem nodup_box : ∀ budgets : List Nat, (box budgets).Nodup
  | [] => List.nodup_singleton _
  | b :: budgets => by
    rw [box, List.nodup_flatMap]
    refine ⟨fun n _ => (nodup_box budgets).map (List.cons_injective), ?_⟩
    refine List.nodup_range.imp fun hne u hu hu' => hne ?_
    obtain ⟨v, -, rfl⟩ := List.mem_map.1 hu
    obtain ⟨v', -, heq⟩ := List.mem_map.1 hu'
    exact (List.cons.inj heq).1.symm

theorem length_box : ∀ budgets : List Nat, (box budgets).length = (budgets.map (· + 1)).prod
  | [] => rfl
  | b :: budgets => by
    have ih := length_box budgets
    rw [box, List.length_flatMap, List.map_cons, List.prod_cons, ← ih]
    simp

theorem length_reachable (budgets : List Nat) :
    (reachable budgets).length = (budgets.map (· + 1)).prod := by
  rw [← length_box]
  refine ((List.perm_ext_iff_of_nodup (nodup_reachable budgets) (nodup_box budgets)).2
    fun u => ?_).length_eq
  rw [mem_reachable_iff, mem_box_iff]

theorem Within.of_mem_successors (hu : u.Within budgets) (h : v ∈ u.successors budgets) :
    v.Within budgets ∧ Earlier u v := by
  obtain ⟨k, hk, rfl⟩ := mem_successors_iff.1 h
  refine ⟨hu.spend hk, .inl ?_⟩
  rw [total_spend u (hu.1 ▸ lt_length_of_affords hk)]
  exact Nat.lt_succ_self _

/-- The search with a queue finds just the usages within the budgets, each once, by the number of
uses in all and the greater ones first among those of one number. Each comes before its successors,
and there are as many as the budgets leave choices. -/
theorem reachable_in_order (budgets : List Nat) :
    (∀ us, Visits budgets (Frontier.start budgets) us ↔ us = reachable budgets)
      ∧ (∀ us, us = reachable budgets ↔
          (∀ u, u ∈ us ↔ u.Within budgets) ∧ us.Pairwise Earlier)
      ∧ (reachable budgets).Nodup
      ∧ (reachable budgets).length = (budgets.map (· + 1)).prod
      ∧ ∀ u ∈ reachable budgets, ∀ v ∈ u.successors budgets,
          (reachable budgets).idxOf u < (reachable budgets).idxOf v ∧ v ∈ reachable budgets := by
  refine ⟨fun us => visits_start_iff, fun us => eq_reachable_iff, nodup_reachable budgets,
    length_reachable budgets, fun u hu v hv => ?_⟩
  obtain ⟨hwithin, hearlier⟩ := Within.of_mem_successors (mem_reachable_iff.1 hu) hv
  have hvmem : v ∈ reachable budgets := mem_reachable_iff.2 hwithin
  exact ⟨idxOf_lt_idxOf (pairwise_reachable budgets) hu hvmem hearlier, hvmem⟩

theorem reachable_in_order_two_one :
    Visits [2, 1] (Frontier.start [2, 1]) [[0, 0], [1, 0], [0, 1], [2, 0], [1, 1], [2, 1]]
      ∧ (reachable [2, 1]).length = 6
      ∧ (reachable [2, 1]).idxOf [1, 0] < (reachable [2, 1]).idxOf [1, 1] := by
  obtain ⟨hvisits, -, -, hlength, hsuccessors⟩ := reachable_in_order [2, 1]
  refine ⟨(hvisits _).2 ?_, hlength, (hsuccessors [1, 0] ?_ [1, 1] ?_).1⟩ <;> decide +kernel

end Usage

end BitSynth.Sygus
