import BitSynth.Proofs.Usage.Greatest
import Mathlib.Logic.Equiv.Defs

/-!
# Kinds in another order

The most uses of a kind do not depend on the place of the kind among the others. A permutation of the
places that takes budgets to budgets and arities to arities takes each usage to one that affords the
same kinds, and so the table to the table.
-/

namespace BitSynth.Sygus

section Relabels

variable {α β : Type} {as bs : List α} {ρ : Equiv.Perm Nat}

/-- The permutation takes each place of the first list to one of the second with the same entry. -/
def Relabels (ρ : Equiv.Perm Nat) (as bs : List α) : Prop := ∀ i, bs[ρ i]? = as[i]?

/-- The permutation that keeps the first place. -/
def belowFirst (ρ : Equiv.Perm Nat) : Equiv.Perm Nat where
  toFun
    | 0 => 0
    | i + 1 => ρ i + 1
  invFun
    | 0 => 0
    | i + 1 => ρ.symm i + 1
  left_inv
    | 0 => rfl
    | i + 1 => congrArg (· + 1) (ρ.symm_apply_apply i)
  right_inv
    | 0 => rfl
    | i + 1 => congrArg (· + 1) (ρ.apply_symm_apply i)

theorem exists_relabels (h : as.Perm bs) : ∃ ρ, Relabels ρ as bs := by
  induction h with
  | nil => exact ⟨Equiv.refl Nat, fun _ => rfl⟩
  | cons a _ ih =>
    obtain ⟨ρ, hρ⟩ := ih
    refine ⟨belowFirst ρ, fun i => ?_⟩
    cases i with
    | zero => rfl
    | succ i => exact hρ i
  | swap a b as =>
    refine ⟨Equiv.swap 0 1, fun i => ?_⟩
    match i with
    | 0 => rfl
    | 1 => rfl
    | i + 2 =>
      rw [Equiv.swap_apply_of_ne_of_ne (by omega) (by omega)]
      rfl
  | trans _ _ ih ih' =>
    obtain ⟨ρ, hρ⟩ := ih
    obtain ⟨σ, hσ⟩ := ih'
    exact ⟨ρ.trans σ, fun i => (hσ (ρ i)).trans (hρ i)⟩

namespace Relabels

theorem symm (h : Relabels ρ as bs) : Relabels ρ.symm bs as := fun i => by
  rw [← h, ρ.apply_symm_apply]

theorem map (h : Relabels ρ as bs) (f : α → β) : Relabels ρ (as.map f) (bs.map f) := fun i => by
  rw [List.getElem?_map, List.getElem?_map, h i]

theorem getD_eq (h : Relabels ρ as bs) (a : α) (i : Nat) : bs.getD (ρ i) a = as.getD i a := by
  rw [List.getD_eq_getElem?_getD, List.getD_eq_getElem?_getD, h i]

theorem lt_length_iff (h : Relabels ρ as bs) {i : Nat} : ρ i < bs.length ↔ i < as.length := by
  rw [← not_iff_not, Nat.not_lt, Nat.not_lt, ← List.getElem?_eq_none_iff, h i,
    List.getElem?_eq_none_iff]

end Relabels

end Relabels

namespace Usage

variable {budgets budgets' arities arities' : List Nat} {u u' : Usage} {ρ : Equiv.Perm Nat}

theorem affords_relabel_iff (hbudgets : Relabels ρ budgets budgets') (hu : Relabels ρ u u') {k : Nat} :
    u'.Affords budgets' (ρ k) ↔ u.Affords budgets k := by
  rw [Affords, Affords, hu.getD_eq, hbudgets.getD_eq]

theorem relabels_spend (hu : Relabels ρ u u') (k : Nat) :
    Relabels ρ (u.spend k) (u'.spend (ρ k)) := fun i => by
  rw [spend, spend, List.getElem?_modify, List.getElem?_modify, hu i]
  simp only [ρ.injective.eq_iff]

theorem relabels_zero (hbudgets : Relabels ρ budgets budgets') :
    Relabels ρ (zero budgets.length) (zero budgets'.length) := fun i => by
  rw [zero, zero, List.getElem?_replicate, List.getElem?_replicate]
  exact if_congr hbudgets.lt_length_iff rfl rfl

/-- The kind that makes the most of a usage does so under its new number. -/
theorem getD_most_le {i : Nat} (hbudgets : Relabels ρ budgets budgets')
    (harities : Relabels ρ arities arities') (hu : u.Within budgets) (hu' : u'.Within budgets')
    (hrelabels : Relabels ρ u u') (hi : i < budgets.length) :
    (most budgets arities u).getD i 0 ≤ (most budgets' arities' u').getD (ρ i) 0 := by
  -- by the uses that the budgets leave
  induction hd : total budgets - u.total using Nat.strongRecOn generalizing u u' with
  | _ d ih =>
    rw [getD_most_eq hu hi]
    rcases foldl_max_eq (mostAt budgets arities u i) (u.affordable budgets) 0 with h | ⟨k, hk, h⟩
    · rw [h]
      exact Nat.zero_le _
    · have hk := mem_affordable_iff.1 hk
      have hk' := (affords_relabel_iff hbudgets hrelabels).2 hk
      have htotal := total_spend u (hu.1 ▸ lt_length_of_affords hk)
      have hle := (hu.spend hk).total_le
      have hbelow := ih _ (by omega) (hu.spend hk) (hu'.spend hk') (relabels_spend hrelabels k) rfl
      have hmost : mostAt budgets arities u i k ≤ mostAt budgets' arities' u' (ρ i) (ρ k) := by
        rw [mostAt, mostAt, harities.getD_eq]
        simp only [ρ.injective.eq_iff]
        have hmul := Nat.mul_le_mul_left (arities.getD k 0) hbelow
        omega
      rw [h]
      exact Nat.le_trans hmost (mostAt_le_most hu' hk' (hbudgets.lt_length_iff.2 hi))

theorem getD_most_relabel (hbudgets : Relabels ρ budgets budgets')
    (harities : Relabels ρ arities arities') (i : Nat) :
    (most budgets' arities' (zero budgets'.length)).getD (ρ i) 0
      = (most budgets arities (zero budgets.length)).getD i 0 := by
  have hzero := relabels_zero hbudgets
  have hwithin := within_zero budgets
  have hwithin' := within_zero budgets'
  by_cases hi : i < budgets.length
  · have hi' := hbudgets.lt_length_iff.2 hi
    have hback := getD_most_le hbudgets.symm harities.symm hwithin' hwithin hzero.symm hi'
    rw [ρ.symm_apply_apply] at hback
    exact Nat.le_antisymm hback (getD_most_le hbudgets harities hwithin hwithin' hzero hi)
  · have hi' := mt hbudgets.lt_length_iff.1 hi
    have hlen : (most budgets arities (zero budgets.length)).length = budgets.length :=
      length_most hwithin
    have hlen' : (most budgets' arities' (zero budgets'.length)).length = budgets'.length :=
      length_most hwithin'
    rw [List.getD_eq_default _ _ (by omega), List.getD_eq_default _ _ (by omega)]

end Usage

end BitSynth.Sygus
