import BitSynth.Proofs.Usage.WorstCase
import Mathlib.Order.Lattice.Nat

/-!
# The table is exact

A tree within the budgets is no deeper than the budgets in all, so the uses of a kind in such trees
have a greatest number (`exists_isGreatest_usesWithin`). Some tree has as many uses as the table
tells (`exists_tree_most_le`): below the root it takes the best operand as often as the kind has
operands. With the bound from the other side (`min_uses_le_most`), the table's count is the greatest
number up to its limit.
-/

namespace BitSynth.Sygus

namespace Usage

variable {α : Type} {budgets arities : List Nat} {u : Usage} {i : Nat}

/-- The numbers of uses that a kind has in the trees that use no kind on any path more often than
its budget. -/
def usesWithin (α : Type) (budgets arities : List Nat) (i : Nat) : Set Nat :=
  {n | ∃ t : Tree α, t.OfArity arities ∧
    (∀ π, t.Path π → ∀ k, π.count k ≤ budgets.getD k 0) ∧ t.uses i = n}

theorem getD_le_total : ∀ (u : Usage) (k : Nat), u.getD k 0 ≤ total u
  | [], _ => Nat.le_refl 0
  | n :: u, 0 => Nat.le_add_right n (total u)
  | n :: u, k + 1 => Nat.le_trans (getD_le_total u k) (Nat.le_add_left (total u) n)

/-! ## A greatest number of uses -/

/-- By the uses that the budgets leave: a use leaves one fewer for each of its operands. -/
theorem exists_forall_uses_le (α : Type) (budgets arities : List Nat) (i : Nat) : ∀ d, ∃ B,
    ∀ {u : Usage} {t : Tree α}, u.Within budgets → total budgets ≤ u.total + d →
      t.OfArity arities → t.Keeps budgets u → t.uses i ≤ B
  | 0 => by
    refine ⟨0, fun {u t} hu hd ht hkeeps => ?_⟩
    cases t with
    | leaf a => exact Nat.le_refl 0
    | node k ts =>
      have hk := hkeeps.affords
      have htotal := total_spend u (hu.1 ▸ lt_length_of_affords hk)
      have hle := (hu.spend hk).total_le
      omega
  | d + 1 => by
    obtain ⟨B, hB⟩ := exists_forall_uses_le α budgets arities i d
    refine ⟨1 + total arities * B, fun {u t} hu hd ht hkeeps => ?_⟩
    cases ht with
    | leaf a => exact Nat.zero_le _
    | @node k ts hlen hts =>
      obtain ⟨hk, hops⟩ := (Tree.keeps_node_iff hu).1 hkeeps
      have htotal := total_spend u (hu.1 ▸ lt_length_of_affords hk)
      have hall : Tree.usesAll i ts ≤ ts.length * B := Tree.usesAll_le fun t ht =>
        hB (hu.spend hk) (by omega) (hts t ht) (hops t ht)
      have harity : ts.length * B ≤ total arities * B :=
        Nat.mul_le_mul_right B (hlen ▸ getD_le_total arities k)
      rw [Tree.uses]
      split_ifs <;> omega

theorem exists_isGreatest_usesWithin (α : Type) [Inhabited α] (budgets arities : List Nat)
    (i : Nat) : ∃ m, IsGreatest (usesWithin α budgets arities i) m := by
  have hne : (usesWithin α budgets arities i).Nonempty := by
    refine ⟨0, .leaf default, .leaf default, ?_, rfl⟩
    rintro _ ⟨⟩ k
    exact Nat.zero_le _
  have hbdd : BddAbove (usesWithin α budgets arities i) := by
    obtain ⟨B, hB⟩ := exists_forall_uses_le α budgets arities i (total budgets)
    refine ⟨B, ?_⟩
    rintro _ ⟨t, ht, hpaths, rfl⟩
    exact hB (within_zero budgets) (Nat.le_add_left ..) ht (Tree.keeps_zero_iff.2 hpaths)
  exact ⟨sSup _, Nat.sSup_mem hne hbdd, fun _ hn => le_csSup hbdd hn⟩

/-! ## The table's count is attained -/

theorem foldl_max_eq (f : Nat → Nat) : ∀ (ks : List Nat) (m : Nat),
    ks.foldl (fun m k => max m (f k)) m = m ∨ ∃ k ∈ ks, ks.foldl (fun m k => max m (f k)) m = f k
  | [], m => .inl rfl
  | j :: ks, m => by
    rw [List.foldl_cons]
    rcases foldl_max_eq f ks (max m (f j)) with h | ⟨k, hk, h⟩
    · rcases Nat.le_total m (f j) with hle | hle
      · exact .inr ⟨j, List.mem_cons_self .., h.trans (Nat.max_eq_right hle)⟩
      · exact .inl (h.trans (Nat.max_eq_left hle))
    · exact .inr ⟨k, List.mem_cons_of_mem j hk, h⟩

theorem most_le_countLimit (hu : u.Within budgets) (hi : i < budgets.length) :
    (most budgets arities u).getD i 0 ≤ countLimit := by
  rw [getD_most_eq hu hi]
  rcases foldl_max_eq (mostAt budgets arities u i) (u.affordable budgets) 0 with h | ⟨k, -, h⟩
  · rw [h]
    exact Nat.zero_le countLimit
  · rw [h]
    exact Nat.min_le_left ..

theorem usesAll_replicate (k n : Nat) (t : Tree α) :
    Tree.usesAll k (List.replicate n t) = n * t.uses k := by
  induction n with
  | zero => simp [Tree.usesAll]
  | succ n ih => rw [List.replicate_succ, Tree.usesAll, ih, Nat.succ_mul, Nat.add_comm]

/-- Some tree that keeps the budgets has as many uses of the kind as the table tells, or more where
the count is cut off. -/
theorem exists_tree_most_le (α : Type) [Inhabited α] (arities : List Nat) (hu : u.Within budgets)
    (hi : i < budgets.length) :
    ∃ t : Tree α, t.OfArity arities ∧ t.Keeps budgets u ∧
      (most budgets arities u).getD i 0 ≤ t.uses i := by
  -- by the uses that the budgets leave
  induction hd : total budgets - u.total using Nat.strongRecOn generalizing u with
  | _ d ih =>
    rw [getD_most_eq hu hi]
    rcases foldl_max_eq (mostAt budgets arities u i) (u.affordable budgets) 0 with h | ⟨k, hk, h⟩
    · rw [h]
      exact ⟨.leaf default, .leaf default, Tree.keeps_leaf hu default, Nat.zero_le _⟩
    · have hk := mem_affordable_iff.1 hk
      have htotal := total_spend u (hu.1 ▸ lt_length_of_affords hk)
      have hle := (hu.spend hk).total_le
      obtain ⟨t, ht, hkeeps, hmost⟩ := ih _ (by omega) (hu.spend hk) rfl
      have hops : ∀ s ∈ List.replicate (arities.getD k 0) t, s = t :=
        fun s hs => List.eq_of_mem_replicate hs
      refine ⟨.node k (List.replicate (arities.getD k 0) t), .node List.length_replicate ?_,
        (Tree.keeps_node_iff hu).2 ⟨hk, ?_⟩, ?_⟩
      · exact fun s hs => hops s hs ▸ ht
      · exact fun s hs => hops s hs ▸ hkeeps
      · have hmul := Nat.mul_le_mul_left (arities.getD k 0) hmost
        rw [h, mostAt, Tree.uses, usesAll_replicate]
        exact Nat.le_trans (Nat.min_le_right ..) (Nat.add_le_add_left hmul _)

/-- The count of a kind is the greatest number of its uses in a tree within the budgets, up to the
limit of the counts. -/
theorem worstCase_eq_greatest (α : Type) [Inhabited α] (budgets arities : List Nat) :
    (worstCase budgets arities).length = budgets.length ∧
      ∀ i : Fin budgets.length, ∃ m,
        IsGreatest (usesWithin α budgets arities i) m ∧
        (worstCase budgets arities)[i.val]? = some (min countLimit m) := by
  have hzero := within_zero budgets
  have hlen : (most budgets arities (zero budgets.length)).length = budgets.length :=
    length_most hzero
  rw [worstCase_eq_most]
  refine ⟨hlen, fun ⟨i, hi⟩ => ?_⟩
  obtain ⟨m, hm⟩ := exists_isGreatest_usesWithin α budgets arities i
  refine ⟨m, hm, ?_⟩
  have hget := List.getElem?_eq_getElem (hlen.symm ▸ hi)
  have hgetD : (most budgets arities (zero budgets.length)).getD i 0 = _ :=
    List.getD_eq_getElem _ _ (hlen.symm ▸ hi)
  rw [hget, ← hgetD]
  refine congrArg some (Nat.le_antisymm (Nat.le_min.2 ⟨?_, ?_⟩) ?_)
  · exact most_le_countLimit hzero hi
  · obtain ⟨t, ht, hkeeps, hmost⟩ := exists_tree_most_le α arities hzero hi
    exact Nat.le_trans hmost (hm.2 ⟨t, ht, Tree.keeps_zero_iff.1 hkeeps, rfl⟩)
  · obtain ⟨⟨t, ht, hpaths, rfl⟩, -⟩ := hm
    exact min_uses_le_most ht hzero (Tree.keeps_zero_iff.2 hpaths) hi

/-- A ternary kind above a binary one: three binary uses, or a ternary and a binary one. -/
example : worstCase [1, 1] [2, 3] = [3, 2] := by decide +kernel

end Usage

end BitSynth.Sygus
