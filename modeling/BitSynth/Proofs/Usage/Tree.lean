import BitSynth.Proofs.Usage.Reachable

/-!
# Trees of uses

A candidate solution as far as budgets are concerned: leaves, and uses of a kind with operands. A
budget limits the uses on a way from the root down to the end of a branch, not those of the whole
tree, which may therefore be many more.
-/

namespace BitSynth.Sygus

/-- A leaf, or a use of a kind with its operands. -/
inductive Tree (α : Type) where
  | leaf (a : α)
  | node (kind : Nat) (operands : List (Tree α))

namespace Tree

variable {α : Type}

/-- Induction over trees, with the hypothesis for all operands of a node. -/
@[elab_as_elim, induction_eliminator]
theorem induct {motive : Tree α → Prop} (leaf : ∀ a, motive (.leaf a))
    (node : ∀ k ts, (∀ t ∈ ts, motive t) → motive (.node k ts)) : ∀ t, motive t
  | .leaf a => leaf a
  | .node k ts => node k ts fun t _ => induct leaf node t

mutual

def uses (kind : Nat) : Tree α → Nat
  | .leaf _ => 0
  | .node k ts => (if kind = k then 1 else 0) + usesAll kind ts

def usesAll (kind : Nat) : List (Tree α) → Nat
  | [] => 0
  | t :: ts => t.uses kind + usesAll kind ts

end

/-- The kinds used on the way from the root to the end of a branch, which is a leaf or a use without
operands. -/
inductive Path : Tree α → List Nat → Prop
  | leaf (a : α) : Path (.leaf a) []
  | last (k : Nat) : Path (.node k []) [k]
  | step {k : Nat} {ts : List (Tree α)} {t : Tree α} {π : List Nat} (ht : t ∈ ts) (hπ : Path t π) :
      Path (.node k ts) (k :: π)

/-- No path uses a kind more often than its budget has left after the usage. -/
def Keeps (budgets : List Nat) (u : Usage) (t : Tree α) : Prop :=
  ∀ π, Path t π → ∀ k, u.getD k 0 + π.count k ≤ budgets.getD k 0

/-- Every use has as many operands as its kind takes, none where no number is given. -/
inductive OfArity (arities : List Nat) : Tree α → Prop
  | leaf (a : α) : OfArity arities (.leaf a)
  | node {k : Nat} {ts : List (Tree α)} (hlen : ts.length = arities.getD k 0)
      (hts : ∀ t ∈ ts, OfArity arities t) : OfArity arities (.node k ts)

theorem exists_path (t : Tree α) : ∃ π, Path t π := by
  induction t with
  | leaf a => exact ⟨[], .leaf a⟩
  | node k ts ih =>
    cases ts with
    | nil => exact ⟨[k], .last k⟩
    | cons t ts =>
      obtain ⟨π, hπ⟩ := ih t (List.mem_cons_self ..)
      exact ⟨k :: π, .step (List.mem_cons_self ..) hπ⟩

theorem uses_le_usesAll {k : Nat} {t : Tree α} : ∀ {ts : List (Tree α)}, t ∈ ts →
    t.uses k ≤ usesAll k ts
  | s :: ts, h => by
    rw [usesAll]
    rcases List.mem_cons.1 h with rfl | h
    · exact Nat.le_add_right _ _
    · exact Nat.le_trans (uses_le_usesAll h) (Nat.le_add_left _ _)

theorem usesAll_le {k n : Nat} : ∀ {ts : List (Tree α)}, (∀ t ∈ ts, t.uses k ≤ n) →
    usesAll k ts ≤ ts.length * n
  | [], _ => by simp [usesAll]
  | t :: ts, h => by
    have ih := usesAll_le fun s hs => h s (List.mem_cons_of_mem t hs)
    have ht := h t (List.mem_cons_self ..)
    rw [usesAll, List.length_cons, Nat.succ_mul]
    omega

/-- A path uses a kind no more often than the whole tree. -/
theorem count_le_uses {t : Tree α} {π : List Nat} (h : Path t π) (k : Nat) :
    π.count k ≤ t.uses k := by
  induction h with
  | leaf a => simp
  | last j => simp [uses, List.count_singleton, eq_comm (a := j)]
  | @step j ts t π ht _ ih =>
    have := uses_le_usesAll (k := k) ht
    rw [uses, List.count_cons]
    simp only [beq_iff_eq, eq_comm (a := j)]
    omega

section Budgets

variable {budgets : List Nat} {u : Usage}

theorem keeps_zero_iff {t : Tree α} {n : Nat} : t.Keeps budgets (Usage.zero n) ↔
    ∀ π, t.Path π → ∀ k, π.count k ≤ budgets.getD k 0 := by
  simp only [Keeps, Usage.getD_zero, Nat.zero_add]

/-- A tree that uses each kind just as often as its budget has no path over a budget. -/
theorem count_le_of_uses_eq {t : Tree α} (h : ∀ k, t.uses k = budgets.getD k 0) :
    ∀ π, t.Path π → ∀ k, π.count k ≤ budgets.getD k 0 :=
  fun _ hπ k => Nat.le_trans (count_le_uses hπ k) (Nat.le_of_eq (h k))

theorem Keeps.affords {k : Nat} {ts : List (Tree α)} (h : Keeps budgets u (.node k ts)) :
    u.Affords budgets k := by
  obtain ⟨π, hπ⟩ := exists_path (.node k ts)
  have hk := h π hπ k
  have : 0 < π.count k := by
    cases hπ with
    | last => simp
    | step _ _ => simp
  unfold Usage.Affords
  omega

theorem keeps_leaf (hu : u.Within budgets) (a : α) : Keeps budgets u (.leaf a) := by
  rintro _ ⟨⟩ k
  simpa using hu.2 k

/-- A use spends its kind for the paths through each of its operands. -/
theorem keeps_node_iff (hu : u.Within budgets) {k : Nat} {ts : List (Tree α)} :
    Keeps budgets u (.node k ts) ↔
      u.Affords budgets k ∧ ∀ t ∈ ts, t.Keeps budgets (u.spend k) := by
  have hspend (hk : u.Affords budgets k) (π : List Nat) (i : Nat) :
      (u.spend k).getD i 0 + π.count i = u.getD i 0 + (k :: π).count i := by
    have hlt : k < u.length := hu.1 ▸ Usage.lt_length_of_affords hk
    rw [Usage.getD_spend, List.count_cons]
    by_cases hik : i = k
    · simp [hik, hlt, Nat.add_assoc, Nat.add_comm 1]
    · simp [hik, Ne.symm hik]
  constructor
  · intro h
    have hk := h.affords
    exact ⟨hk, fun t ht π hπ i => hspend hk π i ▸ h _ (.step ht hπ) i⟩
  · rintro ⟨hk, h⟩ _ hπ i
    cases hπ with
    | last => exact hspend hk [] i ▸ (hu.spend hk).2 i
    | step ht hπ => exact hspend hk _ i ▸ h _ ht _ hπ i

end Budgets

end Tree

end BitSynth.Sygus
