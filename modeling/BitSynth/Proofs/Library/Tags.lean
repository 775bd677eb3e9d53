import BitSynth.Proofs.Library.Kinds
import BitSynth.Proofs.Usage.WorstCase
import Mathlib.Data.List.Induction

/-!
# Tags

A tag is a number in whose slots of bits the counts of the kinds stand, the first kind in the lowest
slot (`pack`). Adding tags up adds up the counts, and as long as each count fits into its slot the
counts can be read off the tag again (`pack_slot`). In a library that has passed the check of its
counts those of a whole solution fit (`uses_lt_modulus`).
-/

namespace BitSynth.Sygus

/-! ## Counts in slots -/

/-- The number with the first counts in slots of the given bits. -/
def pack (tagBits : Nat) (count : Nat → Nat) : (slots : Nat) → Nat
  | 0 => 0
  | n + 1 => pack tagBits count n + count n * Bits.modulus (n * tagBits)

section Pack

variable {tagBits : Nat} {f g : Nat → Nat}

theorem pack_congr : ∀ {n : Nat}, (∀ i < n, f i = g i) → pack tagBits f n = pack tagBits g n
  | 0, _ => rfl
  | n + 1, h => by
    rw [pack, pack, h n (Nat.lt_succ_self n), pack_congr fun i hi => h i (Nat.lt_succ_of_lt hi)]

theorem pack_add (f g : Nat → Nat) (n : Nat) :
    pack tagBits (fun i => f i + g i) n = pack tagBits f n + pack tagBits g n := by
  induction n with
  | zero => rfl
  | succ n ih =>
    rw [pack, pack, pack, ih, Nat.add_mul]
    omega

theorem pack_zero (n : Nat) : pack tagBits (fun _ => 0) n = 0 := by
  induction n with
  | zero => rfl
  | succ n ih => rw [pack, ih, Nat.zero_mul]

theorem pack_single {k : Nat} : ∀ {n : Nat}, k < n →
    pack tagBits (fun i => if i = k then 1 else 0) n = Bits.modulus (k * tagBits)
  | n + 1, h => by
    rw [pack]
    rcases Nat.lt_succ_iff_lt_or_eq.1 h with hk | rfl
    · rw [pack_single hk, if_neg (Nat.ne_of_gt hk), Nat.zero_mul, Nat.add_zero]
    · rw [pack_congr (g := fun _ => 0) fun i hi => if_neg (Nat.ne_of_lt hi), pack_zero, if_pos rfl,
        Nat.zero_add, Nat.one_mul]

theorem modulus_slots (n tagBits : Nat) :
    Bits.modulus ((n + 1) * tagBits) = Bits.modulus tagBits * Bits.modulus (n * tagBits) := by
  show 2 ^ _ = 2 ^ _ * 2 ^ _
  rw [Nat.succ_mul, Nat.add_comm, Nat.pow_add]

/-- No slot is carried over from the highest one. -/
theorem pack_lt : ∀ {n : Nat}, (∀ i < n, f i < Bits.modulus tagBits) →
    pack tagBits f n < Bits.modulus (n * tagBits)
  | 0, _ => Bits.modulus_pos _
  | n + 1, h => by
    have ih := pack_lt fun i hi => h i (Nat.lt_succ_of_lt hi)
    have hn : (f n + 1) * Bits.modulus (n * tagBits)
        ≤ Bits.modulus tagBits * Bits.modulus (n * tagBits) :=
      Nat.mul_le_mul_right _ (h n (Nat.lt_succ_self n))
    rw [Nat.succ_mul] at hn
    rw [pack, modulus_slots]
    omega

/-- Counts that fit into their slots can be read off. -/
theorem pack_slot {i : Nat} : ∀ {n : Nat}, (∀ j < n, f j < Bits.modulus tagBits) → i < n →
    pack tagBits f n / Bits.modulus (i * tagBits) % Bits.modulus tagBits = f i
  | n + 1, h, hi => by
    have hbelow : ∀ j < n, f j < Bits.modulus tagBits := fun j hj => h j (Nat.lt_succ_of_lt hj)
    have hpos := Bits.modulus_pos (i * tagBits)
    rw [pack]
    rcases Nat.lt_succ_iff_lt_or_eq.1 hi with hin | rfl
    · -- what stands above the slot is a multiple of the next one
      obtain ⟨gap, rfl⟩ : ∃ gap, n = i + 1 + gap := ⟨n - (i + 1), by omega⟩
      have hsplit : Bits.modulus ((i + 1 + gap) * tagBits)
          = Bits.modulus (i * tagBits) * (Bits.modulus (gap * tagBits) * Bits.modulus tagBits) := by
        show 2 ^ _ = 2 ^ _ * (2 ^ _ * 2 ^ _)
        rw [← Nat.pow_add, ← Nat.pow_add]
        refine congrArg (2 ^ ·) ?_
        rw [Nat.add_mul, Nat.succ_mul]
        omega
      rw [hsplit, Nat.mul_left_comm, Nat.add_mul_div_left _ _ hpos, ← Nat.mul_assoc,
        Nat.add_mul_mod_self_right, pack_slot hbelow hin]
    · rw [Nat.mul_comm (f i), Nat.add_mul_div_left _ _ hpos, Nat.div_eq_of_lt (pack_lt hbelow),
        Nat.zero_add, Nat.mod_eq_of_lt (h i (Nat.lt_succ_self i))]

theorem pack_inj {n : Nat} (hf : ∀ i < n, f i < Bits.modulus tagBits)
    (hg : ∀ i < n, g i < Bits.modulus tagBits) (h : pack tagBits f n = pack tagBits g n) :
    ∀ i < n, f i = g i := by
  intro i hi
  rw [← pack_slot hf hi, ← pack_slot hg hi, h]

end Pack

/-! ## The tags of trees -/

namespace Tree

variable {α : Type} {tagBits slots : Nat}

/-- The tags of trees add up to that of their uses taken together. -/
theorem pack_usesAll : ∀ ts : List (Tree α),
    pack tagBits (fun i => usesAll i ts) slots
      = Usage.total (ts.map fun t => pack tagBits (fun i => t.uses i) slots)
  | [] => pack_zero slots
  | t :: ts => by
    rw [List.map_cons, Usage.total_cons, ← pack_usesAll ts, ← pack_add]
    rfl

theorem pack_uses_node {k : Nat} (hk : k < slots) (ts : List (Tree α)) :
    pack tagBits (fun i => (Tree.node k ts).uses i) slots
      = Bits.modulus (k * tagBits)
        + Usage.total (ts.map fun t => pack tagBits (fun i => t.uses i) slots) := by
  rw [← pack_usesAll, ← pack_single hk, ← pack_add]
  rfl

end Tree

/-! ## The counts of a library -/

theorem Usage.total_concat (n : Nat) : ∀ u : Usage, Usage.total (u ++ [n]) = u.total + n
  | [] => Nat.add_comm n 0
  | m :: u => by
    rw [List.cons_append, Usage.total_cons, Usage.total_cons, total_concat n u, Nat.add_assoc]

theorem Usage.total_mapIdx (tagBits : Nat) (ns : List Nat) :
    Usage.total (ns.mapIdx fun i n => n * Bits.modulus (i * tagBits))
      = pack tagBits (fun i => ns.getD i 0) ns.length := by
  induction ns using List.reverseRecOn with
  | nil => rfl
  | append_singleton ns n ih =>
    rw [List.mapIdx_concat, Usage.total_concat, ih, List.length_append, List.length_singleton, pack]
    congr 1
    · refine pack_congr fun i hi => ?_
      rw [List.getD_append _ _ _ _ hi]
    · simp

theorem Library.length_budgets (l : Library) : l.budgets.length = l.kinds.length :=
  List.length_map _

namespace TaggedLibrary

variable {l : TaggedLibrary}

theorem targetValue_eq_pack (l : TaggedLibrary) :
    l.targetValue = pack l.tagBits (fun i => l.budgets.getD i 0) l.kinds.length := by
  rw [targetValue, Usage.total_mapIdx, l.toLibrary.length_budgets]

theorem modulus_slots_le (l : TaggedLibrary) :
    Bits.modulus (l.kinds.length * l.tagBits) ≤ Bits.modulus l.tagWidth :=
  modulus_mono (Nat.le_max_right _ _)

theorem pack_lt_tag (l : TaggedLibrary) {f : Nat → Nat}
    (hf : ∀ i < l.kinds.length, f i < Bits.modulus l.tagBits) :
    pack l.tagBits f l.kinds.length < Bits.modulus l.tagWidth :=
  Nat.lt_of_lt_of_le (pack_lt hf) l.modulus_slots_le

theorem targetValue_lt (l : TaggedLibrary)
    (h : ∀ i < l.kinds.length, l.budgets.getD i 0 < Bits.modulus l.tagBits) :
    l.targetValue < Bits.modulus l.tagWidth := by
  rw [l.targetValue_eq_pack]
  exact l.pack_lt_tag h

theorem tagWidth_pos (h : 1 ≤ l.tagBits) : 0 < l.tagWidth := Nat.le_trans h (Nat.le_max_left _ _)

/-- The tag of a single use is a bit string of the tag's width. -/
theorem modulus_slot_lt {i : Nat} (h : 1 ≤ l.tagBits) (hi : i < l.kinds.length) :
    Bits.modulus (i * l.tagBits) < Bits.modulus l.tagWidth := by
  refine Nat.lt_of_lt_of_le ?_ l.modulus_slots_le
  refine Nat.pow_lt_pow_right (by decide) ?_
  exact Nat.mul_lt_mul_of_pos_right hi h

end TaggedLibrary

namespace Library

variable {l : Library} {tagBits : Nat}

theorem length_uses (l : Library) : l.uses.length = l.kinds.length := by
  rw [uses, List.length_zipWith, Usage.worstCase_eq_most,
    Usage.length_most (Usage.within_zero l.budgets), Nat.min_self, length_budgets]

/-- A library that passes the check has no count beyond what a counter can tell. -/
theorem getD_uses_le_maxCount (h : l.checkCounts tagBits = .ok ()) (i : Nat) :
    l.uses.getD i 0 ≤ maxCount tagBits := by
  by_cases hi : i < l.kinds.length
  · have hu : i < l.uses.length := l.length_uses.symm ▸ hi
    have hzip : i < (l.kinds.zip l.uses).length := by
      rw [List.length_zip]
      omega
    have hmem : (l.kinds[i], l.uses[i]) ∈ l.kinds.zip l.uses :=
      List.mem_iff_getElem.2 ⟨i, hzip, List.getElem_zip⟩
    rw [List.getD_eq_getElem _ _ hu]
    exact checkCounts_eq_ok_iff.1 h _ hmem
  · rw [List.getD_eq_default _ _ (l.length_uses.symm ▸ Nat.not_lt.1 hi)]
    exact Nat.zero_le _

theorem checkCounts_eq_ok_iff_getD :
    l.checkCounts tagBits = .ok () ↔ ∀ i, l.uses.getD i 0 ≤ maxCount tagBits := by
  refine ⟨getD_uses_le_maxCount, fun h => checkCounts_eq_ok_iff.2 fun p hp => ?_⟩
  obtain ⟨i, hi, rfl⟩ := List.mem_iff_getElem.1 hp
  have hu : i < l.uses.length := by
    rw [List.length_zip] at hi
    omega
  rw [List.getElem_zip, ← List.getD_eq_getElem l.uses 0 hu]
  exact h i

theorem getD_uses_eq (l : Library) (i : Nat) :
    l.uses.getD i 0 = max ((Usage.most l.budgets (l.kinds.map Kind.arity)
      (Usage.zero l.budgets.length)).getD i 0) (l.budgets.getD i 0) := by
  rw [uses, Usage.worstCase_eq_most,
    Usage.getD_zipWith_max (Usage.length_most (Usage.within_zero l.budgets))]

theorem budget_lt_modulus (h : l.checkCounts tagBits = .ok ()) (i : Nat) :
    l.budgets.getD i 0 < Bits.modulus tagBits := by
  have hle := getD_uses_le_maxCount h i
  have hpos := Bits.modulus_pos tagBits
  rw [getD_uses_eq] at hle
  unfold maxCount at hle
  omega

/-- In a solution that keeps the budgets no kind is used more often than a counter can tell. -/
theorem uses_lt_modulus {α : Type} {t : Tree α} (h : l.checkCounts tagBits = .ok ())
    (htag : tagBits ≤ maxTagBits) (ht : t.OfArity (l.kinds.map Kind.arity))
    (hkeeps : t.Keeps l.budgets (Usage.zero l.budgets.length)) {i : Nat}
    (hi : i < l.kinds.length) : t.uses i < Bits.modulus tagBits := by
  have hle := getD_uses_le_maxCount h i
  have hmin := Usage.min_uses_le_most ht (Usage.within_zero l.budgets) hkeeps
    (l.length_budgets.symm ▸ hi)
  have hpos := Bits.modulus_pos tagBits
  -- a counter ends long before the limit of the counts does
  have hlimit : Bits.modulus tagBits ≤ Bits.modulus maxTagBits := modulus_mono htag
  have hlt : Bits.modulus maxTagBits < Usage.countLimit := by decide
  rw [getD_uses_eq] at hle
  unfold maxCount at hle
  omega

end Library

end BitSynth.Sygus
