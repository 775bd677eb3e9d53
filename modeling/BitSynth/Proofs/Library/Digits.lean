import BitSynth.Proofs.Library.Tags
import BitSynth.Proofs.Solver.Word
import Mathlib.Data.List.DropRight

/-!
# The digits of tags

The digits of a number fall into groups, counted from the right (`Text.group`). To drop digits on
the right is to divide by a power of the base, and to keep them is to take the remainder, so a group
of as many digits as a counter has bits denotes what stands in the slot (`Text.ofDigits_group`). The
digits of the target are therefore the budgets of the kinds, side by side, and the counts that the
counters can hold are told apart by their tags (`TaggedLibrary.ofEntries_positional`).
-/

namespace BitSynth

/-! ## Groups of digits -/

namespace Text

/-- A group of digits: `i` groups of the same size stand to the right of it. -/
def group (size i : Nat) (digits : List Char) : List Char := (digits.rdrop (i * size)).rtake size

section Digits

variable {base : Nat} {ds : List Char} {d : Char}

theorem ofDigits_concat (base : Nat) (ds : List Char) (d : Char) :
    ofDigits base (ds ++ [d]) = base * ofDigits base ds + digitValue d := by
  rw [ofDigits, List.foldl_append]
  rfl

theorem ofDigits_concat_div (hd : digitValue d < base) :
    ofDigits base (ds ++ [d]) / base = ofDigits base ds := by
  rw [ofDigits_concat, Nat.mul_add_div (Nat.zero_lt_of_lt hd), Nat.div_eq_of_lt hd, Nat.add_zero]

theorem ofDigits_concat_mod (hd : digitValue d < base) :
    ofDigits base (ds ++ [d]) % base = digitValue d := by
  rw [ofDigits_concat, Nat.mul_add_mod, Nat.mod_eq_of_lt hd]

theorem ofDigits_rdrop (hds : ∀ d ∈ ds, digitValue d < base) (k : Nat) :
    ofDigits base (ds.rdrop k) = ofDigits base ds / base ^ k := by
  induction k generalizing ds with
  | zero => rw [List.rdrop_zero, Nat.pow_zero, Nat.div_one]
  | succ k ih =>
    rcases ds.eq_nil_or_concat' with rfl | ⟨es, d, rfl⟩
    · rw [List.rdrop_nil]
      exact (Nat.zero_div _).symm
    · obtain ⟨hes, hd⟩ := List.forall_mem_append.1 hds
      rw [List.rdrop_concat_succ, ih hes, Nat.pow_succ', ← Nat.div_div_eq_div_mul,
        ofDigits_concat_div (hd d (List.mem_singleton_self d))]

theorem ofDigits_rtake (hds : ∀ d ∈ ds, digitValue d < base) (k : Nat) :
    ofDigits base (ds.rtake k) = ofDigits base ds % base ^ k := by
  induction k generalizing ds with
  | zero =>
    rw [List.rtake_zero, Nat.pow_zero, Nat.mod_one]
    rfl
  | succ k ih =>
    rcases ds.eq_nil_or_concat' with rfl | ⟨es, d, rfl⟩
    · rw [List.rtake_nil]
      exact (Nat.zero_mod _).symm
    · obtain ⟨hes, hd⟩ := List.forall_mem_append.1 hds
      have hlast := hd d (List.mem_singleton_self d)
      -- the last digit is the remainder by the base, and the digits before it are the quotient
      rw [List.rtake_concat_succ, ofDigits_concat, ih hes, Nat.pow_succ', Nat.mod_mul,
        ofDigits_concat_div hlast, ofDigits_concat_mod hlast, Nat.add_comm]

/-- A group of digits denotes what the whole number has in its place. -/
theorem ofDigits_group (hds : ∀ d ∈ ds, digitValue d < base) (size i : Nat) :
    ofDigits base (group size i ds) = ofDigits base ds / base ^ (i * size) % base ^ size := by
  have hleft : ∀ d ∈ ds.rdrop (i * size), digitValue d < base :=
    fun d hd => hds d (List.mem_of_mem_take hd)
  rw [group, ofDigits_rtake hleft, ofDigits_rdrop hds]

theorem length_group {size i : Nat} (h : (i + 1) * size ≤ ds.length) :
    (group size i ds).length = size := by
  rw [Nat.succ_mul] at h
  rw [group, List.rtake, List.length_drop, List.rdrop, List.length_take]
  omega

theorem digitValue_lt_of_isBinaryDigit (h : isBinaryDigit d = true) : digitValue d < 2 := by
  simp only [isBinaryDigit, Bool.or_eq_true, beq_iff_eq] at h
  rcases h with rfl | rfl <;> decide

end Digits

end Text

/-! ## The digits of a bit string -/

namespace Bits

/-- The digits of a bit string, which stand behind its `#b`. -/
def literalDigits (s : String) : List Char := s.toList.drop 2

/-- The number that a bit string denotes. -/
def literalValue (s : String) : Nat := Text.ofDigits 2 (literalDigits s)

end Bits

namespace Word

/-- A number that the width holds is what its bit string denotes. -/
theorem exists_denotes_binary {n width : Nat} (hw : 0 < width) (hn : n < Bits.modulus width) :
    ∃ a : BitVec width, Denotes (Bits.binary n width) ⟨width, a⟩ ∧ a.toNat = n := by
  refine ⟨_, denotes_binary hw hn, ?_⟩
  rw [BitVec.toNat_ofNat]
  exact Nat.mod_eq_of_lt hn

namespace Denotes

variable {s : String} {a : Word}

theorem exists_literalDigits (h : Denotes s a) : ∃ ds, Bits.literalDigits s = ds
    ∧ ds.length = a.width ∧ (∀ d ∈ ds, Text.digitValue d < 2)
    ∧ Text.ofDigits 2 ds = a.bits.toNat := by
  obtain ⟨ds, rfl, hlength, hds, hvalue⟩ := h
  refine ⟨ds, ?_, hlength, fun d hd => Text.digitValue_lt_of_isBinaryDigit (hds d hd), hvalue⟩
  simp [Bits.literalDigits]

theorem literalValue (h : Denotes s a) : Bits.literalValue s = a.bits.toNat := by
  obtain ⟨ds, rfl, -, -, hvalue⟩ := h.exists_literalDigits
  exact hvalue

/-- A group within the bit string of a word has all of its digits, and denotes what the word has in
its place. -/
theorem group (h : Denotes s a) {size i : Nat} (hi : (i + 1) * size ≤ a.width) :
    (Text.group size i (Bits.literalDigits s)).length = size
      ∧ Text.ofDigits 2 (Text.group size i (Bits.literalDigits s))
        = a.bits.toNat / Bits.modulus (i * size) % Bits.modulus size := by
  obtain ⟨ds, hs, hlength, hds, hvalue⟩ := h.exists_literalDigits
  rw [hs, Text.ofDigits_group hds, hvalue]
  exact ⟨Text.length_group (hlength ▸ hi), rfl⟩

end Denotes

end Word

/-! ## Tags -/

theorem le_maxCount_iff {tagBits n : Nat} : n ≤ maxCount tagBits ↔ n < Bits.modulus tagBits := by
  have hpos := Bits.modulus_pos tagBits
  unfold maxCount
  omega

namespace Sygus.TaggedLibrary

variable {l : TaggedLibrary} {u v : Usage}

/-- The counters hold the counts: there is one for each kind, and it can tell the count. -/
structure Holds (l : TaggedLibrary) (u : Usage) : Prop where
  length : u.length = l.kinds.length
  le : ∀ n ∈ u, n ≤ maxCount l.tagBits

/-- The tags of single uses added up, that of each kind as often as the kind is counted. -/
def tagOf (l : TaggedLibrary) (u : Usage) : Nat :=
  Usage.total (u.mapIdx fun i n => n * Bits.literalValue (l.oneHot i))

theorem Holds.lt_modulus (h : l.Holds u) {i : Nat} (hi : i < l.kinds.length) :
    u.getD i 0 < Bits.modulus l.tagBits := by
  have hi : i < u.length := h.length ▸ hi
  rw [List.getD_eq_getElem _ _ hi]
  exact le_maxCount_iff.1 (h.le _ (List.getElem_mem hi))

theorem exists_denotes_oneHot (htag : 1 ≤ l.tagBits) {i : Nat} (hi : i < l.kinds.length) :
    ∃ a : BitVec l.tagWidth, Word.Denotes (l.oneHot i) ⟨l.tagWidth, a⟩
      ∧ a.toNat = Bits.modulus (i * l.tagBits) :=
  Word.exists_denotes_binary (tagWidth_pos htag) (modulus_slot_lt htag hi)

/-- Adding up the tags of single uses puts each count into its slot. -/
theorem tagOf_eq_pack (htag : 1 ≤ l.tagBits) (hu : u.length = l.kinds.length) :
    l.tagOf u = pack l.tagBits (fun i => u.getD i 0) l.kinds.length := by
  have hslots : u.mapIdx (fun i n => n * Bits.literalValue (l.oneHot i))
      = u.mapIdx fun i n => n * Bits.modulus (i * l.tagBits) := by
    refine List.mapIdx_eq_mapIdx_iff.2 fun i hi => ?_
    obtain ⟨a, hdenotes, ha⟩ := exists_denotes_oneHot htag (hu ▸ hi)
    rw [hdenotes.literalValue, ha]
  rw [tagOf, hslots, Usage.total_mapIdx, hu]

theorem Holds.tagOf_lt (h : l.Holds u) (htag : 1 ≤ l.tagBits) :
    l.tagOf u < Bits.modulus l.tagWidth := by
  rw [tagOf_eq_pack htag h.length]
  exact l.pack_lt_tag fun _ hi => h.lt_modulus hi

/-- No two counts that the counters hold have one tag. -/
theorem Holds.tagOf_inj (hu : l.Holds u) (hv : l.Holds v) (htag : 1 ≤ l.tagBits) :
    l.tagOf u = l.tagOf v ↔ u = v := by
  refine ⟨fun h => ?_, congrArg l.tagOf⟩
  rw [tagOf_eq_pack htag hu.length, tagOf_eq_pack htag hv.length] at h
  have hslots := pack_inj (fun _ hi => hu.lt_modulus hi) (fun _ hi => hv.lt_modulus hi) h
  refine List.ext_getElem (hu.length.trans hv.length.symm) fun i hi hi' => ?_
  rw [← List.getD_eq_getElem u 0 hi, ← List.getD_eq_getElem v 0 hi']
  exact hslots i (hu.length ▸ hi)

/-- In a bit string that denotes their tag the counts are groups of digits. -/
theorem Holds.group (h : l.Holds u) (htag : 1 ≤ l.tagBits) {t : String} {a : BitVec l.tagWidth}
    (ht : Word.Denotes t ⟨l.tagWidth, a⟩) (ha : a.toNat = l.tagOf u) {i : Nat}
    (hi : i < l.kinds.length) :
    (Text.group l.tagBits i (Bits.literalDigits t)).length = l.tagBits
      ∧ Text.ofDigits 2 (Text.group l.tagBits i (Bits.literalDigits t)) = u.getD i 0 := by
  have hslot : (i + 1) * l.tagBits ≤ l.tagWidth :=
    Nat.le_trans (Nat.mul_le_mul_right _ hi) (Nat.le_max_right _ _)
  obtain ⟨hlength, hvalue⟩ := ht.group hslot
  refine ⟨hlength, hvalue.trans ?_⟩
  rw [ha, tagOf_eq_pack htag h.length]
  exact pack_slot (fun _ hj => h.lt_modulus hj) hi

/-! ## The target -/

theorem holds_budgets (h : l.checkCounts l.tagBits = .ok ()) : l.Holds l.budgets := by
  refine ⟨l.toLibrary.length_budgets, fun n hn => ?_⟩
  obtain ⟨i, hi, rfl⟩ := List.mem_iff_getElem.1 hn
  rw [← List.getD_eq_getElem l.budgets 0 hi]
  exact le_maxCount_iff.2 (Library.budget_lt_modulus h i)

/-- The target is the tag of the budgets. -/
theorem exists_denotes_target (h : l.Holds l.budgets) (htag : 1 ≤ l.tagBits) :
    ∃ a : BitVec l.tagWidth, Word.Denotes l.target ⟨l.tagWidth, a⟩
      ∧ a.toNat = l.tagOf l.budgets := by
  have htarget : l.targetValue = l.tagOf l.budgets := by
    rw [targetValue_eq_pack, tagOf_eq_pack htag h.length]
  rw [target, htarget]
  exact Word.exists_denotes_binary (tagWidth_pos htag) (h.tagOf_lt htag)

variable {e : Encoder} {s : Settings} {es : List LibraryEntry}

/-- The target has a digit for each bit of the tag and denotes the tag of the budgets, and its
groups of digits, one for each kind from the right, denote the budgets. The tag of a single use has
as many digits, and denotes one unit in the kind's slot. The tag of counts that the counters hold
needs no more digits, and it is theirs alone. -/
theorem ofEntries_positional (hs : s.Valid) (h : (ofEntries es e s).result = .ok l) :
    l.tagBits = s.tagBits
      ∧ (∃ a : BitVec l.tagWidth, Word.Denotes l.target ⟨l.tagWidth, a⟩
          ∧ a.toNat = l.tagOf l.budgets)
      ∧ (∀ i (hi : i < l.kinds.length),
          (Text.group l.tagBits i (Bits.literalDigits l.target)).length = l.tagBits
            ∧ Text.ofDigits 2 (Text.group l.tagBits i (Bits.literalDigits l.target))
              = l.kinds[i].budget)
      ∧ (∀ i < l.kinds.length, ∃ a : BitVec l.tagWidth,
          Word.Denotes (l.oneHot i) ⟨l.tagWidth, a⟩ ∧ a.toNat = Bits.modulus (i * l.tagBits))
      ∧ (∀ u, l.Holds u → l.tagOf u < Bits.modulus l.tagWidth)
      ∧ ∀ u v, l.Holds u → l.Holds v → (l.tagOf u = l.tagOf v ↔ u = v) := by
  obtain ⟨-, hcounts, htagBits⟩ := ofEntries_eq_ok_iff.1 h
  have htag : 1 ≤ l.tagBits := htagBits ▸ hs.1
  have hbudgets : l.Holds l.budgets := holds_budgets (htagBits ▸ hcounts)
  obtain ⟨a, hdenotes, ha⟩ := exists_denotes_target hbudgets htag
  refine ⟨htagBits, ⟨a, hdenotes, ha⟩, fun i hi => ?_, fun i hi => exists_denotes_oneHot htag hi,
    fun u hu => hu.tagOf_lt htag, fun u v hu hv => hu.tagOf_inj hv htag⟩
  have hbudget : l.budgets.getD i 0 = l.kinds[i].budget := by
    rw [List.getD_eq_getElem _ _ (hbudgets.length.symm ▸ hi)]
    exact List.getElem_map _
  rw [← hbudget]
  exact hbudgets.group htag hdenotes ha hi

/-- A comparison that is listed twice, a sum and a constant, whose slot stays empty. -/
def twoComparisons : List LibraryEntry :=
  [.operator ⟨"ult"⟩, .operator ⟨"add"⟩, .operator ⟨"ult"⟩, .constant 4 (some ⟨1, none⟩)]

theorem ofEntries_positional_twoComparisons : ∃ l, Settings.Valid {}
      ∧ (ofEntries twoComparisons ⟨4, .truncate⟩ {}).result = .ok l ∧ l.tagWidth = 12
      ∧ l.target = "#b000000010010"
      ∧ Text.ofDigits 2 (Text.group 4 0 (Bits.literalDigits l.target)) = 2
      ∧ Text.ofDigits 2 (Text.group 4 1 (Bits.literalDigits l.target)) = 1
      ∧ l.oneHot 1 = "#b000000010000"
      ∧ (∃ a : BitVec l.tagWidth, Word.Denotes (l.oneHot 1) ⟨l.tagWidth, a⟩
          ∧ a.toNat = Bits.modulus 4)
      ∧ l.tagOf [15, 15, 15] < Bits.modulus l.tagWidth
      ∧ l.tagOf [15, 15, 15] ≠ l.tagOf [15, 0, 15] := by
  let l : TaggedLibrary := {
    kinds := [⟨"ult", 2, .operator "bvult" 2 true⟩, ⟨"add", 1, .operator "bvadd" 2 false⟩,
      ⟨"#b0001", 1, .constant "#b0001"⟩]
    tagBits := 4 }
  have hs : Settings.Valid {} := by decide
  have hl : (ofEntries twoComparisons ⟨4, .truncate⟩ {}).result = .ok l := by decide +kernel
  obtain ⟨-, -, hgroups, hunits, hlt, hinj⟩ := ofEntries_positional hs hl
  have hfull : l.Holds [15, 15, 15] := ⟨rfl, by decide⟩
  have hother : l.Holds [15, 0, 15] := ⟨rfl, by decide⟩
  refine ⟨l, hs, hl, rfl, by decide +kernel, (hgroups 0 (by decide)).2, (hgroups 1 (by decide)).2,
    by decide +kernel, hunits 1 (by decide), hlt _ hfull, fun h => ?_⟩
  exact absurd ((hinj _ _ hfull hother).1 h) (by decide)

end Sygus.TaggedLibrary

end BitSynth
