import BitSynth.Encoder
import BitSynth.Proofs.Outcome
import BitSynth.Proofs.Solver.Word

/-!
# Integers as bit strings

What the encoder writes for an integer denotes its residue in the width that it is written in
(`Word.denotes_truncate`). A strict encoder refuses the integers that the width cannot hold, and the
others can be read back from the digits, without sign or in two's complement
(`Encoder.encode_residue`).
-/

namespace BitSynth

namespace Bits

variable {value : Int} {width : Nat}

/-- A width holds what lies between the sign bit alone and all bits without a sign. -/
theorem fits_iff (hw : 0 < width) :
    Fits value width ↔ -(modulus (width - 1) : Int) ≤ value ∧ value < modulus width := by
  obtain ⟨n, rfl⟩ : ∃ n, width = n + 1 := ⟨width - 1, by omega⟩
  rw [fits_succ_iff, Nat.add_sub_cancel, modulus_succ]
  omega

/-- The low bits in the smaller width are the low bits of the low bits. -/
theorem truncate_min (value : Int) (m n : Nat) :
    truncate value (min m n) = truncate (truncate value m) n := by
  rcases Nat.le_total m n with h | h
  · have hmono : modulus m ≤ modulus n := Nat.pow_le_pow_right (by decide) h
    have hlt := truncate_lt value m
    rw [Nat.min_eq_left h]
    exact (Int.emod_eq_of_lt (truncate_nonneg value m) (by omega)).symm
  · have hdvd : modulus n ∣ modulus m := Nat.pow_dvd_pow 2 h
    rw [Nat.min_eq_right h]
    exact (Int.emod_emod_of_dvd value (Int.natCast_dvd_natCast.2 hdvd)).symm

end Bits

namespace Word

variable {value : Int} {width : Nat}

theorem toNat_ofInt (value : Int) (width : Nat) :
    ((BitVec.ofInt width value).toNat : Int) = Bits.truncate value width := by
  rw [BitVec.toNat_ofInt]
  exact Int.toNat_of_nonneg (Bits.truncate_nonneg value width)

/-- The low bits of a value are written with a digit for each. -/
theorem denotes_truncate (hw : 0 < width) (value : Int) :
    Denotes (Bits.binary (Bits.truncate value width) width) ⟨width, BitVec.ofInt width value⟩ := by
  have hlt : (BitVec.ofInt width value).toNat < Bits.modulus width := BitVec.isLt _
  have h := denotes_binary hw hlt
  rwa [BitVec.ofNat_toNat, BitVec.setWidth_eq, toNat_ofInt] at h

/-- What a width holds is read back from its digits, without sign or in two's complement. -/
theorem eq_toNat_or_eq_toInt (hw : 0 < width) (h : Bits.Fits value width) :
    value = (BitVec.ofInt width value).toNat ∨ value = (BitVec.ofInt width value).toInt := by
  obtain ⟨hmin, hmax⟩ := (Bits.fits_iff hw).1 h
  by_cases h₀ : 0 ≤ value
  · refine .inl ?_
    rw [toNat_ofInt]
    exact (Int.emod_eq_of_lt h₀ hmax).symm
  · refine .inr (BitVec.toInt_ofInt_eq_self hw ?_ ?_).symm
    · simpa [Bits.modulus] using hmin
    · have hpos : (0 : Int) < 2 ^ (width - 1) := Int.pow_pos (by decide)
      exact Int.lt_trans (Int.not_le.1 h₀) hpos

end Word

namespace Encoder

variable {e : Encoder} {value : Int} {width : Nat}

theorem result_checkFit (hw : 0 < width) : (e.checkFit value width).result =
    if e.policy = .strict ∧ ¬ Bits.Fits value width then .error (.literalRange value width)
    else .ok () := by
  rw [checkFit, if_neg (Nat.ne_of_gt hw)]
  by_cases hfits : Bits.Fits value width
  · rw [if_pos hfits, if_neg fun h => h.2 hfits]
    rfl
  · rw [if_neg hfits]
    cases e.policy with
    | truncate => rw [if_neg (by simp)]; rfl
    | strict => rw [if_pos ⟨rfl, hfits⟩]; rfl

/-- What is written after the check is missing exactly if a strict encoder finds no room for the
value. -/
theorem result_checked_eq_ok_iff {α : Type} {a b : α} (hw : 0 < width) :
    (e.checkFit value width >>= fun _ => pure a).result = .ok b ↔
      (e.policy = .strict → Bits.Fits value width) ∧ b = a := by
  rw [Logged.result_bind_eq_ok_iff, result_checkFit hw]
  by_cases h : e.policy = .strict ∧ ¬ Bits.Fits value width
  · simp [h]
  · have hfits : e.policy = .strict → Bits.Fits value width := by
      simpa only [not_and, not_not] using h
    rw [if_neg h, and_iff_right hfits]
    simp [eq_comm]

theorem result_encodeBits_eq_ok_iff {s : String} (hw : 0 < width) :
    (e.encodeBits value width).result = .ok s ↔ (e.policy = .strict → Bits.Fits value width)
      ∧ s = Bits.binary (Bits.truncate value width) width := result_checked_eq_ok_iff hw

theorem result_encodeConstant_eq_ok_iff {s : String} (hw : 0 < width) :
    (e.encodeConstant value width).result = .ok s ↔ (e.policy = .strict → Bits.Fits value width)
      ∧ s = Bits.binary (Bits.truncate (Bits.truncate value width) e.bitWidth) e.bitWidth := by
  rw [← Bits.truncate_min]
  exact result_checked_eq_ok_iff hw

/-- Where the width of a literal or constant is positive, only a strict encoder refuses it, and only
if the width cannot hold it. A literal is written with the digits of its residue in its width, from
which a strict encoder's value can be read back, and a constant with those of that residue's residue
in the encoder's width. -/
theorem encode_residue (e : Encoder) (value : Int) {width : Nat} (hw : 0 < width) :
    (∀ s, (e.encodeBits value width).result = .ok s → ∃ a : BitVec width,
        Word.Denotes s ⟨width, a⟩ ∧ a.toNat = value % Bits.modulus width
          ∧ (e.policy = .strict → value = a.toNat ∨ value = a.toInt))
      ∧ ((∃ s, (e.encodeBits value width).result = .ok s) ↔ (e.policy = .strict →
          -(Bits.modulus (width - 1) : Int) ≤ value ∧ value < Bits.modulus width))
      ∧ (0 < e.bitWidth → ∀ s, (e.encodeConstant value width).result = .ok s →
          ∃ a : BitVec e.bitWidth, Word.Denotes s ⟨e.bitWidth, a⟩
            ∧ a.toNat = value % Bits.modulus width % Bits.modulus e.bitWidth)
      ∧ ((∃ s, (e.encodeConstant value width).result = .ok s) ↔ (e.policy = .strict →
          -(Bits.modulus (width - 1) : Int) ≤ value ∧ value < Bits.modulus width)) := by
  rw [← Bits.fits_iff hw]
  simp only [result_encodeBits_eq_ok_iff hw, result_encodeConstant_eq_ok_iff hw]
  refine ⟨?_, by simp, ?_, by simp⟩
  · rintro _ ⟨hfits, rfl⟩
    exact ⟨_, Word.denotes_truncate hw value, Word.toNat_ofInt value width,
      fun hstrict => Word.eq_toNat_or_eq_toInt hw (hfits hstrict)⟩
  · rintro hb _ ⟨-, rfl⟩
    exact ⟨_, Word.denotes_truncate hb _, Word.toNat_ofInt _ _⟩

/-- The least value that four bits hold, which becomes a constant of six bits and one of three. -/
theorem encode_residue_signBit :
    (Encoder.encodeBits ⟨6, .strict⟩ (-8) 4).result = .ok "#b1000"
      ∧ (∃ a : BitVec 4, Word.Denotes "#b1000" ⟨4, a⟩ ∧ a.toNat = (-8 : Int) % Bits.modulus 4
        ∧ ((-8 : Int) = a.toNat ∨ (-8 : Int) = a.toInt))
      ∧ (¬ ∃ s, (Encoder.encodeBits ⟨6, .strict⟩ (-9) 4).result = .ok s)
      ∧ (Encoder.encodeConstant ⟨6, .strict⟩ (-8) 4).result = .ok "#b001000"
      ∧ (∃ a : BitVec 6, Word.Denotes "#b001000" ⟨6, a⟩
        ∧ a.toNat = (-8 : Int) % Bits.modulus 4 % Bits.modulus 6)
      ∧ ∃ a : BitVec 3, Word.Denotes "#b000" ⟨3, a⟩
        ∧ a.toNat = (-8 : Int) % Bits.modulus 4 % Bits.modulus 3 := by
  have hw : 0 < 4 := by decide
  obtain ⟨hbits, -, hwider, -⟩ := encode_residue ⟨6, .strict⟩ (-8) hw
  obtain ⟨-, hrefused, -, -⟩ := encode_residue ⟨6, .strict⟩ (-9) hw
  obtain ⟨-, -, hnarrower, -⟩ := encode_residue ⟨3, .strict⟩ (-8) hw
  obtain ⟨a, hdenotes, hresidue, hback⟩ := hbits "#b1000" rfl
  refine ⟨rfl, ⟨a, hdenotes, hresidue, hback rfl⟩, fun h => ?_, rfl,
    hwider (by decide) "#b001000" rfl, hnarrower (by decide) "#b000" rfl⟩
  exact absurd (hrefused.1 h rfl) (by decide)

end Encoder

end BitSynth
