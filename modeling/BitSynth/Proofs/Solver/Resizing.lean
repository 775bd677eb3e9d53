import BitSynth.Proofs.Encoder.BitStrings
import BitSynth.Proofs.Solver.Meaning

/-!
# Constants of another width

A constant need not have the width of the program. One that a solution picks is resized by a term of
the grammar (`Candidate.value_resized`), one that the library gives is resized by the encoder. Both
come to the same word behind an empty tag (`Grammar.value_freeConstant`).
-/

namespace BitSynth

namespace Word

/-- Zeros in front of the digits of a word are an empty tag. -/
theorem denotes_tagged {tagWidth width : ℕ} {ds : List Char} {v : BitVec width}
    (hlen : ds.length = width) (hds : ∀ d ∈ ds, Text.isBinaryDigit d = true)
    (hvalue : Text.ofDigits 2 ds = v.toNat) :
    Denotes ("#b" ++ String.ofList (List.replicate tagWidth '0' ++ ds)) (tagged tagWidth 0 v) := by
  refine ⟨_, rfl, ?_, fun d hd => ?_, ?_⟩
  · rw [List.length_append, List.length_replicate, hlen, width_tagged]
  · rcases List.mem_append.1 hd with hd | hd
    · rw [List.eq_of_mem_replicate hd]
      rfl
    · exact hds d hd
  · rw [ofDigits_replicate_append, hvalue, toNat_tagged, Nat.zero_mod, Nat.zero_mul, Nat.zero_add]

end Word

namespace Sygus

namespace Candidate

/-- A candidate of a width at the width of the program, behind an empty tag: a narrower one is
filled up with zeros, a wider one keeps its low bits. -/
def resized (tagWidth width bitWidth : Nat) (c : Candidate) : Candidate :=
  if width < bitWidth then .behind (tagWidth + bitWidth - width) c
  else if width = bitWidth then .behind tagWidth c
  else .behind tagWidth (.lowBits (bitWidth - 1) c)

section Values

variable {F : Meaning} {σ : String → Option Value} {tagWidth width bitWidth : Nat} {c : Candidate}
  {v : BitVec width}

/-- What stands behind zeros is behind an empty tag, if it is no wider than the program. -/
theorem value_behind_tagged (hF : ∀ vs, F "concat" vs = smtLib "concat" vs) {n : Nat}
    (hwidth : width ≤ bitWidth) (hn : n = tagWidth + bitWidth - width) (hpos : 0 < n)
    (hc : c.value F σ = some (.word ⟨width, v⟩)) :
    (behind n c).value F σ = some (.word (.tagged tagWidth 0 (v.setWidth bitWidth))) := by
  subst hn
  rw [value_behind hpos hc, hF, ← Word.concat_zeros v hwidth]
  rfl

theorem value_behind_full (hF : ∀ vs, F "concat" vs = smtLib "concat" vs) (htag : 0 < tagWidth)
    (hc : c.value F σ = some (.word ⟨width, v⟩)) :
    (behind tagWidth c).value F σ = some (.word (.tagged tagWidth 0 v)) := by
  rw [value_behind_tagged hF (Nat.le_refl _) (Nat.add_sub_cancel ..).symm htag hc,
    BitVec.setWidth_eq]

theorem value_lowBits (hbits : 0 < bitWidth) (hwidth : bitWidth ≤ width)
    (hc : c.value F σ = some (.word ⟨width, v⟩)) :
    (lowBits (bitWidth - 1) c).value F σ = some (.word ⟨bitWidth, v.setWidth bitWidth⟩) := by
  rw [lowBits, value_extract hc, Word.extract_eq_some (b := ⟨bitWidth, v.setWidth bitWidth⟩)
    (Nat.zero_le _) (by show _ < width; omega) (by show bitWidth = _; omega)]
  · rfl
  · rw [Nat.pow_zero, Nat.div_one]
    exact BitVec.toNat_setWidth ..

theorem value_resized (hF : ∀ vs, F "concat" vs = smtLib "concat" vs) (htag : 0 < tagWidth)
    (hbits : 0 < bitWidth) (hc : c.value F σ = some (.word ⟨width, v⟩)) :
    (resized tagWidth width bitWidth c).value F σ
      = some (.word (.tagged tagWidth 0 (v.setWidth bitWidth))) := by
  unfold resized
  split_ifs with hlt heq
  · exact value_behind_tagged hF (Nat.le_of_lt hlt) rfl (by omega) hc
  · exact value_behind_tagged hF (Nat.le_of_eq heq) (by omega) htag hc
  · exact value_behind_full hF htag (value_lowBits hbits (by omega) hc)

end Values

end Candidate

end Sygus

namespace Encoder

/-- A constant without a sign fits its width, and its digits are those of its low bits. -/
theorem exists_encodeConstant_toNat {e : Encoder} {width : Nat} (hwidth : 0 < width)
    (hbits : 0 < e.bitWidth) (c : BitVec width) :
    ∃ key, (e.encodeConstant c.toNat width).result = .ok key
      ∧ Word.Denotes key ⟨e.bitWidth, c.setWidth e.bitWidth⟩ := by
  have hlt : (c.toNat : Int) < Bits.modulus width := Int.ofNat_lt.2 c.isLt
  have hfits : Bits.Fits c.toNat width := ⟨by omega, hlt⟩
  have htruncate : Bits.truncate c.toNat width = c.toNat :=
    Int.emod_eq_of_lt (Int.natCast_nonneg _) hlt
  refine ⟨_, (result_encodeConstant_eq_ok_iff hwidth).2 ⟨fun _ => hfits, rfl⟩, ?_⟩
  rw [htruncate]
  have hdenotes := Word.denotes_truncate hbits (Bits.truncate c.toNat width)
  rwa [htruncate, BitVec.ofInt_natCast, BitVec.ofNat_toNat] at hdenotes

end Encoder

namespace Sygus

namespace Grammar

open Candidate

section Leaves

variable {l : TaggedLibrary} {bitWidth : Nat}

theorem freeConstant_mem_leaves {width : Nat} (h : l.freeWidth = some width) :
    freeConstant l.tagWidth width bitWidth ∈ leaves l bitWidth := by
  simp [leaves, h]

theorem literal_mem_leaves {k : Kind} {literal : String} (hk : k ∈ l.kinds)
    (hform : k.form = .constant literal) :
    .concat (.atom (Bits.zeros l.tagWidth)) (.atom literal) ∈ leaves l bitWidth := by
  refine List.mem_append_right _ (List.mem_filterMap.2 ⟨k, hk, ?_⟩)
  rw [hform]

end Leaves

/-- The value of a production in which nothing is open but the free constant, by the operations of
SMT-LIB. -/
def valueAt (constant : Word) (production : Term) : Option Value :=
  (Candidate.ofTerm [constantName] production).value smtLib
    (assign [constantName] [.word constant])

theorem ofTerm_behind {n : Nat} (t : Term) :
    Candidate.ofTerm [constantName] (.concat (.atom (Bits.zeros n)) t)
      = .behind n (Candidate.ofTerm [constantName] t) := by
  have hzeros : Bits.zeros n ∉ [constantName] := by
    rw [List.mem_singleton]
    intro h
    simpa [Bits.zeros, constantName] using congrArg (fun s => s.toList.head?) h
  rw [Term.concat, ofTerm_app, List.map_cons, List.map_cons, List.map_nil, ofTerm_of_notMem hzeros]
  rfl

theorem ofTerm_freeConstant (tagWidth width bitWidth : Nat) :
    Candidate.ofTerm [constantName] (freeConstant tagWidth width bitWidth)
      = resized tagWidth width bitWidth (.input constantName) := by
  have hconstant : Candidate.ofTerm [constantName] (.atom constantName) = .input constantName :=
    ofTerm_of_mem (List.mem_singleton_self _)
  unfold freeConstant resized
  split_ifs
  · rw [ofTerm_behind, hconstant]
  · rw [ofTerm_behind, hconstant]
  · rw [ofTerm_behind, lowBits, ← hconstant]
    rfl

theorem valueAt_freeConstant {tagWidth width bitWidth : Nat} (htag : 0 < tagWidth)
    (hbits : 0 < bitWidth) (c : BitVec width) :
    valueAt ⟨width, c⟩ (freeConstant tagWidth width bitWidth)
      = some (.word (.tagged tagWidth 0 (c.setWidth bitWidth))) := by
  rw [valueAt, ofTerm_freeConstant]
  refine value_resized (fun _ => rfl) htag hbits ?_
  rw [Candidate.value]
  rfl

theorem valueAt_literal {tagWidth width : Nat} {key : String} {v : BitVec width}
    (htag : 0 < tagWidth) (hwidth : 0 < width) (hkey : Word.Denotes key ⟨width, v⟩) (c : Word) :
    valueAt c (.concat (.atom (Bits.zeros tagWidth)) (.atom key))
      = some (.word (.tagged tagWidth 0 v)) := by
  have hnot : key ∉ [constantName] := by
    obtain ⟨ds, rfl, -⟩ := hkey
    rw [List.mem_singleton]
    intro h
    simpa [constantName] using congrArg (fun s => s.toList.head?) h
  rw [valueAt, ofTerm_behind, ofTerm_of_notMem hnot]
  refine value_behind_full (fun _ => rfl) htag ?_
  rw [Candidate.value, hkey.ofLiteral? hwidth]
  rfl

/-- A free constant, resized by the term that stands for it in the grammar, and a constant with the
same value, resized by the encoder, are the same word: as many zeros as the tag has bits, and then
the digits that the encoder writes. In every library whose tag has that many bits these terms stand
for the constants; with valid settings a tag is never empty (`TaggedLibrary.tagWidth_pos`). -/
theorem value_freeConstant {tagWidth width : Nat} {e : Encoder} (htag : 0 < tagWidth)
    (hwidth : 0 < width) (hbits : 0 < e.bitWidth) (c : BitVec width) :
    ∃ digits a, (e.encodeConstant c.toNat width).result = .ok ("#b" ++ String.ofList digits)
      ∧ a.width = tagWidth + e.bitWidth
      ∧ Word.Denotes ("#b" ++ String.ofList (List.replicate tagWidth '0' ++ digits)) a
      ∧ valueAt ⟨width, c⟩ (freeConstant tagWidth width e.bitWidth) = some (.word a)
      ∧ valueAt ⟨width, c⟩ (.concat (.atom (Bits.zeros tagWidth))
          (.atom ("#b" ++ String.ofList digits))) = some (.word a)
      ∧ ∀ l : TaggedLibrary, l.tagWidth = tagWidth →
        (l.freeWidth = some width →
          freeConstant tagWidth width e.bitWidth ∈ leaves l e.bitWidth)
        ∧ ∀ k ∈ l.kinds, k.form = .constant ("#b" ++ String.ofList digits) →
          .concat (.atom (Bits.zeros tagWidth)) (.atom ("#b" ++ String.ofList digits))
            ∈ leaves l e.bitWidth := by
  obtain ⟨key, hkey, hdenotes⟩ := Encoder.exists_encodeConstant_toNat hwidth hbits c
  have hliteral := valueAt_literal htag hbits hdenotes ⟨width, c⟩
  obtain ⟨ds, rfl, hlen, hds, hvalue⟩ := hdenotes
  refine ⟨ds, _, hkey, Word.width_tagged .., Word.denotes_tagged hlen hds hvalue,
    valueAt_freeConstant htag hbits c, hliteral, fun l hl => ⟨fun hfree => ?_, fun k hk hform => ?_⟩⟩
  · rw [← hl]
    exact freeConstant_mem_leaves hfree
  · rw [← hl]
    exact literal_mem_leaves hk hform

/-- A constant of six bits, of which a program of four bits keeps the low ones. -/
theorem value_freeConstant_wider :
    (Encoder.encodeConstant ⟨4, .strict⟩ 22 6).result = .ok "#b0110"
      ∧ ∃ a, a.width = 12 ∧ Word.Denotes "#b000000000110" a
        ∧ valueAt ⟨6, 22⟩ (freeConstant 8 6 4) = some (.word a)
        ∧ valueAt ⟨6, 22⟩ (.concat (.atom "#b00000000") (.atom "#b0110")) = some (.word a) := by
  have hresult : (Encoder.encodeConstant ⟨4, .strict⟩ 22 6).result = .ok "#b0110" := rfl
  obtain ⟨digits, a, hkey, hwidth, hdenotes, hfree, hvalued, -⟩ :=
    @value_freeConstant 8 6 ⟨4, .strict⟩ (by decide) (by decide) (by decide) 22
  have hdigits : digits = ['0', '1', '1', '0'] := by
    have := congrArg String.toList (Except.ok.inj (hkey.symm.trans hresult))
    simpa using this
  subst hdigits
  exact ⟨hresult, a, hwidth, hdenotes, hfree, hvalued⟩

end Grammar

end Sygus

end BitSynth
