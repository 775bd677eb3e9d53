import BitSynth.Bits
import Mathlib.Algebra.Group.Nat.Defs
import Mathlib.Tactic.Common

/-!
# Words

The values of a solver's bit-vector terms: bit vectors of any width, with the operations that a
translation uses. A bit string written by `Bits.binary` is read back as the word of its value
(`ofLiteral?_binary`).
-/

namespace BitSynth

structure Word where
  width : ℕ
  bits : BitVec width
deriving DecidableEq

namespace Word

theorem ext_toNat {a b : Word} (hw : a.width = b.width) (hn : a.bits.toNat = b.bits.toNat) :
    a = b := by
  obtain ⟨w, x⟩ := a
  obtain ⟨v, y⟩ := b
  obtain rfl : w = v := hw
  have hxy : x = y := BitVec.eq_of_toNat_eq hn
  rw [hxy]

/-- The bits of `b` behind those of `a`. -/
def concat (a b : Word) : Word := ⟨a.width + b.width, a.bits ++ b.bits⟩

/-- The bits from `low` to `high`, if the word has them. -/
def extract (high low : ℕ) (a : Word) : Option Word :=
  if low ≤ high ∧ high < a.width then some ⟨high - low + 1, a.bits.extractLsb high low⟩ else none

/-- The sum of two words of one width, without what exceeds the width. -/
def add? (a b : Word) : Option Word :=
  if h : b.width = a.width then some ⟨a.width, a.bits + b.bits.cast h⟩ else none

/-- The word that a bit string denotes. -/
def ofLiteral? (s : String) : Option Word :=
  match s.toList with
  | '#' :: 'b' :: d :: ds =>
    if (d :: ds).all Text.isBinaryDigit then
      some ⟨(d :: ds).length, BitVec.ofNat _ (Text.ofDigits 2 (d :: ds))⟩
    else none
  | _ => none

/-! ## Bit strings -/

theorem ofLiteral?_eq_some {s : String} {ds : List Char} (hs : s.toList = '#' :: 'b' :: ds)
    (hne : ds ≠ []) (hds : ∀ d ∈ ds, Text.isBinaryDigit d = true) :
    ofLiteral? s = some ⟨ds.length, BitVec.ofNat _ (Text.ofDigits 2 ds)⟩ := by
  obtain ⟨d, ds, rfl⟩ := List.exists_cons_of_ne_nil hne
  simp only [ofLiteral?, hs]
  exact if_pos (List.all_eq_true.2 hds)

theorem ofLiteral?_eq_none {s : String} (hs : s.toList.head? ≠ some '#') :
    ofLiteral? s = none := by
  unfold ofLiteral?
  split
  · rename_i h
    rw [h] at hs
    exact absurd rfl hs
  · rfl

theorem isBinaryDigit_of_mem_toDigits {n : ℕ} {c : Char} (h : c ∈ Text.toDigits 2 n) :
    Text.isBinaryDigit c = true := by
  induction n using Nat.strongRecOn with
  | _ n ih =>
    unfold Text.toDigits at h ih
    by_cases hn : n < 2
    · rw [Nat.toDigits_of_lt_base hn, List.mem_singleton] at h
      obtain rfl | rfl : n = 0 ∨ n = 1 := by omega
      all_goals subst h; rfl
    · rw [Nat.toDigits_of_base_le (by decide) (by omega), List.mem_append, List.mem_singleton] at h
      rcases h with h | rfl
      · exact ih (n / 2) (by omega) h
      · obtain h | h : n % 2 = 0 ∨ n % 2 = 1 := by omega
        all_goals rw [h]; rfl

theorem ofDigits_replicate_append (base n : ℕ) (ds : List Char) :
    Text.ofDigits base (List.replicate n '0' ++ ds) = Text.ofDigits base ds := by
  induction n with
  | zero => rfl
  | succ n ih =>
    rw [← ih, List.replicate_succ, List.cons_append, Text.ofDigits, List.foldl_cons]
    simp [Text.ofDigits, Text.digitValue]

/-- The text is `#b` with a binary digit for each bit of the word, and the digits denote it. -/
def Denotes (s : String) (a : Word) : Prop :=
  ∃ ds, s = "#b" ++ String.ofList ds ∧ ds.length = a.width
    ∧ (∀ d ∈ ds, Text.isBinaryDigit d = true) ∧ Text.ofDigits 2 ds = a.bits.toNat

theorem Denotes.ofLiteral? {s : String} {a : Word} (h : Denotes s a) (hw : 0 < a.width) :
    ofLiteral? s = some a := by
  obtain ⟨ds, rfl, hlen, hds, hvalue⟩ := h
  rw [@ofLiteral?_eq_some _ ds (by simp) (List.length_pos_iff.1 (hlen.symm ▸ hw)) hds]
  refine congrArg some (ext_toNat hlen ?_)
  rw [BitVec.toNat_ofNat, hvalue, hlen, Nat.mod_eq_of_lt a.bits.isLt]

/-- A number that the width holds is written with as many digits. -/
theorem denotes_binary {v width : ℕ} (hw : 0 < width) (hv : v < Bits.modulus width) :
    Denotes (Bits.binary v width) ⟨width, BitVec.ofNat width v⟩ := by
  have hdigits : Bits.digits v = Text.toDigits 2 v := by
    simp [Bits.digits]
  have hlen : (Text.toDigits 2 v).length ≤ width :=
    (Nat.length_toDigits_le_iff (by decide) hw).2 hv
  refine ⟨(Bits.digits v).leftpad width '0', rfl, ?_, fun d hd => ?_, ?_⟩
  · rw [List.length_leftpad, hdigits]
    exact Nat.max_eq_left hlen
  · rw [List.leftpad, List.mem_append, hdigits] at hd
    rcases hd with hd | hd
    · rw [List.eq_of_mem_replicate hd]
      rfl
    · exact isBinaryDigit_of_mem_toDigits hd
  · rw [List.leftpad, ofDigits_replicate_append, hdigits,
      Text.ofDigits_toDigits (by decide) (by decide), BitVec.toNat_ofNat]
    exact (Nat.mod_eq_of_lt hv).symm

/-- A number that the width holds, written in that width, is read back. -/
theorem ofLiteral?_binary {v width : ℕ} (hw : 0 < width) (hv : v < Bits.modulus width) :
    ofLiteral? (Bits.binary v width) = some ⟨width, BitVec.ofNat width v⟩ :=
  (denotes_binary hw hv).ofLiteral? hw

theorem zeros_eq_binary {width : ℕ} (hw : 0 < width) : Bits.zeros width = Bits.binary 0 width := by
  obtain ⟨n, rfl⟩ := Nat.exists_eq_succ_of_ne_zero (Nat.ne_of_gt hw)
  refine congrArg (fun ds => "#b" ++ String.ofList ds) ?_
  simp [Bits.digits, Text.toDigits, List.leftpad, List.replicate_succ']

theorem ofLiteral?_zeros {width : ℕ} (hw : 0 < width) :
    ofLiteral? (Bits.zeros width) = some ⟨width, 0⟩ := by
  rw [zeros_eq_binary hw]
  exact ofLiteral?_binary hw (Bits.modulus_pos width)

/-! ## Tagged words -/

def tagged {width : ℕ} (tagWidth n : ℕ) (v : BitVec width) : Word :=
  ⟨tagWidth + width, BitVec.ofNat tagWidth n ++ v⟩

variable {width tagWidth m n : ℕ} {v w : BitVec width}

theorem width_tagged (tagWidth n : ℕ) (v : BitVec width) :
    (tagged tagWidth n v).width = tagWidth + width := rfl

theorem toNat_tagged (v : BitVec width) :
    (tagged tagWidth n v).bits.toNat = n % 2 ^ tagWidth * 2 ^ width + v.toNat := by
  show (BitVec.ofNat tagWidth n ++ v).toNat = _
  rw [BitVec.toNat_append, ← Nat.shiftLeft_add_eq_or_of_lt v.isLt, BitVec.toNat_ofNat,
    Nat.shiftLeft_eq]

theorem extract_eq_some {high low : ℕ} {a b : Word} (hlow : low ≤ high) (hhigh : high < a.width)
    (hwidth : b.width = high - low + 1)
    (hbits : b.bits.toNat = a.bits.toNat / 2 ^ low % 2 ^ b.width) :
    a.extract high low = some b := by
  rw [extract, if_pos ⟨hlow, hhigh⟩]
  refine congrArg some (ext_toNat hwidth.symm ?_)
  rw [hbits, BitVec.extractLsb_toNat, Nat.shiftRight_eq_div_pow, hwidth]

theorem extract_tag (htag : 0 < tagWidth) (v : BitVec width) :
    (tagged tagWidth n v).extract (tagWidth + width - 1) width
      = some ⟨tagWidth, BitVec.ofNat tagWidth n⟩ := by
  have hwidth := width_tagged tagWidth n v
  refine extract_eq_some (by omega) (by omega) (by simp only; omega) ?_
  rw [toNat_tagged, Nat.add_comm, Nat.add_mul_div_right _ _ (Nat.two_pow_pos width),
    Nat.div_eq_of_lt v.isLt, Nat.zero_add]
  show n % 2 ^ tagWidth = n % 2 ^ tagWidth % 2 ^ tagWidth
  rw [Nat.mod_mod]

theorem extract_value (hwidth : 0 < width) (v : BitVec width) :
    (tagged tagWidth n v).extract (width - 1) 0 = some ⟨width, v⟩ := by
  have htotal := width_tagged tagWidth n v
  refine extract_eq_some (Nat.zero_le _) (by omega) (by simp only; omega) ?_
  show v.toNat = _ / 2 ^ 0 % 2 ^ width
  rw [toNat_tagged, Nat.pow_zero, Nat.div_one, Nat.add_comm, Nat.add_mul_mod_self_right,
    Nat.mod_eq_of_lt v.isLt]

theorem tagged_inj (htag : 0 < tagWidth) (hwidth : 0 < width) (hm : m < 2 ^ tagWidth)
    (hn : n < 2 ^ tagWidth) : tagged tagWidth m v = tagged tagWidth n w ↔ m = n ∧ v = w := by
  refine ⟨fun h => ?_, fun ⟨hmn, hvw⟩ => by rw [hmn, hvw]⟩
  have htags := congrArg (extract (tagWidth + width - 1) width) h
  have hvalues := congrArg (extract (width - 1) 0) h
  rw [extract_tag htag, extract_tag htag] at htags
  rw [extract_value hwidth, extract_value hwidth] at hvalues
  simp only [Option.some.injEq, mk.injEq, heq_eq_eq, true_and] at htags hvalues
  have := congrArg BitVec.toNat htags
  rw [BitVec.toNat_ofNat, BitVec.toNat_ofNat, Nat.mod_eq_of_lt hm, Nat.mod_eq_of_lt hn] at this
  exact ⟨this, hvalues⟩

/-- Zeros in front of a word are an empty tag in front of a wider one. -/
theorem concat_zeros {k : ℕ} (v : BitVec k) (hk : k ≤ width) :
    concat ⟨tagWidth + width - k, 0⟩ ⟨k, v⟩ = tagged tagWidth 0 (v.setWidth width) := by
  refine ext_toNat (by show tagWidth + width - k + k = tagWidth + width; omega) ?_
  have hlt : v.toNat < 2 ^ width := Nat.lt_of_lt_of_le v.isLt (Nat.pow_le_pow_right (by decide) hk)
  rw [toNat_tagged, BitVec.toNat_setWidth, Nat.mod_eq_of_lt hlt, Nat.zero_mod]
  simp [concat]

theorem foldlM_add? : ∀ (ns : List ℕ) (m : ℕ),
    (ns.map fun n => (⟨width, BitVec.ofNat width n⟩ : Word)).foldlM add?
      ⟨width, BitVec.ofNat width m⟩ = some ⟨width, BitVec.ofNat width (m + ns.foldr (· + ·) 0)⟩
  | [], m => rfl
  | n :: ns, m => by
    have hadd : add? ⟨width, BitVec.ofNat width m⟩ ⟨width, BitVec.ofNat width n⟩
        = some ⟨width, BitVec.ofNat width (m + n)⟩ := by
      rw [BitVec.ofNat_add]
      exact dif_pos rfl
    rw [List.map_cons, List.foldlM_cons, hadd, Option.bind_eq_bind, Option.bind_some,
      foldlM_add? ns, List.foldr_cons, Nat.add_assoc]

end Word

end BitSynth
