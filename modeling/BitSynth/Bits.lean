import BitSynth.Text.Numeral

/-!
# Bit strings

Integers as bit strings of a given width, in two's complement where they are negative. A bit string
is written as `#b` and its digits.
-/

namespace BitSynth.Bits

def modulus (width : Nat) : Nat := Nat.pow 2 width

/-- The value can be held in this many bits, without sign or in two's complement. -/
def Fits (value : Int) (width : Nat) : Prop :=
  -(modulus width : Int) ≤ 2 * value ∧ value < modulus width

instance (value : Int) (width : Nat) : Decidable (Fits value width) :=
  inferInstanceAs (Decidable (_ ∧ _))

/-- The low bits of the value. -/
def truncate (value : Int) (width : Nat) : Int := value % modulus width

/-- The base-two digits of the value, behind a minus sign where it is negative. -/
def digits (value : Int) : List Char :=
  if value < 0 then '-' :: Text.toDigits 2 value.natAbs else Text.toDigits 2 value.natAbs

/-- The value with zeros in front up to the width. Nothing is ever cut off. -/
def binary (value : Int) (width : Nat) : String :=
  "#b" ++ String.ofList ((digits value).leftpad width '0')

def zeros (width : Nat) : String := "#b" ++ String.ofList (List.replicate width '0')

theorem modulus_pos (width : Nat) : 0 < modulus width := Nat.pow_pos (by decide)

theorem modulus_succ (width : Nat) : modulus (width + 1) = modulus width * 2 := rfl

theorem truncate_nonneg (value : Int) (width : Nat) : 0 ≤ truncate value width :=
  Int.emod_nonneg _ (Int.natCast_ne_zero.2 (Nat.ne_of_gt (modulus_pos width)))

theorem truncate_lt (value : Int) (width : Nat) : truncate value width < modulus width :=
  Int.emod_lt_of_pos _ (Int.natCast_pos.2 (modulus_pos width))

/-- Nothing but zero fits into no bits. -/
theorem fits_zero_iff {value : Int} : Fits value 0 ↔ value = 0 := by
  show -((1 : Nat) : Int) ≤ 2 * value ∧ value < (1 : Nat) ↔ value = 0
  omega

/-- In a positive width the least value is that of the sign bit alone. -/
theorem fits_succ_iff {value : Int} {width : Nat} :
    Fits value (width + 1) ↔ -(modulus width : Int) ≤ value ∧ value < 2 * modulus width := by
  simp only [Fits, modulus_succ]
  omega

end BitSynth.Bits
