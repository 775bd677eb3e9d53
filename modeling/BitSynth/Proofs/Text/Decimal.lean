import BitSynth.Text.Numeral
import Mathlib.Tactic.Common

/-!
# Decimal numerals

A natural number is written as its decimal digits, so it can be read back, and two numbers with one
numeral are equal. A negative integer has a minus sign in front.
-/

namespace BitSynth.Text

theorem toList_toString_nat (n : Nat) : (toString n).toList = toDigits 10 n :=
  Nat.toList_repr

theorem toDigits_inj {m n : Nat} (h : toDigits 10 m = toDigits 10 n) : m = n := by
  have hread (n : Nat) : ofDigits 10 (toDigits 10 n) = n :=
    ofDigits_toDigits (by decide) (by decide)
  rw [← hread m, h, hread]

theorem toString_nat_inj {m n : Nat} (h : toString m = toString n) : m = n := by
  refine toDigits_inj ?_
  rw [← toList_toString_nat, h, toList_toString_nat]

theorem isDigit_of_mem_toDigits {n : Nat} {c : Char} (h : c ∈ toDigits 10 n) : c.isDigit = true :=
  Nat.isDigit_of_mem_toDigits (by decide) (by decide) h

/-- The first digit of a numeral is followed by digits only. -/
theorem toDigits_eq_cons (n : Nat) : ∃ d ds, toDigits 10 n = d :: ds ∧ d.isDigit = true
    ∧ ∀ c ∈ ds, c.isDigit = true := by
  have hmem {c : Char} := isDigit_of_mem_toDigits (n := n) (c := c)
  cases h : toDigits 10 n with
  | nil => exact absurd h Nat.toDigits_ne_nil
  | cons d ds =>
    rw [h] at hmem
    exact ⟨d, ds, rfl, hmem (List.mem_cons_self ..), fun c hc => hmem (List.mem_cons_of_mem d hc)⟩

theorem toList_toString_int (v : Int) : (toString v).toList
    = if v < 0 then '-' :: toDigits 10 v.natAbs else toDigits 10 v.natAbs := by
  cases v with
  | ofNat n => exact toList_toString_nat n
  | negSucc n =>
    show ("-" ++ toString (n + 1)).toList = _
    rw [String.toList_append, toList_toString_nat, if_pos (Int.negSucc_lt_zero n)]
    rfl

theorem of_mem_toString_int {v : Int} {c : Char} (h : c ∈ (toString v).toList) :
    c = '-' ∨ c.isDigit = true := by
  rw [toList_toString_int] at h
  split_ifs at h
  · exact (List.mem_cons.1 h).imp_right isDigit_of_mem_toDigits
  · exact .inr (isDigit_of_mem_toDigits h)

theorem toString_int_inj {v w : Int} (h : toString v = toString w) : v = w := by
  have hminus (n : Nat) (ds : List Char) : toDigits 10 n ≠ '-' :: ds := fun h => by
    have hmem : '-' ∈ toDigits 10 n := h ▸ List.mem_cons_self ..
    cases isDigit_of_mem_toDigits hmem
  have h := congrArg String.toList h
  rw [toList_toString_int, toList_toString_int] at h
  split_ifs at h with hv hw hw
  · have := toDigits_inj (List.cons.inj h).2
    omega
  · exact absurd h.symm (hminus _ _)
  · exact absurd h (hminus _ _)
  · have := toDigits_inj h
    omega

end BitSynth.Text
