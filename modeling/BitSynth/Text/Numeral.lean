/-!
# Digits

Numbers as runs of digits in bases two, ten and sixteen, the most significant digit first. Printing
is `Nat.toDigits`; `ofDigits_toDigits` reads its digits back.
-/

namespace BitSynth.Text

def isBinaryDigit (c : Char) : Bool := c == '0' || c == '1'

/-- A hexadecimal digit, its letters in either case. -/
def isHexDigit (c : Char) : Bool :=
  c.isDigit || 'a' ≤ c && c ≤ 'f' || 'A' ≤ c && c ≤ 'F'

/-- The value of a digit; letters of either case count from ten. -/
def digitValue (c : Char) : Nat :=
  if c ≤ '9' then c.toNat - '0'.toNat
  else if c ≤ 'Z' then c.toNat - 'A'.toNat + 10
  else c.toNat - 'a'.toNat + 10

/-- The number that a run of digits denotes in the given base. -/
def ofDigits (base : Nat) (digits : List Char) : Nat :=
  digits.foldl (fun n c => base * n + digitValue c) 0

def toDigits (base n : Nat) : List Char := Nat.toDigits base n

theorem digitValue_of_isDigit {c : Char} (h : c.isDigit = true) :
    digitValue c = c.toNat - '0'.toNat := by
  have : c ≤ '9' := by
    simp only [Char.isDigit, Bool.and_eq_true, decide_eq_true_eq] at h
    exact h.2
  simp [digitValue, this]

/-- Over decimal digits the value is the standard library's. -/
theorem ofDigits_eq_ofDigitChars {base : Nat} {digits : List Char}
    (h : ∀ c ∈ digits, c.isDigit = true) :
    ofDigits base digits = Nat.ofDigitChars base digits 0 := by
  unfold ofDigits Nat.ofDigitChars
  generalize 0 = n
  induction digits generalizing n with
  | nil => rfl
  | cons c cs ih =>
    simp only [List.foldl_cons, digitValue_of_isDigit (h c (by simp))]
    exact ih (fun d hd => h d (by simp [hd])) _

/-- Reading gives back every number printed in a base up to ten. -/
theorem ofDigits_toDigits {base n : Nat} (h : 1 < base) (h₁₀ : base ≤ 10) :
    ofDigits base (toDigits base n) = n := by
  rw [toDigits, ofDigits_eq_ofDigitChars fun c hc => Nat.isDigit_of_mem_toDigits (by omega) h₁₀ hc]
  exact Nat.ofDigitChars_toDigits h h₁₀

end BitSynth.Text
