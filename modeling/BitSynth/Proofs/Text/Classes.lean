import BitSynth.Expr.Basic
import BitSynth.Text.WhiteSpace
import Mathlib.Tactic.Common

/-!
# Classes of characters

A name ends where white space or a parenthesis begins, and so does a number: no character that
stands inside one of them delimits it. The first character of a name is neither a digit nor a sign.
-/

namespace BitSynth.Text

theorem exists_cons_of_isSpelling {cs : List Char} (h : Ident.isSpelling cs = true) :
    ∃ c ds, cs = c :: ds ∧ Ident.isStart c = true := by
  cases cs with
  | nil => cases h
  | cons c ds =>
    rw [Ident.isSpelling, Bool.and_eq_true] at h
    exact ⟨c, ds, rfl, h.1⟩

theorem isContinue_of_isSpelling {cs : List Char} (h : Ident.isSpelling cs = true) :
    ∀ c ∈ cs, Ident.isContinue c = true := by
  cases cs with
  | nil => cases h
  | cons d ds =>
    rw [Ident.isSpelling, Bool.and_eq_true, List.all_eq_true] at h
    exact List.forall_mem_cons.2 ⟨Ident.isContinue_of_isStart h.1, h.2⟩

/-- No range of the set meets one of the others. -/
def CodeSet.Misses (s : CodeSet) (ranges : List (Nat × Nat)) : Bool :=
  s.ranges.all fun r => ranges.all fun r' => r.2 < r'.1 || r'.2 < r.1

theorem CodeSet.not_mem_range {s : CodeSet} {ranges : List (Nat × Nat)}
    (h : s.Misses ranges = true) {c : Char} (hc : c ∈ s) :
    ¬ ∃ r ∈ ranges, r.1 ≤ c.toNat ∧ c.toNat ≤ r.2 := by
  rintro ⟨r', hr', hle⟩
  obtain ⟨r, hr, hcr⟩ := CodeSet.mem_iff.1 hc
  have := List.all_eq_true.1 (List.all_eq_true.1 h r hr) r' hr'
  simp only [Bool.or_eq_true, decide_eq_true_eq] at this
  omega

def Delimits (c : Char) : Prop := c ∈ whiteSpace ∨ c = '(' ∨ c = ')'

theorem isContinue_of_delimits {c : Char} (h : Delimits c) : Ident.isContinue c = false := by
  rcases h with h | rfl | rfl
  · have halphabetic : c ∉ alphabetic := fun hc =>
      CodeSet.not_mem_range (by decide +kernel) hc (CodeSet.mem_iff.1 h)
    have hnumeric : c ∉ numeric := fun hc =>
      CodeSet.not_mem_range (by decide +kernel) hc (CodeSet.mem_iff.1 h)
    have hline : c ≠ '_' := by
      rintro rfl
      exact absurd h (by decide)
    have hdot : c ≠ '.' := by
      rintro rfl
      exact absurd h (by decide)
    simp [Ident.isContinue, halphabetic, hnumeric, hline, hdot]
  · decide
  · decide

theorem ne_colon_of_delimits {c : Char} (h : Delimits c) : c ≠ ':' := by
  rintro rfl
  rcases h with h | h | h <;> exact absurd h (by decide)

theorem toNat_of_isDigit {c : Char} (h : c.isDigit = true) : 48 ≤ c.toNat ∧ c.toNat ≤ 57 := by
  simp only [Char.isDigit, Bool.and_eq_true, decide_eq_true_eq] at h
  exact h

theorem isContinue_of_isHexDigit {c : Char} (h : isHexDigit c = true) :
    Ident.isContinue c = true := by
  simp only [isHexDigit, Bool.or_eq_true, Bool.and_eq_true, decide_eq_true_eq] at h
  unfold Ident.isContinue
  rcases h with (h | h) | h
  · have hc : c ∈ numeric := CodeSet.mem_iff.2 ⟨(0x30, 0x39), by decide, toNat_of_isDigit h⟩
    simp [hc]
  · have hc : c ∈ alphabetic := CodeSet.mem_iff.2
      ⟨(0x61, 0x7A), by decide, h.1, Nat.le_trans h.2 (by decide)⟩
    simp [hc]
  · have hc : c ∈ alphabetic := CodeSet.mem_iff.2
      ⟨(0x41, 0x5A), by decide, h.1, Nat.le_trans h.2 (by decide)⟩
    simp [hc]

theorem isDigit_of_isStart {c : Char} (h : Ident.isStart c = true) : c.isDigit = false := by
  rw [Bool.eq_false_iff]
  intro hdigit
  have hrange := toNat_of_isDigit hdigit
  simp only [Ident.isStart, Bool.or_eq_true, decide_eq_true_eq, beq_iff_eq] at h
  rcases h with (h | rfl) | rfl
  · exact CodeSet.not_mem_range (by decide +kernel) h ⟨(48, 57), List.mem_singleton.2 rfl, hrange⟩
  · exact absurd hdigit (by decide)
  · exact absurd hdigit (by decide)

end BitSynth.Text
