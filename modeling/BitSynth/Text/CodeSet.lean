/-!
# Sets of characters given by ranges

A property of characters is a list of closed ranges of code points in increasing order, none
touching the next. `CodeSet.mem_iff` says that the search, which stops at the first range beyond
the character, misses none.
-/

namespace BitSynth.Text

/-- The ranges follow one another, each nonempty and all above `low`. -/
def Ascending (low : Nat) : List (Nat × Nat) → Bool
  | [] => true
  | (first, last) :: ranges => low ≤ first && first ≤ last && Ascending (last + 1) ranges

/-- A set of characters, as ascending closed ranges of code points. -/
structure CodeSet where
  ranges : List (Nat × Nat)
  ascending : Ascending 0 ranges = true := by decide +kernel

namespace CodeSet

/-- Searches the ranges in order and gives up at the first one beyond `code`. -/
def search (code : Nat) : List (Nat × Nat) → Bool
  | [] => false
  | (first, last) :: ranges => first ≤ code && (code ≤ last || search code ranges)

def contains (s : CodeSet) (c : Char) : Bool := search c.toNat s.ranges

instance : Membership Char CodeSet where
  mem s c := s.contains c = true

instance (c : Char) (s : CodeSet) : Decidable (c ∈ s) :=
  inferInstanceAs (Decidable (s.contains c = true))

theorem search_eq_any {code low : Nat} {ranges : List (Nat × Nat)}
    (h : Ascending low ranges = true) :
    search code ranges = ranges.any fun r => r.1 ≤ code && code ≤ r.2 := by
  induction ranges generalizing low with
  | nil => rfl
  | cons r ranges ih =>
    obtain ⟨first, last⟩ := r
    simp only [Ascending, Bool.and_eq_true, decide_eq_true_eq] at h
    obtain ⟨⟨-, hle⟩, hrest⟩ := h
    have above : ∀ {low : Nat} {l : List (Nat × Nat)}, Ascending low l = true → code < low →
        (l.any fun r => r.1 ≤ code && code ≤ r.2) = false := by
      intro low l
      induction l generalizing low with
      | nil => simp
      | cons r l ih =>
        intro hl hc
        simp only [Ascending, Bool.and_eq_true, decide_eq_true_eq] at hl
        have := ih hl.2 (by omega)
        simp only [List.any_cons, this, Bool.or_false, Bool.and_eq_false_iff,
          decide_eq_false_iff_not]
        omega
    simp only [search, List.any_cons, ih hrest]
    by_cases h₁ : first ≤ code
    · by_cases h₂ : code ≤ last <;> simp [h₁, h₂]
    · simp [h₁, above hrest (by omega : code < last + 1)]

/-- A character is in the set exactly when one of the ranges covers it. -/
theorem mem_iff {c : Char} {s : CodeSet} :
    c ∈ s ↔ ∃ r ∈ s.ranges, r.1 ≤ c.toNat ∧ c.toNat ≤ r.2 := by
  show search c.toNat s.ranges = true ↔ _
  simp [search_eq_any s.ascending]

end CodeSet

end BitSynth.Text
