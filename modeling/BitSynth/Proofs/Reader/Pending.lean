import BitSynth.Reader.Basic
import Mathlib.Tactic.Common

/-!
# Pending failures

Two things matter about the failure that a reader hands on: how far into the text it lies, and what
it says of the text there. Whichever way two failures are put together, the result lies as far as
the further one. It is one of the two, or the pending one with the reasons for both.
-/

namespace BitSynth

/-- The pending failure begins at that place or behind it. -/
def Reaches (n : Nat) (f : Option Failure) : Prop := ∃ g ∈ f, n ≤ g.start

variable {n : Nat} {c : Cursor} {f g : Option Failure} {items : List Expectation} {new : Failure}
  {P : Failure → Prop}

theorem not_reaches_none (n : Nat) : ¬ Reaches n none := by
  rintro ⟨g, hg, -⟩
  cases hg

theorem reaches_some : Reaches n (some new) ↔ n ≤ new.start := by
  simp [Reaches]

theorem Reaches.mono {m : Nat} (h : Reaches n f) (hle : m ≤ n) : Reaches m f := by
  obtain ⟨g, hg, hn⟩ := h
  exact ⟨g, hg, Nat.le_trans hle hn⟩

namespace Failure

theorem reaches_miss : Reaches n (some (miss c items f)) ↔ n ≤ c.offset ∨ Reaches n f := by
  cases f with
  | none => simp [reaches_some, miss, expected, not_reaches_none]
  | some g =>
    simp only [reaches_some, miss]
    split_ifs
    · show n ≤ c.offset ↔ _
      omega
    · omega
    · show n ≤ g.start ↔ _
      omega

theorem of_miss (hnew : P (expected c items)) (hold : ∀ g ∈ f, P g)
    (hjoin : ∀ g ∈ f, g.start = c.offset → P { g with reason := g.reason.add items }) :
    P (miss c items f) := by
  cases f with
  | none => exact hnew
  | some g =>
    simp only [miss]
    split_ifs with hlt hgt
    · exact hnew
    · exact hold g rfl
    · exact hjoin g rfl (by omega)

theorem reaches_merge : Reaches n (some (merge new f)) ↔ n ≤ new.start ∨ Reaches n f := by
  cases f with
  | none => simp [reaches_some, merge, not_reaches_none]
  | some g =>
    simp only [reaches_some, merge]
    split_ifs
    · omega
    · omega
    · show n ≤ g.start ↔ _
      omega

theorem of_merge (hnew : P new) (hold : ∀ g ∈ f, P g)
    (hjoin : ∀ g ∈ f, g.start = new.start →
      P { g with reason := g.reason.combine new.reason }) : P (merge new f) := by
  cases f with
  | none => exact hnew
  | some g =>
    simp only [merge]
    split_ifs with hlt hgt
    · exact hnew
    · exact hold g rfl
    · exact hjoin g rfl (by omega)

end Failure

namespace Reader

theorem reaches_rejoin : Reaches n (rejoin g f) ↔ Reaches n g ∨ Reaches n f := by
  cases g with
  | none => simp [rejoin, not_reaches_none]
  | some new => rw [rejoin, Failure.reaches_merge, reaches_some]

end Reader

end BitSynth
