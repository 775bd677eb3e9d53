import BitSynth.Error

/-!
# Settings

How wide the usage counters are, and what becomes of a literal that does not fit its width.
-/

namespace BitSynth

/-- What to do with a literal that does not fit: keep its low bits with a warning, or refuse it. -/
inductive LiteralPolicy where
  | truncate
  | strict
deriving DecidableEq, Repr

namespace LiteralPolicy

def name : LiteralPolicy → String
  | truncate => "truncate"
  | strict => "strict"

def ofName? (s : String) : Option LiteralPolicy := [truncate, strict].find? (·.name == s)

end LiteralPolicy

structure Settings where
  tagBits : Nat := 4
  policy : LiteralPolicy := .truncate
deriving DecidableEq, Repr

namespace Settings

/-- The largest count that a kind of component may reach. -/
def maxCount (s : Settings) : Nat := BitSynth.maxCount s.tagBits

/-- The counters have at least one bit and at most sixteen. -/
def Valid (s : Settings) : Prop := 1 ≤ s.tagBits ∧ s.tagBits ≤ maxTagBits

instance (s : Settings) : Decidable s.Valid := inferInstanceAs (Decidable (_ ∧ _))

def validate (s : Settings) : Except Error Unit :=
  if s.Valid then .ok () else .error (.invalidTagBits s.tagBits)

theorem validate_eq_ok_iff {s : Settings} {u : Unit} : s.validate = .ok u ↔ s.Valid := by
  unfold validate
  split <;> simp [*]

end Settings

end BitSynth
