import BitSynth.Bits
import BitSynth.Serial.Tree

/-!
# Integers of any size as data

An integer is a sign and a magnitude in words of 32 bits, the least significant first. A sign of
zero and a magnitude of zero both mean zero.
-/

namespace BitSynth.Serial

/-- The base of the digits. -/
def wordBase : Nat := Bits.modulus 32

/-- The digits of a number, the least significant first and none for zero. -/
def toWords (n : Nat) : List Nat :=
  if n = 0 then [] else n % wordBase :: toWords (n / wordBase)
termination_by n
decreasing_by exact Nat.div_lt_self (by omega) (by decide)

/-- The number with these digits. -/
def ofWords : List Nat → Nat
  | [] => 0
  | w :: ws => w + wordBase * ofWords ws

theorem ofWords_toWords (n : Nat) : ofWords (toWords n) = n := by
  fun_induction toWords n with
  | case1 => rfl
  | case2 n h ih => rw [ofWords, ih, Nat.mod_add_div]

/-- The integer with a sign and a magnitude. -/
def Tree.ofInt (v : Int) : Tree :=
  .list [.int v.sign, .list ((toWords v.natAbs).map fun (w : Nat) => .int w)]

/-- Reads an integer. High digits that are zero do no harm. -/
def Tree.toInt? : Tree → Option Int
  | .list [.int sign, .list words] => do
    let ws ← words.mapM (Tree.nat? wordBase)
    if sign = 1 then some (ofWords ws)
    else if sign = -1 then some (-(ofWords ws : Int))
    else if sign = 0 then some 0
    else none
  | _ => none

end BitSynth.Serial
