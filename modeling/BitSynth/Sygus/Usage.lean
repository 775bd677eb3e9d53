import BitSynth.Bits
import Std.Data.TreeMap
import Std.Data.TreeSet

/-!
# Budgets of uses

Each kind of component may be used a limited number of times, its budget. A usage counts, kind by
kind, the uses on the way from the root of a solution to some place in it. The usages that keep
within the budgets are found breadth first; going through them backwards gives the most uses that a
whole solution can make of each kind.
-/

namespace BitSynth.Sygus

abbrev Usage := List Nat

namespace Usage

def zero (kinds : Nat) : Usage := List.replicate kinds 0

def total (u : Usage) : Nat := u.foldr (· + ·) 0

def spend (u : Usage) (kind : Nat) : Usage := u.modify kind (· + 1)

/-- A further use of the kind is within its budget. -/
def Affords (budgets : List Nat) (u : Usage) (kind : Nat) : Prop :=
  u.getD kind 0 < budgets.getD kind 0

instance (budgets : List Nat) (u : Usage) (kind : Nat) : Decidable (u.Affords budgets kind) :=
  inferInstanceAs (Decidable (_ < _))

def affordable (budgets : List Nat) (u : Usage) : List Nat :=
  (List.range budgets.length).filter (u.Affords budgets ·)

def successors (budgets : List Nat) (u : Usage) : List Usage :=
  (u.affordable budgets).map u.spend

def distinct (us : List Usage) : List Usage :=
  go ∅ us
where
  go (seen : Std.TreeSet Usage) : List Usage → List Usage
    | [] => []
    | u :: us => if seen.contains u then go seen us else u :: go (seen.insert u) us

/-- The usages found from those of one level: their successors, each once. -/
def nextLevel (budgets : List Nat) (level : List Usage) : List Usage :=
  distinct (level.flatMap (successors budgets))

/-- The level and the levels that follow it, `depth` of them. -/
def levels (budgets : List Nat) : (depth : Nat) → List Usage → List (List Usage)
  | 0, level => [level]
  | depth + 1, level => level :: levels budgets depth (nextLevel budgets level)

/-- All usages within the budgets in breadth-first order from no use at all. The last level is that
of the budgets themselves, which leave nothing to use. -/
def reachable (budgets : List Nat) : List Usage :=
  (levels budgets (total budgets) [zero budgets.length]).flatten

/-- The number that a count of uses does not exceed: the largest of 64 bits. -/
def countLimit : Nat := Bits.modulus 64 - 1

/-- For each kind, the most uses in a solution whose root is of the kind `kind` with `arity`
operands, when `below` tells the most uses in an operand. -/
def usesAt (kind arity : Nat) (below : List Nat) : List Nat :=
  below.mapIdx fun i n => min countLimit ((if i = kind then 1 else 0) + arity * n)

/-- For each kind, the most uses in a solution from the usage on, when a table tells them for its
successors. -/
def usesFrom (budgets arities : List Nat) (table : Std.TreeMap Usage (List Nat)) (u : Usage) :
    List Nat :=
  (u.affordable budgets).foldl
    (fun most kind =>
      match table[u.spend kind]? with
      | some below => List.zipWith max most (usesAt kind (arities.getD kind 0) below)
      | none => most)
    (zero budgets.length)

/-- For each kind, the most uses in a whole solution. Usages are visited in the opposite order of
their discovery, so the successors of each come before it. -/
def worstCase (budgets arities : List Nat) : List Nat :=
  let table := (reachable budgets).reverse.foldl
    (fun table u => table.insert u (usesFrom budgets arities table u))
    (∅ : Std.TreeMap Usage (List Nat))
  table.getD (zero budgets.length) (zero budgets.length)

end Usage

end BitSynth.Sygus
