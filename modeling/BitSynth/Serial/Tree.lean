/-!
# Structured data

The values of a data format with records, lists, texts and numbers: what programs are exchanged as.
-/

namespace BitSynth.Serial

/-- A value. Numbers that are no integers are told apart from each other by nothing. -/
inductive Tree where
  | null
  | bool (b : Bool)
  | int (n : Int)
  | fraction
  | text (s : String)
  | list (items : List Tree)
  | record (fields : List (String × Tree))
deriving Repr, Inhabited

namespace Tree

/-- The value of the field, if the record has it. -/
def field? (fields : List (String × Tree)) (name : String) : Option Tree := fields.lookup name

/-- The record with a single field. -/
def tagged (tag : String) (content : Tree) : Tree := .record [(tag, content)]

/-- A natural number below the bound. -/
def nat? (bound : Nat) : Tree → Option Nat
  | .int n => if 0 ≤ n ∧ n < bound then some n.toNat else none
  | _ => none

def text? : Tree → Option String
  | .text s => some s
  | _ => none

def list? : Tree → Option (List Tree)
  | .list items => some items
  | _ => none

/-- The values of a record's fields in the given order, `none` for a missing one. A list of exactly
as many items will do as well. -/
def parts? (names : List String) : Tree → Option (List (Option Tree))
  | .record fields => some (names.map (field? fields))
  | .list items => if items.length = names.length then some (items.map some) else none
  | _ => none

end Tree

end BitSynth.Serial
