import BitSynth.Reader.Failure
import BitSynth.Text.WhiteSpace

/-!
# Readers

A reader starts at a cursor and either produces a value and the cursor behind it, or fails. Beside
that it hands on the pending failure, which survives both outcomes: going back to try something
else forgets nothing.
-/

namespace BitSynth

/-- A reader for values of one kind, with its effect on the pending failure. -/
def Reader (α : Type) : Type :=
  Cursor → Option Failure → Option (α × Cursor) × Option Failure

namespace Reader

variable {α β : Type}

instance : Monad Reader where
  pure a := fun c f => (some (a, c), f)
  bind p k := fun c f =>
    match p c f with
    | (some (a, c'), f') => k a c' f'
    | (none, f') => (none, f')

/-- The first reader, and the second from the same place if the first fails. -/
def orElse (p : Reader α) (q : Unit → Reader α) : Reader α := fun c f =>
  match p c f with
  | (some r, f') => (some r, f')
  | (none, f') => q () c f'

instance : OrElse (Reader α) := ⟨orElse⟩

/-- Fails at once and reports nothing. -/
def fail : Reader α := fun _ f => (none, f)

/-- The value if it is there, and otherwise none, with nothing read. -/
def optional (p : Reader α) : Reader (Option α) := fun c f =>
  match p c f with
  | (some (a, c'), f') => (some (some a, c'), f')
  | (none, f') => (some (none, c), f')

/-- As many values as follow one another. A value that takes no characters ends the run. -/
def many (p : Reader α) : Reader (List α) := fun c f =>
  match p c f with
  | (none, f') => (some ([], c), f')
  | (some (a, c'), f') =>
    if c'.rest.length < c.rest.length then
      match many p c' f' with
      | (some (as, c''), f'') => (some (a :: as, c''), f'')
      | (none, f'') => (none, f'')
    else (some ([], c), f')
termination_by c => c.rest.length

/-- One value or more. -/
def many1 (p : Reader α) : Reader (List α) := do
  let a ← p
  let as ← many p
  return a :: as

/-- Reads one of the characters. -/
def oneOf (chars : List Char) : Reader Char := fun c f =>
  match c.rest.head? with
  | some d =>
    if d ∈ chars then (some (d, c.next), f)
    else (none, some (Failure.miss c (chars.map .char) f))
  | none => (none, some (Failure.miss c (chars.map .char) f))

/-- Reads the character. -/
def char (d : Char) : Reader Unit := do
  let _ ← oneOf [d]

/-- Reads nothing, at the end of the text only. -/
def endOfInput : Reader Unit := fun c f =>
  match c.rest with
  | [] => (some ((), c), f)
  | _ :: _ => (none, some (Failure.miss c [.endOfInput] f))

/-- A class of characters, and what a message calls it at a place where none of them stands. -/
structure CharClass where
  holds : Char → Bool
  missed : Cursor → Expectation

namespace CharClass

def ofName (holds : Char → Bool) (e : Expectation) : CharClass := ⟨holds, fun _ => e⟩

/-- A class that a message has no name for. -/
def unnamed (holds : Char → Bool) : CharClass where
  holds := holds
  missed c := if c.rest.isEmpty then .anything else .somethingElse

end CharClass

/-- Reads a character of the class. -/
def charOf (k : CharClass) : Reader Char := fun c f =>
  match c.rest.head? with
  | some d =>
    if k.holds d then (some (d, c.next), f)
    else (none, some (Failure.merge (Failure.expected c [k.missed c]) f))
  | none => (none, some (Failure.merge (Failure.expected c [k.missed c]) f))

/-- Reads all the characters of the class that follow. -/
def run (k : CharClass) : Reader (List Char) := fun c f =>
  let c' := c.skip k.holds
  (some (c.rest.takeWhile k.holds, c'),
    some (Failure.merge (Failure.expected c' [k.missed c']) f))

/-- Reads one character of the class or more. -/
def run1 (k : CharClass) : Reader (List Char) := do
  let d ← charOf k
  let ds ← run k
  return d :: ds

/-- Reads all white space that follows. -/
def space : Reader Unit := fun c f => (some ((), c.skip (· ∈ Text.whiteSpace)), f)

/-- The reader with white space around what it reads. -/
def spaced (p : Reader α) : Reader α := do
  space
  let a ← p
  space
  return a

/-- The pending failure with one that came about apart from it. -/
def rejoin : Option Failure → Option Failure → Option Failure
  | none, f => f
  | some new, f => some (new.merge f)

/-- Keeps the failures inside the reader to themselves until it is done. -/
def apart (p : Reader α) : Reader α := fun c f =>
  match p c none with
  | (r, inner) => (r, rejoin inner f)

/-- Reads a production that messages call by its name. -/
def named (prod : Production) (p : Reader α) : Reader α := fun c f =>
  match p c none with
  | (r, inner) => (r, rejoin (inner.map (Failure.named prod c.offset)) f)

/-- Reads a whole text. -/
def parse (p : Reader α) (text : String) : Except LexError α :=
  let whole : Reader α := do
    let a ← p
    endOfInput
    return a
  match whole (.ofString text) none with
  | (some (a, _), _) => .ok a
  | (none, some f) => .error (.ofFailure f)
  | (none, none) => .error (.ofFailure (Failure.expected (.ofString text) []))

end Reader

end BitSynth
