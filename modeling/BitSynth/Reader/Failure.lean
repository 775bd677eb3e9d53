import BitSynth.Text.Escape

/-!
# Why a text was not read

A reader that fails at some character goes back and tries something else, so many failures come
about on the way. One of them is kept: the one furthest into the text, with everything that was
expected there. If in the end the text is rejected, that failure is the error.
-/

namespace BitSynth

/-- The productions of the grammar that a message calls by name. -/
inductive Production where
  | form
  | parenthesized
  | expression
  | identifier
  | number
  | hexadecimal
  | binary
  | decimal
  | bitWidth
deriving DecidableEq, Repr

def Production.text : Production → String
  | form => "top-level form"
  | parenthesized => "parenthesized expression"
  | expression => "expression"
  | identifier => "identifier"
  | number => "number"
  | hexadecimal => "hexadecimal number"
  | binary => "binary number"
  | decimal => "decimal number"
  | bitWidth => "bit width"

/-- What could have stood where the reader stopped. -/
inductive Expectation where
  | char (c : Char)
  | digit
  | anything
  | somethingElse
  | endOfInput
  | production (p : Production)
deriving DecidableEq, Repr

def Expectation.text : Expectation → String
  | char c => "'" ++ c.toString ++ "'"
  | digit => "digit"
  | anything => "any"
  | somethingElse => "something else"
  | endOfInput => "end of input"
  | production p => p.text

/-- A place in the text: the characters still to be read and the number of bytes before them. -/
structure Cursor where
  rest : List Char
  offset : Nat
deriving DecidableEq, Repr

/-- The length in UTF-8. -/
def byteSize (cs : List Char) : Nat := cs.foldr (fun c n => c.utf8Size + n) 0

namespace Cursor

def ofString (s : String) : Cursor := ⟨s.toList, 0⟩

/-- The place behind the longest run of characters in the class. -/
def skip (c : Cursor) (p : Char → Bool) : Cursor :=
  ⟨c.rest.dropWhile p, c.offset + byteSize (c.rest.takeWhile p)⟩

/-- The place behind the next character, the same place at the end. -/
def next (c : Cursor) : Cursor :=
  match c.rest with
  | [] => c
  | d :: ds => ⟨ds, c.offset + d.utf8Size⟩

end Cursor

/-- What was wrong at the place of a failure. -/
inductive Reason where
  | expected (items : List Expectation) (found : Option Char)
  | widthOutOfRange (digits : String)
deriving DecidableEq, Repr

namespace Reason

/-- Both lists without repetition, the second behind the first. -/
def union (first second : List Expectation) : List Expectation :=
  second.foldl (fun l e => if e ∈ l then l else l ++ [e]) first

/-- Two reasons at one place. Of two lists the longer comes first; a width out of range outweighs
any list, and the earlier of two such widths stays. -/
def combine : Reason → Reason → Reason
  | .widthOutOfRange ds, _ => .widthOutOfRange ds
  | .expected _ _, .widthOutOfRange ds => .widthOutOfRange ds
  | .expected old found, .expected new _ =>
    .expected (if old.length < new.length then union new old else union old new) found

/-- The reason with further items expected at its place. -/
def add (items : List Expectation) : Reason → Reason
  | .expected old found => .expected (union old items) found
  | .widthOutOfRange ds => .widthOutOfRange ds

/-- The character that was found, if the reason tells one. -/
def found : Reason → Option Char
  | .expected _ c => c
  | .widthOutOfRange _ => none

/-- Alternatives in prose: all but the last with a comma, the last after "or". -/
def listText : List Expectation → String
  | [] => "something else"
  | [e] => e.text
  | [e, e'] => e.text ++ ", or " ++ e'.text
  | e :: es => e.text ++ ", " ++ listText es

def text : Reason → String
  | .expected items found =>
    let what := match found with
      | some c => "'" ++ c.toString ++ "'"
      | none => "end of input"
    "found " ++ what ++ " expected " ++ listText items
  | .widthOutOfRange ds => "bit width out of range: " ++ ds

end Reason

/-- A failure over the bytes from `start` to `stop`. -/
structure Failure where
  start : Nat
  stop : Nat
  reason : Reason
deriving DecidableEq, Repr

namespace Failure

/-- The items were expected at the cursor. The failure spans the character found there. -/
def expected (c : Cursor) (items : List Expectation) : Failure :=
  ⟨c.offset, c.next.offset, .expected items c.rest.head?⟩

/-- The pending failure after the items were missed at the cursor: the further of the two, and at
the same place the pending one with the items added. -/
def miss (c : Cursor) (items : List Expectation) : Option Failure → Failure
  | none => expected c items
  | some f =>
    if f.start < c.offset then expected c items
    else if c.offset < f.start then f
    else { f with reason := f.reason.add items }

/-- The pending failure after another one came about: the further of the two, and at the same place
the pending one with their reasons combined. -/
def merge (new : Failure) : Option Failure → Failure
  | none => new
  | some old =>
    if old.start < new.start then new
    else if new.start < old.start then old
    else { old with reason := old.reason.combine new.reason }

/-- The failure seen from outside a production that began at `start`: what was missed at its first
character is the production as a whole. -/
def named (p : Production) (start : Nat) (f : Failure) : Failure :=
  if f.start = start then { f with reason := .expected [.production p] f.reason.found } else f

end Failure

/-- The rejection of a text. -/
structure LexError where
  found : Option Char
  start : Nat
  stop : Nat
  message : String
deriving DecidableEq, Repr

namespace LexError

def ofFailure (f : Failure) : LexError := ⟨f.reason.found, f.start, f.stop, f.reason.text⟩

def text (e : LexError) : String :=
  let what := match e.found with
    | some c => "character `" ++ Text.escape c ++ "`"
    | none => "end of input"
  "unexpected " ++ what ++ " at offset " ++ toString e.start ++ ": " ++ e.message

end LexError

end BitSynth
