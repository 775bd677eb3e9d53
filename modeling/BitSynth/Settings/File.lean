import BitSynth.Settings.Basic
import BitSynth.Settings.Document
import BitSynth.Settings.Lexeme

/-!
# Settings files

Settings are kept in a TOML document with at most two entries, `tag_bits`, an integer, and
`literal_policy`, the name of a policy. The name may be given as a text or as a table that has
nothing but an empty table or list of that name in it. The reader knows as much of TOML as such a
document can hold. Whatever else a document may hold cannot be a setting, so it is refused like a
document that is no TOML.
-/

namespace BitSynth.Settings.File

open Lexeme

/-- What is left behind blanks, comments and line ends. -/
def skipFiller (cs : List Char) : List Char :=
  match restOfLine? cs with
  | some left => if left.length < cs.length then skipFiller left else left
  | none => skipBlanks cs
termination_by cs.length

/-- A key: the names before its last dot, the name behind it, and what is left. -/
def key? (cs : List Char) : Option ((Path × String) × List Char) :=
  match name? (skipBlanks cs) with
  | none => none
  | some (name, left) =>
    match skipBlanks left with
    | '.' :: left =>
      if left.length < cs.length then
        (key? left).map fun ((way, last), left) => ((name :: way, last), left)
      else none
    | left => some (([], name), left)
termination_by cs.length

/-- A reader of values: it puts the value into the document at the path. -/
abbrev ValueReader := Document → Path → List Char → Option (Document × List Char)

/-- Reads the equals sign behind a key in the table at `base`, and the value. -/
def assign? (value : ValueReader) (skip : List Char → List Char) (d : Document) (base : Path)
    (key : Path × String) (cs : List Char) : Option (Document × List Char) :=
  match skip cs with
  | '=' :: cs => do
    let d ← Document.pass? .dotted d base key.1
    value d (base ++ key.1 ++ [key.2]) (skip cs)
  | _ => none

/-- Reads the entries of a table in braces, up to the closing one. -/
def entries? (value : ValueReader) (d : Document) (base : Path) (cs : List Char) :
    Option (Document × List Char) :=
  match skipFiller cs with
  | '\x7d' :: left => some (d, left)
  | inner => do
    let (key, left) ← key? inner
    let (d, left) ← assign? value skipFiller d base key left
    match skipFiller left with
    | '\x7d' :: left => some (d, left)
    | ',' :: left => if left.length < cs.length then entries? value d base left else none
    | _ => none
termination_by cs.length

/-- Reads a text or an integer. -/
def scalar? (cs : List Char) : Option (Node × List Char) :=
  match text? true cs with
  | some (text, left) => some (.text (String.ofList text), left)
  | none =>
    let isPart (c : Char) := c.isAlphanum || c == '_' || c == '+' || c == '-'
    (integer? (cs.takeWhile isPart)).map fun n => (.number n, cs.dropWhile isPart)

/-- Reads a value with tables in braces nested `depth` deep at most. -/
def value? : (depth : Nat) → ValueReader
  | depth, d, p, cs =>
    match depth, cs with
    | _, '[' :: cs =>
      match skipFiller cs with
      | ']' :: left => (d.define? p .list).map fun d => (d, left)
      | _ => none
    | depth + 1, '\x7b' :: cs => do
      let d ← d.define? p (.table .braced)
      entries? (value? depth) d p cs
    | _, cs => do
      let (node, left) ← scalar? cs
      let d ← d.define? p node
      return (d, left)

/-- Reads a header and the end of its line: the document with the table, and the path of it. -/
def header? (d : Document) (cs : List Char) : Option ((Document × Path) × List Char) := do
  let ((way, name), left) ← key? cs
  match left with
  | ']' :: left =>
    let left ← restOfLine? left
    let d ← d.head? way name
    return ((d, way ++ [name]), left)
  | _ => none

/-- Reads an entry of the table at `base` and the end of its line. -/
def entry? (d : Document) (base : Path) (cs : List Char) : Option (Document × List Char) := do
  let (key, left) ← key? cs
  let (d, left) ← assign? (value? cs.length) skipBlanks d base key left
  let left ← restOfLine? left
  return (d, left)

/-- Reads lines up to the end; entries go into the table at `base` until there is a header. -/
def lines? (d : Document) (base : Path) (cs : List Char) : Option Document :=
  match skipFiller cs with
  | [] => some d
  | '[' :: inner => do
    let ((d, base), left) ← header? d inner
    if left.length < cs.length then lines? d base left else none
  | inner => do
    let (d, left) ← entry? d base inner
    if left.length < cs.length then lines? d base left else none
termination_by cs.length

/-- A document may begin with a byte order mark. -/
def withoutMark : List Char → List Char
  | '\ufeff' :: cs => cs
  | cs => cs

/-- The number of bits, which must be one of 32 bits. -/
def tagBits? : Node → Option Nat
  | .number n => if 0 ≤ n ∧ n < Bits.modulus 32 then some n.toNat else none
  | _ => none

/-- The name that the node at the path stands for. A table stands for the only name in it if there
is nothing more to that name. -/
def choice? (d : Document) (p : Path) : Node → Option String
  | .text s => some s
  | .table _ =>
    match d.members p with
    | [(name, .list)] => some name
    | [(name, .table _)] => if d.members (p ++ [name]) = [] then some name else none
    | _ => none
  | _ => none

/-- The setting that is read from the node of this name, or the usual one if there is none. -/
def setting? {α : Type} (d : Document) (name : String) (usual : α) (read : Node → Option α) :
    Option α :=
  match d.node? [name] with
  | none => some usual
  | some node => read node

/-- The settings in a document with no others. -/
def settings? (d : Document) : Option Settings :=
  if (d.members []).all fun m => m.1 = "tag_bits" ∨ m.1 = "literal_policy" then do
    let usual : Settings := {}
    let tagBits ← setting? d "tag_bits" usual.tagBits tagBits?
    let policy ← setting? d "literal_policy" usual.policy fun node =>
      (choice? d ["literal_policy"] node).bind LiteralPolicy.ofName?
    return { tagBits := tagBits, policy := policy }
  else none

end File

/-- The settings that a document holds, if it is one of settings. They may still be invalid. -/
def ofText? (text : String) : Option Settings := do
  let d ← File.lines? {} [] (File.withoutMark text.toList)
  File.settings? d

end BitSynth.Settings
