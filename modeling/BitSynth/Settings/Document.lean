/-!
# Documents of nested tables

A document gives each thing in it a path, the names that lead to it from table to table. Tables
come about in four ways, and how one did decides what may still be put into it: nothing is defined
twice, and what was written in braces is complete.
-/

namespace BitSynth.Settings

/-- The names of the tables from the outermost one on, and the name in the last of them. -/
abbrev Path := List String

/-- How a table came about. -/
inductive TableForm where
  /-- It was passed on the way to the header of another table. -/
  | implied
  /-- It had a header of its own. -/
  | headed
  /-- The dots of a key led through it. -/
  | dotted
  /-- It was written in braces. -/
  | braced
deriving DecidableEq, Repr

/-- Whether a way that makes tables of the first form may pass through one of the second. Headers
pass through all tables but those in braces, dots also not through those with a header. -/
def TableForm.passes : (form found : TableForm) → Bool
  | _, .implied => true
  | _, .dotted => true
  | .implied, .headed => true
  | _, _ => false

/-- What stands at a path. Of lists there are only those with nothing in them. -/
inductive Node where
  | number (n : Int)
  | text (s : String)
  | list
  | table (form : TableForm)
deriving DecidableEq, Repr

structure Document where
  nodes : List (Path × Node) := []
deriving DecidableEq, Repr

namespace Document

variable (d : Document)

def node? (p : Path) : Option Node := d.nodes.lookup p

/-- What stands right below the path, with its name. -/
def members (p : Path) : List (String × Node) :=
  d.nodes.filterMap fun (q, node) =>
    if q.dropLast = p then q.getLast?.map fun name => (name, node) else none

/-- The document with a node at the path in place of what was there. -/
def put (p : Path) (node : Node) : Document :=
  ⟨(p, node) :: d.nodes.filter fun n => n.1 ≠ p⟩

/-- Passes from the table at `base` through those that are named, and makes the ones that are not
there yet. -/
def pass? (form : TableForm) (d : Document) (base : Path) : List String → Option Document
  | [] => some d
  | name :: names =>
    let p := base ++ [name]
    match d.node? p with
    | none => pass? form (d.put p (.table form)) p names
    | some (.table found) => if form.passes found then pass? form d p names else none
    | some _ => none

/-- The document with a node at a path that was free. -/
def define? (p : Path) (node : Node) : Option Document :=
  if d.node? p = none then some (d.put p node) else none

/-- The document with a header for the table of this name. It is a new one, or one that was only
passed so far. -/
def head? (way : Path) (name : String) : Option Document := do
  let d ← pass? .implied d [] way
  let p := way ++ [name]
  match d.node? p with
  | none | some (.table .implied) => return d.put p (.table .headed)
  | some _ => none

end Document

end BitSynth.Settings
