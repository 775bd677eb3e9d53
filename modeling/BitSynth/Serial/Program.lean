import BitSynth.Program.Basic
import BitSynth.Serial.Integer

/-!
# Programs as data

Writing and reading programs as structured data. Each alternative of a choice is a record whose
single field names it. Reading does not look into names: they may be any text.
-/

open BitSynth.Serial.Tree

namespace BitSynth.Serial

/-- The value, or null for none. -/
def optional {α : Type} (write : α → Tree) : Option α → Tree
  | some a => write a
  | none => .null

/-- Reads what may be missing or null. -/
def optional? {α : Type} (read : Tree → Option α) : Option Tree → Option (Option α)
  | none => some none
  | some .null => some none
  | some t => (read t).map some

def ofNat (n : Nat) : Tree := .int n

/-- A number of 32 bits. -/
def nat32? (t : Tree) : Option Nat := t.nat? wordBase

def ofIdent (x : Ident) : Tree := .text x.name

def ident? (t : Tree) : Option Ident := t.text?.map Ident.mk

def ofLiteral (l : Literal) : Tree :=
  .record [("value", .ofInt l.value), ("width", optional ofNat l.width)]

def literal? (t : Tree) : Option Literal := do
  let [some value, width] ← t.parts? ["value", "width"] | none
  let v ← value.toInt?
  let w ← optional? nat32? width
  return ⟨v, w⟩

mutual

def ofExpr : Expr → Tree
  | .ident x => tagged "Ident" (ofIdent x)
  | .literal l => tagged "Literal" (ofLiteral l)
  | .app op args => tagged "App" (.record [("op", ofIdent op), ("args", .list (ofExprs args))])

def ofExprs : List Expr → List Tree
  | [] => []
  | e :: es => ofExpr e :: ofExprs es

end

mutual

def expr? : Tree → Option Expr
  | .record [(tag, content)] =>
    if tag = "Ident" then (ident? content).map .ident
    else if tag = "Literal" then (literal? content).map .literal
    else if tag = "App" then app? content
    else none
  | _ => none

/-- The operator and the arguments of an application. -/
def app? : Tree → Option Expr
  | .record fields => do
    let op ← (field? fields "op").bind ident?
    let args ← argsField? fields
    return .app op args
  | .list [op, .list args] => do
    let op ← ident? op
    let args ← exprs? args
    return .app op args
  | _ => none

def argsField? : List (String × Tree) → Option (List Expr)
  | [] => none
  | (name, content) :: fields =>
    if name = "args" then args? content else argsField? fields

def args? : Tree → Option (List Expr)
  | .list items => exprs? items
  | _ => none

def exprs? : List Tree → Option (List Expr)
  | [] => some []
  | t :: ts => do
    let e ← expr? t
    let es ← exprs? ts
    return e :: es

end

def ofIdents (names : List Ident) : Tree := .list (names.map ofIdent)

def idents? (t : Tree) : Option (List Ident) := t.list?.bind fun items => items.mapM ident?

def ofEntry : LibraryEntry → Tree
  | .operator name => tagged "Operator" (ofIdent name)
  | .constant width value =>
    tagged "Constant" (.record [("width", ofNat width), ("value", optional ofLiteral value)])
  | .function name params body =>
    tagged "Function"
      (.record [("name", ofIdent name), ("params", ofIdents params), ("body", ofExpr body)])

def entry? : Tree → Option LibraryEntry
  | .record [("Operator", name)] => (ident? name).map .operator
  | .record [("Constant", .record fields)] => do
    let width ← (field? fields "width").bind nat32?
    let value ← optional? literal? (field? fields "value")
    return .constant width value
  | .record [("Function", .record fields)] => do
    let name ← (field? fields "name").bind ident?
    let params ← (field? fields "params").bind idents?
    let body ← (field? fields "body").bind expr?
    return .function name params body
  | _ => none

def ofSpec (s : Spec) : Tree :=
  .record [("bit_width", ofNat s.bitWidth), ("inputs", ofIdents s.inputs), ("body", ofExpr s.body)]

def spec? (t : Tree) : Option Spec := do
  let [some bitWidth, some inputs, some body] ← t.parts? ["bit_width", "inputs", "body"] | none
  let w ← nat32? bitWidth
  let xs ← idents? inputs
  let e ← expr? body
  return ⟨w, xs, e⟩

def ofLibrary (entries : List LibraryEntry) : Tree :=
  .record [("entries", .list (entries.map ofEntry))]

def library? (t : Tree) : Option (List LibraryEntry) := do
  let [some entries] ← t.parts? ["entries"] | none
  let items ← entries.list?
  items.mapM entry?

/-- The program as data. -/
def ofProgram (p : Program) : Tree :=
  .record [("spec", ofSpec p.spec), ("lib", ofLibrary p.library)]

/-- The program that the data describes. -/
def program? (t : Tree) : Option Program := do
  let [some spec, some lib] ← t.parts? ["spec", "lib"] | none
  let s ← spec? spec
  let l ← library? lib
  return ⟨s, l⟩

end BitSynth.Serial
