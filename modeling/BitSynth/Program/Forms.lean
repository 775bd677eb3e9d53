import BitSynth.Event
import BitSynth.Program.Basic

/-!
# Programs from forms

The reader only knows forms: a name with arguments. Here one `spec` form and one `lib` form, in
either order, become a program.
-/

namespace BitSynth

/-- The number that stands as an argument. -/
def Expr.toNumber (place : NumberPlace) (e : Expr) : Except ShapeError Nat :=
  match e with
  | .literal l =>
    match l.natValue? with
    | some n => .ok n
    | none => .error (.notANumber place e)
  | _ => .error (.notANumber place e)

/-- The name that stands as an argument. -/
def Expr.toName (place : NamePlace) : Expr → Except ShapeError Ident
  | .ident x => .ok x
  | e => .error (.notAName place e)

/-- The names that stand as arguments; the first argument that is none is the error. -/
def Expr.toNames (place : NamePlace) : List Expr → Except ShapeError (List Ident)
  | [] => .ok []
  | e :: es => do
    let x ← e.toName place
    let xs ← toNames place es
    return x :: xs

/-- The last element apart from those before it. -/
def splitLast {α : Type} (a : α) : List α → List α × α
  | [] => ([], a)
  | b :: l => let (front, last) := splitLast b l; (a :: front, last)

/-- The spec block: a count of inputs, a bit width, the names of the inputs and the body. -/
def Spec.ofArgs (args : List Expr) : Except ShapeError Spec :=
  match args with
  | count :: width :: first :: rest => do
    let (inputs, body) := splitLast first rest
    let declared ← count.toNumber .inputCount
    let bitWidth ← width.toNumber .bitWidth
    if bitWidth = 0 then throw .zeroBitWidth
    if inputs.length ≠ declared then throw (.inputCount declared inputs.length)
    let names ← Expr.toNames .specInput inputs
    return ⟨bitWidth, names, body⟩
  | _ => throw (.spec ⟨⟨Block.spec.name⟩, args⟩)

/-- The forms that a library entry with arguments can take. -/
inductive EntryTag where
  | constant
  | function
deriving DecidableEq, Repr

namespace EntryTag

def name : EntryTag → String
  | constant => "const"
  | function => "fun"

def ofName? (s : String) : Option EntryTag := [constant, function].find? (·.name == s)

end EntryTag

namespace LibraryEntry

/-- A constant: its width, and its value unless it is free. -/
def constantOf (a : App) : Except ShapeError LibraryEntry :=
  let ofWidth (width : Literal) (value : Option Literal) :=
    match width.natValue? with
    | some w => if 0 < w then .ok (.constant w value) else .error (.constant a)
    | none => .error (.constant a)
  match a.args with
  | [.literal width] => ofWidth width none
  | [.literal width, .literal value] => ofWidth width (some value)
  | _ => .error (.constant a)

/-- A function: its name, its parameters and its body. -/
def functionOf (a : App) : Except ShapeError LibraryEntry :=
  match a.args with
  | name :: first :: rest => do
    let (params, body) := splitLast first rest
    let name ← name.toName .functionName
    let params ← Expr.toNames .functionParameter params
    return .function name params body
  | _ => .error (.function a)

/-- The entry that an expression in the library block stands for. -/
def ofExpr : Expr → Except Error LibraryEntry
  | .ident x => .ok (.operator x)
  | .literal l => .error (.unsupportedEntry l)
  | .app op args =>
    match EntryTag.ofName? op.name with
    | some .constant => (constantOf ⟨op, args⟩).mapError .shape
    | some .function => (functionOf ⟨op, args⟩).mapError .shape
    | none => .error (.shape (.unknownEntryTag op))

/-- The entries of the library block, of which there is at least one. -/
def ofArgs (args : List Expr) : Except Error (List LibraryEntry) :=
  if args.isEmpty then .error (.shape .emptyLibrary) else args.mapM ofExpr

end LibraryEntry

namespace Program

/-- The blocks met so far. -/
structure Blocks where
  spec : Option Spec := none
  library : Option (List LibraryEntry) := none

/-- Adds the block that a form stands for. -/
def Blocks.add (b : Blocks) (form : App) : Except Error Blocks :=
  match Block.ofName? form.op.name with
  | none => .error (.shape (.unknownTag form.op))
  | some .spec =>
    if b.spec.isSome then .error (.shape (.duplicateBlock .spec))
    else do
      let s ← (Spec.ofArgs form.args).mapError Error.shape
      return { b with spec := some s }
  | some .lib =>
    if b.library.isSome then .error (.shape (.duplicateBlock .lib))
    else do
      let l ← LibraryEntry.ofArgs form.args
      return { b with library := some l }

/-- The program that the blocks make. -/
def Blocks.program (b : Blocks) : Except Error Program :=
  match b.spec, b.library with
  | none, _ => .error (.shape (.missingBlock .spec))
  | some _, none => .error (.shape (.missingBlock .lib))
  | some s, some l => .ok ⟨s, l⟩

/-- The program that the forms describe, in whichever order the blocks come. -/
def ofForms (forms : List App) : Except Error Program := do
  let blocks ← forms.foldlM Blocks.add {}
  blocks.program

end Program

end BitSynth
