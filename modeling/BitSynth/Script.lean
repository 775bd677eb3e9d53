import BitSynth.Operator
import BitSynth.Program.Forms
import BitSynth.Term

/-!
# Scripts for an enumerative synthesizer

The synthesizer is driven by a script of commands, one per line: the bit width, the function to
build, the library, and a fixed ending. It makes no bit vectors of truth values, so a comparison in
the library is given to it as a function that picks one or zero.
-/

namespace BitSynth.Script

mutual

/-- The expression as the synthesizer reads it. Only the bounds of an extraction differ from how a
program is written: they are plain numbers. -/
def exprTerm : Expr → Except Error Term
  | .ident x => .ok (.atom x.name)
  | .literal l => .ok (.atom l.text)
  | .app op args =>
    if op.name = Extraction.operator then
      match args with
      | [.literal low, .literal high, operand] => do
        let t ← exprTerm operand
        return .app op.name [.atom (toString low.value), .atom (toString high.value), t]
      | _ => .error (.malformedExtract ⟨op, args⟩)
    else do
      let ts ← exprTerms args
      return .app op.name ts

def exprTerms : List Expr → Except Error (List Term)
  | [] => .ok []
  | e :: es => do
    let t ← exprTerm e
    let ts ← exprTerms es
    return t :: ts

end

/-- An item of the library line. -/
inductive Item where
  | operator (name : String)
  | constant (width : Nat) (value : Option Int)
  | function (name : String) (params : List String) (body : Term)
deriving DecidableEq, Repr

namespace Item

/-- A comparison of two operands, as a function to one or zero. -/
def ofRelation (r : Relation) (bitWidth : Nat) : Item :=
  .function r.name ["x", "y"]
    (.app Operator.ite [.app r.name [.atom "x", .atom "y"], .atom ("1:" ++ toString bitWidth),
      .atom ("0:" ++ toString bitWidth)])

/-- The item for a library entry at the bit width of the program. -/
def ofEntry (bitWidth : Nat) : LibraryEntry → Except Error Item
  | .operator name =>
    match Relation.ofName? name.name with
    | some r => .ok (ofRelation r bitWidth)
    | none => .ok (.operator name.name)
  | .constant width value => .ok (.constant width (value.map Literal.value))
  | .function name params body => do
    let t ← exprTerm body
    return .function name.name (params.map Ident.name) t

def text : Item → String
  | operator name => name
  | constant width none => "const " ++ toString width
  | constant width (some value) => "const " ++ toString width ++ " " ++ toString value
  | function name params body =>
    "(" ++ name ++ ", " ++ toString params.length ++ ", "
      ++ String.join (params.map fun p => p ++ " ") ++ "-> " ++ body.text ++ ")"

end Item

end Script

/-- What a script tells the synthesizer. -/
structure Script where
  bitWidth : Nat
  inputs : List String
  body : Term
  library : List Script.Item
deriving DecidableEq, Repr

namespace Script

/-- The script for a program. The library is converted before the body. -/
def ofProgram (p : Program) : Except Error Script := do
  let library ← p.library.mapM (Item.ofEntry p.spec.bitWidth)
  let body ← exprTerm p.spec.body
  return ⟨p.spec.bitWidth, p.spec.inputs.map Ident.name, body, library⟩

/-- The function to build: its inputs, an arrow and its body. -/
def specText (s : Script) : String :=
  String.join (s.inputs.map fun x => x ++ " ") ++ "-> " ++ s.body.text

/-- The commands after the library. -/
def ending : List String := ["algo list", "timing", "synth", "quit"]

def lines (s : Script) : List String :=
  ["bitwidth " ++ toString s.bitWidth,
    "spec " ++ toString s.inputs.length ++ " " ++ s.specText,
    "lib " ++ ", ".intercalate (s.library.map Item.text)] ++ ending

/-- Lines of text, each with its end. -/
def textOfLines (lines : List String) : String := String.join (lines.map fun l => l ++ "\n")

def text (s : Script) : String := textOfLines s.lines

/-- The same content for a check of feasibility, as a list of arguments: bit width, number of
inputs, function, and an argument for each item of the library. -/
def arguments (s : Script) : List String :=
  toString s.bitWidth :: toString s.inputs.length :: s.specText :: s.library.map Item.text

end Script

end BitSynth
