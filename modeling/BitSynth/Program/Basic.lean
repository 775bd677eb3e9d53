import BitSynth.Expr.Basic

/-!
# Programs

A synthesis problem: the function to build, given by a body over named inputs of one bit width, and
the library of components that a solution is built from. The library is a multiset: an entry that
is listed twice has to be used twice.
-/

namespace BitSynth

structure Spec where
  bitWidth : Nat
  inputs : List Ident
  body : Expr
deriving DecidableEq, Repr

/-- A component of the library. A constant without a value is free: a solution may pick it. -/
inductive LibraryEntry where
  | operator (name : Ident)
  | constant (width : Nat) (value : Option Literal)
  | function (name : Ident) (params : List Ident) (body : Expr)
deriving DecidableEq, Repr

structure Program where
  spec : Spec
  library : List LibraryEntry
deriving DecidableEq, Repr

def Ident.listText (names : List Ident) : String :=
  String.join (names.map fun x => " " ++ x.name)

def Spec.text (s : Spec) : String :=
  "(spec " ++ toString s.inputs.length ++ " " ++ toString s.bitWidth ++ Ident.listText s.inputs
    ++ " " ++ s.body.text ++ ")"

def LibraryEntry.text : LibraryEntry → String
  | operator name => name.name
  | constant width none => "(const " ++ toString width ++ ")"
  | constant width (some value) => "(const " ++ toString width ++ " " ++ value.text ++ ")"
  | function name params body =>
    "(fun " ++ name.name ++ Ident.listText params ++ " " ++ body.text ++ ")"

/-- The program in the syntax it is read from, a line for each block. -/
def Program.text (p : Program) : String :=
  p.spec.text ++ "\n(lib" ++ String.join (p.library.map fun e => " " ++ e.text) ++ ")"

instance : ToString LibraryEntry := ⟨LibraryEntry.text⟩

instance : ToString Program := ⟨Program.text⟩

end BitSynth
