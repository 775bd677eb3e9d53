import BitSynth.Sygus.Grammar

/-!
# SyGuS problems

The whole problem for a solver: definitions, the function to build, its inputs, the grammar of
solutions, and the constraint that a solution has the function's value and the library's tag.

Widths are natural numbers. Where the tag and a value together are too wide for a number of 32 bits,
a run on machine numbers breaks off, and otherwise it comes to the same problem
(`Machine.yields_compile_iff`).
-/

namespace BitSynth.Sygus

structure Problem where
  logic : String
  definitions : List Term
  spec : Term
  declarations : List Term
  params : Term
  sort : Term
  nonterminals : List Nonterminal
  constraint : Term
deriving DecidableEq, Repr

namespace Problem

/-- The problem for a program. Settings are checked first, then the library, then the body. -/
def ofProgram (p : Program) (s : Settings) : Logged Problem := do
  .ofExcept s.validate
  let bitWidth := p.spec.bitWidth
  let e : Encoder := ⟨bitWidth, s.policy⟩
  let l ← TaggedLibrary.ofEntries p.library e s
  .emit .debug .encoding
    ("Library partitioned into " ++ toString l.kinds.length ++ " kinds over a "
      ++ toString l.tagWidth ++ "-bit tag")
  let sort := Term.bitVec bitWidth
  let inputs := p.spec.inputs.map Ident.name
  let body ← e.encode p.spec.body
  let nonterminals ← Grammar.nonterminals l bitWidth
  let inputTerms := inputs.map Term.atom
  let wanted := Term.concat (.atom l.target) (.call "spec" inputTerms)
  return {
    logic := "BV"
    definitions := l.helpers ++ l.wrappers bitWidth
    spec := .defineFun "spec" inputs sort sort body
    declarations := inputs.map fun x => .app "declare-var" [.atom x, sort]
    params := .params inputs sort
    sort := .bitVec (l.tagWidth + bitWidth)
    nonterminals := nonterminals
    constraint := .app "constraint" [.app "=" [wanted, .call "res" inputTerms]] }

/-- The lines of the command that declares the solution and its grammar. -/
def synthFunLines (q : Problem) : List String :=
  ["(synth-fun res " ++ q.params.text ++ " " ++ q.sort.text ++ " ("]
    ++ q.nonterminals.map (fun n => "  " ++ n.text) ++ ["))"]

def lines (q : Problem) : List String :=
  ["(set-logic " ++ q.logic ++ ")"] ++ q.definitions.map Term.text ++ [q.spec.text]
    ++ q.declarations.map Term.text ++ q.synthFunLines ++ [q.constraint.text, "(check-synth)"]

/-- The problem in SyGuS format, a command on each line and the grammar spread over several. -/
def text (q : Problem) : String := String.join (q.lines.map fun l => l ++ "\n")

end Problem

end BitSynth.Sygus
