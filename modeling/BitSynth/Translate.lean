import BitSynth.Script
import BitSynth.Sygus.Problem

/-!
# Translations

The forms into which a program can be translated.
-/

namespace BitSynth

/-- A script for the enumerative synthesizer, a SyGuS problem, or the arguments for a check of
feasibility. -/
inductive Target where
  | script
  | sygus
  | feasibility
deriving DecidableEq, Repr

namespace Target

def name : Target → String
  | script => "notation"
  | sygus => "sygus"
  | feasibility => "feasibility"

def ofName? (s : String) : Option Target := [script, sygus, feasibility].find? (·.name == s)

def extension : Target → String
  | script => "txt"
  | sygus => "sl"
  | feasibility => "args"

end Target

/-- The text of the program in the form of the target. -/
def Program.translate (p : Program) (target : Target) (s : Settings) : Logged String :=
  match target with
  | .script => .ofExcept (Script.text <$> Script.ofProgram p)
  | .sygus => Sygus.Problem.text <$> Sygus.Problem.ofProgram p s
  | .feasibility =>
    .ofExcept ((fun s => Script.textOfLines s.arguments) <$> Script.ofProgram p)

end BitSynth
