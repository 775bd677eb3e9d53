import BitSynth.Main
import BitSynth.Serial.Program
import BitSynth.Proofs.Usage.Reachable
import BitSynth.Proofs.Usage.Tree
import BitSynth.Proofs.Usage.WorstCase
import BitSynth.Proofs.Usage.Greatest
import BitSynth.Proofs.Usage.Relabelling
import BitSynth.Proofs.Usage.Queue
import BitSynth.Proofs.Usage.Enumeration
import BitSynth.Proofs.Library.Kinds
import BitSynth.Proofs.Library.Tags
import BitSynth.Proofs.Library.Entries
import BitSynth.Proofs.Library.Order
import BitSynth.Proofs.Library.Counts
import BitSynth.Proofs.Library.Overflow
import BitSynth.Proofs.Encoder.Policy
import BitSynth.Proofs.Encoder.Condition
import BitSynth.Proofs.Grammar.Derivation
import BitSynth.Proofs.Grammar.Names
import BitSynth.Proofs.Grammar.Language
import BitSynth.Proofs.Grammar.Problem
import BitSynth.Proofs.Text.Classes
import BitSynth.Proofs.Text.Decodable
import BitSynth.Proofs.Reader.Combinators
import BitSynth.Proofs.Reader.Token
import BitSynth.Proofs.Reader.Spelling
import BitSynth.Proofs.Reader.Printing
import BitSynth.Proofs.Reader.Layout
import BitSynth.Proofs.Reader.Reading
import BitSynth.Proofs.Reader.Pending
import BitSynth.Proofs.Reader.Composed
import BitSynth.Proofs.Reader.Regular
import BitSynth.Proofs.Reader.Lookahead
import BitSynth.Proofs.Reader.Found
import BitSynth.Proofs.Reader.Stops
import BitSynth.Proofs.Reader.Completion
import BitSynth.Proofs.Reader.CorrectPrefix
import BitSynth.Proofs.Reader.Rejection
import BitSynth.Proofs.Reader.Inversion
import BitSynth.Proofs.Reader.Enclosure
import BitSynth.Proofs.Reader.Concatenation
import BitSynth.Proofs.Program.Shape
import BitSynth.Proofs.Program.RoundTrip
import BitSynth.Proofs.Term.Plain
import BitSynth.Proofs.Term.Reading
import BitSynth.Proofs.Grammar.Plain
import BitSynth.Proofs.Grammar.Commands
import BitSynth.Proofs.Script.Decoding
import BitSynth.Proofs.Solver.Word
import BitSynth.Proofs.Solver.Meaning
import BitSynth.Proofs.Solver.Resizing
import BitSynth.Proofs.Solver.Wrapper
import BitSynth.Proofs.Solver.Solution
import BitSynth.Proofs.Solver.Sorts
import BitSynth.Proofs.Solver.Helpers
import BitSynth.Proofs.Solver.WrapperSort
import BitSynth.Proofs.Encoder.Widening
import BitSynth.Proofs.Encoder.BitStrings
import BitSynth.Proofs.Expr.Parts
import BitSynth.Proofs.Encoder.Refusal
import BitSynth.Proofs.Grammar.WellFormed
import BitSynth.Proofs.Program.Extractions
import BitSynth.Proofs.Library.Functions
import BitSynth.Proofs.Console.Path
import BitSynth.Proofs.Console.Disk
import BitSynth.Proofs.Console.Location
import BitSynth.Proofs.Console.Arguments
import BitSynth.Proofs.Console.Conversion
import BitSynth.Proofs.Console.Outputs
import BitSynth.Proofs.Console.Streams
import BitSynth.Proofs.Script.Rereading
import BitSynth.Proofs.Program.Acceptance
import BitSynth.Proofs.Console.Frame
import BitSynth.Proofs.Grammar.Symbols
import BitSynth.Proofs.Reader.Names
import BitSynth.Proofs.Script.Lines
import BitSynth.Proofs.Serial.Program
import BitSynth.Proofs.Machine.Compilation
import BitSynth.Proofs.Machine.Results
import BitSynth.Proofs.Library.Digits
