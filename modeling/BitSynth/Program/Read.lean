import BitSynth.Program.Forms
import BitSynth.Reader.Grammar

/-!
# Reading programs
-/

namespace BitSynth.Program

/-- Reads a program from its text and reports its size. -/
def read (text : String) : Logged Program := do
  let forms ← .ofExcept ((App.readAll text).mapError .lex)
  let p ← .ofExcept (ofForms forms)
  .emit .debug .program
    ("Program read: " ++ toString p.spec.inputs.length ++ " inputs at " ++ toString p.spec.bitWidth
      ++ " bits, " ++ toString p.library.length ++ " library entries.")
  return p

/-- Reads a program from a stream of bytes in UTF-8. -/
def readBytes (bytes : ByteArray) : Logged Program :=
  match String.fromUTF8? bytes with
  | some text => read text
  | none => .fail .invalidUtf8

end BitSynth.Program
