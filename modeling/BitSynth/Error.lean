import BitSynth.Bits
import BitSynth.Expr.Basic
import BitSynth.Reader.Failure

/-!
# Errors

Everything that can keep a problem description from being read or translated, and its wording.
-/

namespace BitSynth

inductive Block where
  | spec
  | lib
deriving DecidableEq, Repr

namespace Block

def name : Block → String
  | spec => "spec"
  | lib => "lib"

def ofName? (s : String) : Option Block := [spec, lib].find? (·.name == s)

end Block

inductive NamePlace where
  | specInput
  | functionName
  | functionParameter
deriving DecidableEq, Repr

def NamePlace.text : NamePlace → String
  | specInput => "spec input"
  | functionName => "function name"
  | functionParameter => "function parameter"

inductive NumberPlace where
  | inputCount
  | bitWidth
deriving DecidableEq, Repr

def NumberPlace.text : NumberPlace → String
  | inputCount => "input count"
  | bitWidth => "bit width"

/-- Why top-level forms make no program. -/
inductive ShapeError where
  | missingBlock (block : Block)
  | duplicateBlock (block : Block)
  | unknownTag (tag : Ident)
  | inputCount (declared supplied : Nat)
  | zeroBitWidth
  | notAName (place : NamePlace) (found : Expr)
  | notANumber (place : NumberPlace) (found : Expr)
  | emptyLibrary
  | unknownEntryTag (tag : Ident)
  | constant (found : App)
  | function (found : App)
  | spec (found : App)
deriving DecidableEq, Repr

def quoted (s : String) : String := "`" ++ s ++ "`"

def ShapeError.text : ShapeError → String
  | missingBlock b => "The program has no " ++ quoted b.name ++ " block."
  | duplicateBlock b => "The program contains more than one " ++ quoted b.name ++ " block."
  | unknownTag tag =>
    "Unknown top-level tag " ++ quoted tag.name ++ ": expected `spec` or `lib`."
  | inputCount declared supplied =>
    "The spec block declares " ++ toString declared ++ " inputs but supplies "
      ++ toString supplied ++ " names before its body."
  | zeroBitWidth => "The spec block must declare a positive bit width."
  | notAName place found =>
    "Expected an identifier for the " ++ place.text ++ ", found " ++ quoted found.text ++ "."
  | notANumber place found =>
    "Expected a non-negative integer for the " ++ place.text ++ ", found "
      ++ quoted found.text ++ "."
  | emptyLibrary => "The library block lists no entries."
  | unknownEntryTag tag =>
    "Unknown library form " ++ quoted tag.name ++ ": expected `const` or `fun`."
  | constant found =>
    "Malformed constant " ++ quoted found.text
      ++ ": expected `(const width)` or `(const width value)`."
  | function found =>
    "Malformed function " ++ quoted found.text ++ ": expected `(fun name params... body)`."
  | spec found =>
    "Malformed spec " ++ quoted found.text
      ++ ": expected `(spec count width inputs... body)`."

/-- The largest number that a counter of this many bits holds. -/
def maxCount (tagBits : Nat) : Nat := Bits.modulus tagBits - 1

def maxTagBits : Nat := 16

/-- Why a problem description was not translated. -/
inductive Error where
  | lex (e : LexError)
  | shape (e : ShapeError)
  | unsupportedEntry (found : Literal)
  | invalidUtf8
  | literalRange (value : Int) (width : Nat)
  | zeroWidthLiteral (value : Int)
  | malformedExtract (found : App)
  | tagOverflow (kind : String) (count tagBits : Nat)
  | constantWidths (first second : Nat)
  | invalidTagBits (tagBits : Nat)
deriving DecidableEq, Repr

def Error.text : Error → String
  | lex e => "Parse error: " ++ e.text
  | shape e => "Structural error: " ++ e.text
  | unsupportedEntry found =>
    "Unsupported library entry " ++ quoted found.text
      ++ ": expected an operator name, `(const ...)` or `(fun ...)`."
  | invalidUtf8 => "I/O error: stream did not contain valid UTF-8"
  | literalRange value width =>
    "Literal " ++ quoted (toString value) ++ " does not fit in " ++ toString width ++ " bits."
  | zeroWidthLiteral value =>
    "Literal " ++ quoted (toString value ++ ":0")
      ++ " has a zero bit width and cannot be emitted."
  | malformedExtract found =>
    "Malformed extract " ++ quoted found.text
      ++ ": expected `(extract low high operand)` with literal bounds."
  | tagOverflow kind count tagBits =>
    "Library operator " ++ quoted kind ++ " can be used " ++ toString count
      ++ " times in one derivation, but " ++ toString tagBits
      ++ "-bit usage counters hold at most " ++ toString (maxCount tagBits) ++ "."
  | constantWidths first second =>
    "The library declares free constants of different widths (" ++ toString first ++ " and "
      ++ toString second ++ " bits)."
  | invalidTagBits tagBits =>
    "Invalid configuration: tag_bits must be between 1 and " ++ toString maxTagBits ++ ", got "
      ++ toString tagBits

instance : ToString Error := ⟨Error.text⟩

end BitSynth
