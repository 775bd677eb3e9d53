import BitSynth.Settings.Basic
import BitSynth.Text.Numeral
import BitSynth.Translate

/-!
# Command lines

The arguments of the program: inputs, and options by a letter or a name. Letters may share one
argument. The value of an option is the rest of its argument or the next one, and whatever follows
`--` is an input. Every option but `-v` is given at most once.
-/

namespace BitSynth.Console

inductive Flag where
  | strict
  | verbose
  | help
  | version
deriving DecidableEq, Repr

inductive Parameter where
  | target
  | tagBits
  | settingsFile
  | outDir
deriving DecidableEq, Repr

/-- An option is named by a word, and most of them by a letter too. -/
structure OptionName where
  option : Flag ⊕ Parameter
  letter : Option Char
  word : String

def optionNames : List OptionName := [
  ⟨.inr .target, some 'f', "format"⟩,
  ⟨.inr .tagBits, none, "tag-bits"⟩,
  ⟨.inl .strict, none, "strict-literals"⟩,
  ⟨.inr .settingsFile, some 'c', "config"⟩,
  ⟨.inr .outDir, some 'o', "out-dir"⟩,
  ⟨.inl .verbose, some 'v', "verbose"⟩,
  ⟨.inl .help, some 'h', "help"⟩,
  ⟨.inl .version, some 'V', "version"⟩]

def optionOfLetter? (c : Char) : Option (Flag ⊕ Parameter) :=
  (optionNames.find? (·.letter == some c)).map OptionName.option

def optionOfWord? (s : String) : Option (Flag ⊕ Parameter) :=
  (optionNames.find? (·.word == s)).map OptionName.option

/-- What an argument or a part of it says. -/
inductive Item where
  | input (path : String)
  | flag (f : Flag)
  | value (p : Parameter) (text : String)
  | invalid
deriving DecidableEq, Repr

namespace Item

/-- The items of an argument of letters, and the option whose value is still to come. -/
def ofLetters : List Char → List Item × Option Parameter
  | [] => ([], none)
  | c :: cs =>
    match optionOfLetter? c, cs with
    | none, _ => ([invalid], none)
    | some (.inl f), _ => let (items, p) := ofLetters cs; (flag f :: items, p)
    | some (.inr p), [] => ([], some p)
    | some (.inr p), '=' :: cs => ([value p (String.ofList cs)], none)
    | some (.inr p), cs => ([value p (String.ofList cs)], none)

/-- The item of an option named by a word, which may have a value behind an equals sign. -/
def ofWord (cs : List Char) : List Item × Option Parameter :=
  let isPart (c : Char) := c != '='
  match optionOfWord? (String.ofList (cs.takeWhile isPart)), cs.dropWhile isPart with
  | some (.inl f), [] => ([flag f], none)
  | some (.inr p), [] => ([], some p)
  | some (.inr p), _ :: cs => ([value p (String.ofList cs)], none)
  | _, _ => ([invalid], none)

/-- The items of the arguments, where `waiting` is an option whose value comes next. -/
def ofArgs (waiting : Option Parameter) : List String → List Item
  | [] => if waiting.isSome then [invalid] else []
  | arg :: args =>
    match waiting, arg.toList with
    | some _, '-' :: _ :: _ => [invalid]
    | some p, _ => value p arg :: ofArgs none args
    | none, ['-', '-'] => args.map input
    | none, '-' :: '-' :: cs => let (items, p) := ofWord cs; items ++ ofArgs p args
    | none, '-' :: c :: cs => let (items, p) := ofLetters (c :: cs); items ++ ofArgs p args
    | none, _ => input arg :: ofArgs none args

end Item

/-- The options of a conversion, as far as they are given. -/
structure Options where
  inputs : List String := []
  target : Option Target := none
  tagBits : Option Nat := none
  strict : Bool := false
  settingsFile : Option String := none
  outDir : Option String := none
  verbosity : Nat := 0
deriving DecidableEq, Repr

/-- A number of 32 bits, with leading zeros and a sign if one likes. -/
def number? (s : String) : Option Nat :=
  let ofDigits? (cs : List Char) :=
    if !cs.isEmpty && cs.all Char.isDigit then some (Text.ofDigits 10 cs) else none
  let n := match s.toList with
    | '+' :: cs => ofDigits? cs
    | '-' :: cs => (ofDigits? cs).filter (· = 0)
    | cs => ofDigits? cs
  n.filter (· < Bits.modulus 32)

def path? (s : String) : Option String := if s = "" then none else some s

namespace Options

/-- The options with one item more, which must be new and have a value that makes sense. -/
def add? (o : Options) : Item → Option Options
  | .input s => (path? s).map fun s => { o with inputs := o.inputs ++ [s] }
  | .flag .verbose => some { o with verbosity := o.verbosity + 1 }
  | .flag .strict => if o.strict then none else some { o with strict := true }
  | .value .target s =>
    if o.target.isSome then none
    else (Target.ofName? s).map fun t => { o with target := some t }
  | .value .tagBits s =>
    if o.tagBits.isSome then none else (number? s).map fun n => { o with tagBits := some n }
  | .value .settingsFile s =>
    if o.settingsFile.isSome then none
    else (path? s).map fun s => { o with settingsFile := some s }
  | .value .outDir s =>
    if o.outDir.isSome then none else (path? s).map fun s => { o with outDir := some s }
  | .flag .help | .flag .version | .invalid => none

/-- The target of the conversion, a SyGuS problem if none is given. -/
def goal (o : Options) : Target := o.target.getD .sygus

def override (o : Options) (s : Settings) : Settings :=
  { tagBits := o.tagBits.getD s.tagBits
    policy := if o.strict then .strict else s.policy }

end Options

inductive Request where
  | convert (o : Options)
  | help
  | version
  | invalid
deriving DecidableEq, Repr

namespace Request

/-- Takes the items in order. Help and version are given at once, whatever comes later, and there
must be an input in the end. -/
def ofItems (o : Options) : List Item → Request
  | [] => if o.inputs.isEmpty then invalid else convert o
  | .flag .help :: _ => help
  | .flag .version :: _ => version
  | item :: items =>
    match o.add? item with
    | some o => ofItems o items
    | none => invalid

def ofArgs (args : List String) : Request := ofItems {} (Item.ofArgs none args)

end Request

end BitSynth.Console
