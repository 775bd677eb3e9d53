import BitSynth.Console.Arguments
import BitSynth.Console.Disk
import BitSynth.Console.Record
import BitSynth.Program.Read
import BitSynth.Settings.File

/-!
# Runs of the program

A run loads the settings and converts its inputs one after the other. An input that fails is
reported, and the others are converted all the same. What a run needs from the system is a `Host`,
and a `Session` is a host without a system: a disk, what becomes of the texts that are written to
the streams, and everything a run has written.
-/

namespace BitSynth.Console

/-- Why a run, or the conversion of one of its inputs, failed. Settings that cannot be made out are
kept as the text that they were looked for in. -/
inductive RunError where
  | unreadable (path : String) (cause : FileError)
  | unwritable (path : String) (cause : FileError)
  | badSettings (path source : String)
  | translation (e : Error)
deriving DecidableEq, Repr

/-- The words of an error. What is wrong with a text that should hold settings is for those to say
who know its format; `fault` has their words. -/
def RunError.text (fault : (source : String) → String) : RunError → String
  | unreadable path cause => "Cannot read " ++ quoted path ++ ": " ++ cause.text
  | unwritable path cause => "Cannot write " ++ quoted path ++ ": " ++ cause.text
  | badSettings path source => "Invalid configuration file " ++ quoted path ++ ": " ++ fault source
  | translation e => e.text

/-- A failure and what it is about. -/
structure Report where
  subject : String
  error : RunError
deriving DecidableEq, Repr

namespace Report

variable (fault : (source : String) → String) (r : Report)

/-- A report on a line. Where a text cannot be read the line names the place. -/
def plain : String :=
  match r.error with
  | .translation (.lex e) =>
    "error: " ++ r.subject ++ ":" ++ toString e.start ++ ": " ++ e.text
  | e => "error: " ++ r.subject ++ ": " ++ e.text fault

/-- A report in style, without its colors. Where a text cannot be read that is the heading of a
drawing of the place, which is left out. -/
def styled : String :=
  match r.error with
  | .translation (.lex e) => "Error: " ++ e.text
  | e => "error: " ++ r.subject ++ ": " ++ e.text fault

end Report

/-- What a run needs from the system. Files, the standard output and reports in style can fail. -/
structure Host (m : Type → Type) where
  read : (path : String) → m (Except FileError String)
  write : (path text : String) → m (Except FileError Unit)
  print : (text : String) → m (Except FileError Unit)
  reportStyled : Report → m (Except FileError Unit)
  reportPlain : Report → m Unit
  record : Event → m Unit

/-- The name of a file without its extension, which begins at the last dot unless that is the
first character. -/
def stem (path : String) : String :=
  let name := (pathParts path).getLastD ""
  match (name.toList.reverse.dropWhile (· != '.')).tail.reverse with
  | [] => name
  | cs => String.ofList cs

def outputPath (dir input : String) (t : Target) : String :=
  dir ++ (if dir.toList.getLast? = some '/' then "" else "/") ++ stem input ++ "." ++ t.extension

def settingsText (s : Settings) : String :=
  let policy := match s.policy with
    | .truncate => "Truncate"
    | .strict => "Strict"
  "TranslateConfig \x7b tag_bits: " ++ toString s.tagBits ++ ", literal_policy: " ++ policy
    ++ " \x7d"

/-- The standard output, where a path is asked for. -/
def standardOutput : String := "<stdout>"

def translation (o : Options) (s : Settings) (source : String) : Logged String := do
  let p ← Program.read source
  p.translate o.goal s

section Steps

variable {m : Type → Type} [Monad m] (h : Host m) (o : Options)

/-- Records the events that the options want to see. -/
def recordAll : List Event → m Unit
  | [] => return
  | e :: es => do
    if e.ShownAt o.verbosity then h.record e
    recordAll es

/-- Records an event of the run itself. -/
def note (level : Level) (message : String) : m Unit := recordAll h o [⟨level, .command, message⟩]

/-- Reports a failure, on a plain line if it cannot be done in style. -/
def report (r : Report) : m Unit := do
  match ← h.reportStyled r with
  | .ok () => return
  | .error cause =>
    note h o .debug ("Styled report failed: " ++ cause.text)
    h.reportPlain r

/-- The settings in the file that the options name, or the usual ones if they name none. -/
def readSettings : m (Except RunError Settings) :=
  match o.settingsFile with
  | none => return .ok {}
  | some path => do
    match ← h.read path with
    | .error cause => return .error (.unreadable path cause)
    | .ok text =>
      match Settings.ofText? text with
      | some s => return .ok s
      | none => return .error (.badSettings path text)

/-- The settings of the run, which must be valid in the end. -/
def loadSettings : m (Except RunError Settings) := do
  match ← readSettings h o with
  | .error e => return .error e
  | .ok s =>
    let s := o.override s
    match s.validate with
    | .error e => return .error (.translation e)
    | .ok () =>
      note h o .debug ("Using " ++ settingsText s)
      return .ok s

/-- Puts the translation of an input where the options want it. -/
def deliver (input text : String) : m (Except RunError Unit) :=
  match o.outDir with
  | none => do
    match ← h.print text with
    | .error cause => return .error (.unwritable standardOutput cause)
    | .ok () => return .ok ()
  | some dir => do
    let path := outputPath dir input o.goal
    match ← h.write path text with
    | .error cause => return .error (.unwritable path cause)
    | .ok () =>
      note h o .info ("Wrote " ++ path)
      return .ok ()

def convert (s : Settings) (input : String) : m (Except RunError Unit) := do
  match ← h.read input with
  | .error cause => return .error (.unreadable input cause)
  | .ok source =>
    let t := translation o s source
    recordAll h o t.events
    match t.result with
    | .error e => return .error (.translation e)
    | .ok text => deliver h o input text

/-- Converts the inputs in order and counts those that failed. The log shows an error as it is
built. -/
def convertAll (s : Settings) : (inputs : List String) → m Nat
  | [] => return 0
  | input :: inputs => do
    match ← convert h o s input with
    | .ok () =>
      note h o .info ("Translated " ++ input)
      convertAll s inputs
    | .error e =>
      note h o .debug (input ++ " failed: " ++ reprStr e)
      report h o ⟨input, e⟩
      let failed ← convertAll s inputs
      return failed + 1

/-- The exit code: zero if there were settings and every input was converted. -/
def run : m Nat := do
  match ← loadSettings h o with
  | .error e =>
    report h o ⟨"configuration", e⟩
    return 1
  | .ok s =>
    let failed ← convertAll h o s o.inputs
    return if failed = 0 then 0 else 1

end Steps

/-- The standard output takes the first characters of a text, and then fails. -/
structure Cutoff where
  taken : Nat
  cause : FileError
deriving DecidableEq, Repr

namespace Cutoff

/-- What gets through of a text that may be cut off. -/
def part (text : String) : Option Cutoff → String
  | none => text
  | some c => .ofList (text.toList.take c.taken)

def result : Option Cutoff → Except FileError Unit
  | none => .ok ()
  | some c => .error c.cause

end Cutoff

/-- A disk, what a run has written beside it, and what will become of the texts still to come: where
those printed are cut off, and which reports fail in style. Texts beyond these lists get through. A
report that fails in style leaves nothing behind. -/
structure Session where
  disk : Disk
  cutoffs : List (Option Cutoff) := []
  unstyled : List (Option FileError) := []
  output : String := ""
  reports : List Report := []
  events : List Event := []
deriving DecidableEq

namespace Session

def host : Host (StateM Session) where
  read path := fun w => (w.disk.read path, w)
  write path text := fun w =>
    match w.disk.write path text with
    | .ok disk => (.ok (), { w with disk := disk })
    | .error e => (.error e, w)
  print text := fun w =>
    let cutoff? := w.cutoffs.head?.join
    (Cutoff.result cutoff?,
      { w with output := w.output ++ Cutoff.part text cutoff?, cutoffs := w.cutoffs.tail })
  reportStyled r := fun w =>
    match w.unstyled.head?.join with
    | none => (.ok (), { w with reports := w.reports ++ [r], unstyled := w.unstyled.tail })
    | some cause => (.error cause, { w with unstyled := w.unstyled.tail })
  reportPlain r := fun w => ((), { w with reports := w.reports ++ [r] })
  record e := fun w => ((), { w with events := w.events ++ [e] })

end Session

def versionText : String := "bvconv 0.1.0\n"

def usageText : String :=
  "Translate bit-vector synthesis problems into solver inputs

Usage: bvconv [OPTIONS] <INPUTS>...

Arguments:
  <INPUTS>...  Problem descriptions to translate

Options:
  -f, --format <FORMAT>      Output form [default: sygus] [possible values: notation, sygus, feasibility]
      --tag-bits <TAG_BITS>  Bits per usage counter (overrides the configuration file)
      --strict-literals      Reject literals that do not fit their width instead of truncating them
  -c, --config <CONFIG>      TOML file holding the translation settings
  -o, --out-dir <OUT_DIR>    Write `<stem>.<ext>` files into this directory instead of stdout
  -v, --verbose...           Increase log verbosity (repeatable)
  -h, --help                 Print help
  -V, --version              Print version
"

/-- Does what the arguments ask for. Arguments that ask for nothing are refused with exit code
two. Help is given as far as the standard output takes it. -/
def execute {m : Type → Type} [Monad m] (h : Host m) (args : List String) : m Nat :=
  match Request.ofArgs args with
  | .convert o => run h o
  | .help => do
    let _ ← h.print usageText
    return 0
  | .version => do
    let _ ← h.print versionText
    return 0
  | .invalid => return 2

end BitSynth.Console
