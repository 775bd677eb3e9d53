import BitSynth.Event

/-!
# The log on the terminal

Events are written to the terminal as they happen, a line for each. How many levels are shown
depends on how often that was asked for.
-/

namespace BitSynth

/-- The last level that is shown when `verbosity` more than the warnings were asked for. -/
def Level.ofVerbosity : (verbosity : Nat) → Level
  | 0 => warn
  | 1 => info
  | 2 => debug
  | _ => trace

def Event.ShownAt (verbosity : Nat) (e : Event) : Prop :=
  e.level.rank ≤ (Level.ofVerbosity verbosity).rank

instance (verbosity : Nat) (e : Event) : Decidable (e.ShownAt verbosity) :=
  inferInstanceAs (Decidable (_ ≤ _))

namespace Console

structure Clock where
  hour : Nat
  minute : Nat
  second : Nat
  nanosecond : Nat
deriving DecidableEq, Repr

/-- The decimal digits of a number, with zeros in front up to `places`. -/
def padded (places n : Nat) : String := String.ofList ((Nat.toDigits 10 n).leftpad places '0')

/-- Hours, minutes, seconds and milliseconds; what is left of a millisecond is dropped. -/
def Clock.text (c : Clock) : String :=
  padded 2 c.hour ++ ":" ++ padded 2 c.minute ++ ":" ++ padded 2 c.second ++ "."
    ++ padded 3 (c.nanosecond / 1000000)

/-- A record of an event: when it happened, in which part of the program, and at which line of
which file if that is known. -/
structure Record where
  time : Clock
  level : Level
  origin : String
  file : Option String
  line : Option Nat
  message : String
deriving DecidableEq, Repr

def levelColor : Level → Nat
  | .error => 1
  | .warn => 3
  | .info => 2
  | .debug => 4
  | .trace => 6

/-- A command to the terminal about the letters that follow. -/
def letterStyle (code : Nat) : String := "\x1b[" ++ toString code ++ "m"

namespace Record

def levelText (r : Record) : String := String.ofList (r.level.name.toList.rightpad 5 ' ')

def coloredLevel (r : Record) : String :=
  letterStyle 0 ++ letterStyle 1 ++ letterStyle (30 + levelColor r.level) ++ r.levelText
    ++ letterStyle 0

/-- The place in the program; file and line are for those who look into details. -/
def place (r : Record) : String :=
  match r.file, r.line with
  | some file, some line =>
    if Level.debug.rank ≤ r.level.rank then r.origin ++ " " ++ file ++ ":" ++ toString line
    else r.origin
  | _, _ => r.origin

def text (r : Record) (colored : Bool) : String :=
  r.time.text ++ " " ++ (if colored then r.coloredLevel else r.levelText) ++ " [" ++ r.place
    ++ "] " ++ r.message ++ "\n"

end Record

end Console

end BitSynth
