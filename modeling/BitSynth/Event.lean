import BitSynth.Error

/-!
# Events

What a run reports beside its result: records of a level, the part of the program that they come
from, and a message. They are kept in order and survive an error.
-/

namespace BitSynth

/-- How much a record matters, the most important first. -/
inductive Level where
  | error
  | warn
  | info
  | debug
  | trace
deriving DecidableEq, Repr

namespace Level

def rank : Level → Nat
  | error => 0
  | warn => 1
  | info => 2
  | debug => 3
  | trace => 4

def name : Level → String
  | error => "ERROR"
  | warn => "WARN"
  | info => "INFO"
  | debug => "DEBUG"
  | trace => "TRACE"

def all : List Level := [error, warn, info, debug, trace]

/-- The level of this name, in small or capital letters. -/
def ofName? (s : String) : Option Level :=
  all.find? fun l => l.name.toList = s.toList.map Char.toUpper

end Level

inductive Origin where
  | program
  | encoding
  | library
  | grammar
  | command
deriving DecidableEq, Repr

def Origin.path : Origin → String
  | program => "bvlang::program"
  | encoding => "bvgen::sygus"
  | library => "bvgen::sygus::library"
  | grammar => "bvgen::sygus::grammar"
  | command => "bvconv"

structure Event where
  level : Level
  origin : Origin
  message : String
deriving DecidableEq, Repr

/-- The record on one line, without a time. -/
def Event.text (e : Event) : String :=
  e.level.name ++ " " ++ e.origin.path ++ " " ++ e.message

/-- A result or an error, and the events on the way to it. -/
structure Logged (α : Type) where
  events : List Event
  result : Except Error α

namespace Logged

variable {α β : Type}

/-- Goes on with the value. After an error nothing more happens. -/
def andThen (x : Logged α) (f : α → Logged β) : Logged β :=
  match x.result with
  | .ok a => ⟨x.events ++ (f a).events, (f a).result⟩
  | .error e => ⟨x.events, .error e⟩

instance : Monad Logged where
  pure a := ⟨[], .ok a⟩
  bind := andThen

def fail (e : Error) : Logged α := ⟨[], .error e⟩

def emit (level : Level) (origin : Origin) (message : String) : Logged Unit :=
  ⟨[⟨level, origin, message⟩], .ok ()⟩

/-- A result that comes about without events. -/
def ofExcept (r : Except Error α) : Logged α := ⟨[], r⟩

def warnings (x : Logged α) : List String :=
  (x.events.filter (·.level = .warn)).map (·.message)

end Logged

end BitSynth
