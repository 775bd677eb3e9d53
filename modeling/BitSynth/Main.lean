import BitSynth.Console.Run
import Std.Time.Zoned

/-!
# The program

The program runs on the files and streams of the system it is started on.
-/

namespace BitSynth

open Console

/-- The number and the words that the system gives for a failure. -/
def Console.FileError.ofSystem : IO.Error → FileError
  | .alreadyExists _ code words | .invalidArgument _ code words
  | .permissionDenied _ code words | .resourceExhausted _ code words
  | .inappropriateType _ code words | .noSuchThing _ code words
  | .interrupted _ code words | .noFileOrDirectory _ code words
  | .otherError code words | .resourceBusy code words | .resourceVanished code words
  | .unsupportedOperation code words | .hardwareFault code words
  | .unsatisfiedConstraints code words | .illegalOperation code words
  | .protocolError code words | .timeExpired code words => .system code.toNat words
  | .unexpectedEof => .system 0 "unexpected end of file"
  | .userError words => .system 0 words

def now : IO Clock := do
  let t ← Std.Time.PlainTime.now
  return ⟨t.hour.val.toNat, t.minute.val.toNat, t.second.val.toNat, t.nanosecond.val.toNat⟩

def log (e : Event) : IO Unit := do
  let stderr ← IO.getStderr
  let r : Record := ⟨← now, e.level, e.origin.path, none, none, e.message⟩
  stderr.putStr (r.text (← stderr.isTty))

def settingsFault (_ : String) : String := "no settings can be made out in it"

def system : Host IO where
  read path := do
    try
      let file ← IO.FS.Handle.mk path .read
      return (Contents.ofBytes (← file.readBinToEnd)).read
    catch e => return .error (.ofSystem e)
  write path text := do
    try
      IO.FS.writeFile path text
      return .ok ()
    catch e => return .error (.ofSystem e)
  print text := do
    try
      let stdout ← IO.getStdout
      stdout.putStr text
      stdout.flush
      return .ok ()
    catch e => return .error (.ofSystem e)
  reportStyled r := do
    try
      IO.eprintln (r.styled settingsFault)
      return .ok ()
    catch e => return .error (.ofSystem e)
  reportPlain r := IO.eprintln (r.plain settingsFault)
  record := log

end BitSynth

def main (args : List String) : IO UInt32 := do
  let code ← BitSynth.Console.execute BitSynth.system args
  if code = 2 then IO.eprint BitSynth.Console.usageText
  return code.toUInt32
