/-!
# Files and folders

What a run can see of the file system: the files below the folder it was started in, the folders
that hold them, and folders without files. Folders outside exist, but nothing is known to be in
them. Two things are left out: links, so that each path leads to a place of its own, and writes that
are cut off, so that a file is written as a whole or not at all.
-/

namespace BitSynth.Console

/-- Why a file or a stream could not be read or written: the system's number and words for the
cause, or contents that are no text. -/
inductive FileError where
  | system (code : Nat) (message : String)
  | notText
deriving DecidableEq, Repr

namespace FileError

def missing : FileError := .system 2 "No such file or directory"

def notFolder : FileError := .system 20 "Not a directory"

def isFolder : FileError := .system 21 "Is a directory"

def nameTooLong : FileError := .system 36 "File name too long"

def text : FileError → String
  | system code message => message ++ " (os error " ++ toString code ++ ")"
  | notText => "stream did not contain valid UTF-8"

end FileError

/-- The names that lead to a file or folder from where the run was started. Only at the beginning
is `..` such a name, for a folder further out, or `/`, for the outermost. -/
abbrev Place := List String

namespace Place

def root : Place := ["/"]

/-- The folder of the run and those that it lies in. -/
def isOuter (p : Place) : Bool := p == root || p.all (· == "..")

def parent (p : Place) : Place :=
  if p = root then root
  else if p.isOuter then p ++ [".."]
  else p.dropLast

/-- The place lies below the folder of the run. -/
def isBelow (p : Place) : Bool := p.head? != some ".." && p.head? != some "/"

end Place

def pathParts (path : String) : List String :=
  (path.toList.foldr
    (fun c parts => if c = '/' then [] :: parts else parts.modifyHead (c :: ·)) [[]]).map
    String.ofList

def maxNameSize : Nat := 255

def maxPathSize : Nat := 4095

/-- What is in a file: a text, or bytes that do not encode any. -/
inductive Contents where
  | text (s : String)
  | binary (bytes : ByteArray) (h : ¬ bytes.IsValidUTF8)

namespace Contents

instance : DecidableEq Contents
  | text s, text t => decidable_of_iff (s = t) ⟨congrArg text, text.inj⟩
  | text _, binary .. => isFalse nofun
  | binary .., text _ => isFalse nofun
  | binary bytes _, binary bytes' _ =>
    match ByteArray.instDecidableEq bytes bytes' with
    | isTrue h => isTrue (by subst h; rfl)
    | isFalse h => isFalse fun hsame => h (binary.inj hsame)

def ofBytes (bytes : ByteArray) : Contents :=
  if h : bytes.IsValidUTF8 then .text (.ofByteArray bytes h) else .binary bytes h

def toBytes : Contents → ByteArray
  | text s => s.toByteArray
  | binary bytes _ => bytes

def read : Contents → Except FileError String
  | text s => .ok s
  | binary _ _ => .error .notText

theorem toBytes_ofBytes (bytes : ByteArray) : (ofBytes bytes).toBytes = bytes := by
  unfold ofBytes
  split <;> rfl

/-- Contents are bytes of any kind. -/
theorem ofBytes_toBytes (c : Contents) : ofBytes c.toBytes = c := by
  cases c with
  | text s => exact dif_pos s.isValidUTF8
  | binary bytes h => exact dif_neg h

end Contents

inductive Entry where
  | file (contents : Contents)
  | folder
  | nothing
deriving DecidableEq

structure Disk where
  files : List (Place × Contents) := []
  folders : List Place := []
deriving DecidableEq

namespace Disk

variable (d : Disk)

def file? (p : Place) : Option Contents := d.files.lookup p

/-- Something lies at the place or below it. -/
def holds (p : Place) : Bool := (d.folders ++ d.files.map Prod.fst).any p.isPrefixOf

def entry (p : Place) : Entry :=
  match d.file? p with
  | some contents => .file contents
  | none => if p.isOuter || d.holds p then .folder else .nothing

/-- The place one part of a path further on; only folders lead on. -/
def step (p : Place) (part : String) : Except FileError Place :=
  match d.entry p with
  | .file _ => .error .notFolder
  | .nothing => .error .missing
  | .folder =>
    if part = "" ∨ part = "." then .ok p
    else if part = ".." then .ok p.parent
    else if maxNameSize < part.utf8ByteSize then .error .nameTooLong
    else .ok (p ++ [part])

/-- The place that a path leads to. There need not be anything there. -/
def locate (path : String) : Except FileError Place :=
  if maxPathSize < path.utf8ByteSize then .error .nameTooLong
  else (pathParts path).foldlM d.step (if path.toList.head? = some '/' then Place.root else [])

/-- What is in the file that a path leads to. -/
def contents (path : String) : Except FileError Contents := do
  let p ← d.locate path
  match d.entry p with
  | .file contents => return contents
  | .folder => throw .isFolder
  | .nothing => throw .missing

def read (path : String) : Except FileError String := do
  let contents ← d.contents path
  contents.read

def replace (p : Place) (contents : Contents) :
    List (Place × Contents) → List (Place × Contents)
  | [] => [(p, contents)]
  | (q, old) :: files =>
    if q = p then (p, contents) :: files else (q, old) :: replace p contents files

def put (p : Place) (text : String) : Disk := { d with files := replace p (.text text) d.files }

/-- Writes a file, a new one or one that was there. -/
def write (path text : String) : Except FileError Disk := do
  let p ← d.locate path
  match d.entry p with
  | .folder => throw .isFolder
  | _ => return d.put p text

/-- The files below the folder of the run that are new or hold something else than on `before`. -/
def changes (before : Disk) : List (Place × Contents) :=
  d.files.filter fun (p, contents) => p.isBelow && before.file? p != some contents

variable (p q : Place) (contents : Contents) (files : List (Place × Contents))

theorem lookup_cons :
    ((p, contents) :: files).lookup q = if q = p then some contents else files.lookup q := by
  by_cases h : q = p
  · rw [List.lookup_cons, beq_iff_eq.2 h, if_pos h]
  · rw [List.lookup_cons, beq_eq_false_iff_ne.2 h, if_neg h]

theorem lookup_replace :
    (replace p contents files).lookup q = if q = p then some contents else files.lookup q := by
  induction files with
  | nil => rw [replace, lookup_cons]
  | cons f files ih =>
    obtain ⟨r, old⟩ := f
    rw [replace]
    split
    · rename_i h
      subst h
      simp only [lookup_cons]
      split <;> rfl
    · simp only [lookup_cons, ih]
      grind

/-- A text that was put at a place is found there, and all else stays. -/
theorem file?_put (text : String) :
    (d.put p text).file? q = if q = p then some (.text text) else d.file? q :=
  lookup_replace p q (.text text) d.files

end Disk

end BitSynth.Console
