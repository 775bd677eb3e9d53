import BitSynth.Proofs.Console.Arguments
import BitSynth.Proofs.Console.Conversion

/-!
# Inputs and outputs of one run

An output is named by the stem of its input alone. So a run leaves its inputs alone as long as none
of them is the output of an input of that stem, be it its own (`execute_read`), and the output of an
input does not depend on the other inputs as long as none of these has the same stem
(`execute_output`).
-/

namespace BitSynth.Console

open Disk

variable {args : List String} {o : Options} {s : Settings} {w : Session} {d d' : Disk} {p q : Place}
  {c : Contents} {dir path input source text : String} {before after : List String}

/-! ## Files that were there before -/

/-- A file that was there before a run keeps its contents, be they a text or not, or it is the
output of an input with its stem and holds a translation of that. -/
theorem execute_read (args : List String) (w : Session) (h : w.disk.contents path = .ok c) :
    (execute Session.host args w).2.disk.contents path = .ok c ∨
      ∃ o dir s before other after text, Request.ofArgs args = .convert o ∧ o.outDir = some dir ∧
        (loadSettings Session.host o w).1 = .ok s ∧ o.inputs = before ++ other :: after ∧
        stem other = stem path ∧
        w.disk.locate (outputPath dir other o.goal) = w.disk.locate path ∧
        translated? o s (convertAll Session.host o s before w).2.disk other = some text ∧
        (execute Session.host args w).2.disk.contents path = .ok (.text text) := by
  rw [disk_execute]
  cases hargs : Request.ofArgs args with
  | help => exact .inl h
  | version => exact .inl h
  | invalid => exact .inl h
  | convert o =>
    simp only
    rw [disk_run]
    cases hs : (loadSettings Session.host o w).1 with
    | error e => exact .inl h
    | ok s =>
      simp only
      obtain ⟨p, hp, hfile⟩ := contents_eq_ok_iff.1 h
      have hfinal := (sameFolders_foldl o s o.inputs w.disk).locate.1 hp
      rcases entry_foldl o s p o.inputs w.disk with
        ⟨before, other, after, text, hinputs, hwrites, hentry⟩ | hentry
      · obtain ⟨htext, dir, hdir, hout, hne⟩ := id hwrites
        have hsame := sameFolders_foldl o s before w.disk
        have hstem := stem_of_locate (hsame.locate.1 hp) hne hout hwrites.stem_ne_empty
        refine .inr ⟨o, dir, s, before, other, after, text, rfl, hdir, hs, hinputs, hstem.symm,
          ?_, ?_, contents_eq_ok_iff.2 ⟨p, hfinal, hentry⟩⟩
        · rw [hsame.locate.2 hout, hp]
        · rw [disk_convertAll]
          exact htext
      · exact .inl (contents_eq_ok_iff.2 ⟨p, hfinal, hentry.trans hfile⟩)

/-- A session in a folder with one problem in a file, and another folder. -/
def Session.ofProblem (name : String) : Session where
  disk := { files := [([name], .text "(spec 1 4 x x) (lib add)")], folders := [["out"]] }

/-- The output goes into another folder, and so the input stays. -/
theorem execute_read_apart :
    (Session.ofProblem "p.bv").disk.contents "p.bv" = .ok (.text "(spec 1 4 x x) (lib add)") ∧
      (execute Session.host ["-f", "notation", "-o", "out", "p.bv"]
        (Session.ofProblem "p.bv")).2.disk.contents "p.bv"
          = .ok (.text "(spec 1 4 x x) (lib add)") := by
  have hbefore : (Session.ofProblem "p.bv").disk.contents "p.bv"
      = .ok (.text "(spec 1 4 x x) (lib add)") := by
    decide +kernel
  refine ⟨hbefore, (execute_read _ _ hbefore).resolve_right ?_⟩
  rintro ⟨o, dir, -, -, other, -, -, hargs, hdir, -, -, hstem, hplace, -⟩
  have hoptions : Request.ofArgs ["-f", "notation", "-o", "out", "p.bv"]
      = .convert { inputs := ["p.bv"], target := some .script, outDir := some "out" } := by
    decide +kernel
  obtain rfl := Request.convert.inj (hoptions.symm.trans hargs)
  obtain rfl := Option.some.inj hdir
  rw [outputPath_congr hstem] at hplace
  exact absurd hplace (by decide +kernel)

/-- An input that has the extension of its output is lost if the output goes into its folder. -/
theorem not_forall_execute_read : ¬ ∀ (args : List String) (o : Options) (w : Session)
    (input source : String), Request.ofArgs args = .convert o → input ∈ o.inputs →
      w.disk.read input = .ok source →
        (execute Session.host args w).2.disk.read input = .ok source := by
  intro h
  have hlost := h ["-f", "notation", "-o", ".", "p.txt"]
    { inputs := ["p.txt"], target := some .script, outDir := some "." } (Session.ofProblem "p.txt")
    "p.txt" "(spec 1 4 x x) (lib add)" (by decide +kernel) (by decide) (by decide +kernel)
  exact absurd hlost (by decide +kernel)

/-! ## The output of an input among others -/

section Outputs

theorem read_congr (hlocate : d.locate path = d'.locate path)
    (hentry : ∀ p, d.locate path = .ok p → d.entry p = d'.entry p) :
    d.read path = d'.read path := by
  rw [Disk.read, Disk.read, Disk.contents, Disk.contents, ← hlocate]
  cases hp : d.locate path with
  | error e => rfl
  | ok p => simp only [bind, Except.bind, hentry p hp]

/-- On disks with the same folders an output has the same place, or for the same reason none. -/
theorem locate_outputPath_congr (hsame : d.SameFolders d') {t : Target} (hdir : dir ≠ "")
    (hq : d.locate dir = .ok q) (hfolder : d.entry q = .folder) :
    d.locate (outputPath dir input t) = d'.locate (outputPath dir input t) := by
  rw [locate_outputPath hdir hq hfolder,
    locate_outputPath hdir (hsame.locate.1 hq) ((hsame q).1 hfolder)]

/-- Where the output of an input lies, no input of another stem writes. -/
theorem entry_foldl_output (hout : d.locate (outputPath dir input o.goal) = .ok p)
    (hafter : ∀ mid other rest, after = mid ++ other :: rest → stem other = stem input →
      translated? o s (mid.foldl (converted o s) d') other = none) :
    (after.foldl (converted o s) d').entry p = d'.entry p := by
  refine (entry_foldl o s p after d').resolve_left ?_
  rintro ⟨mid, other, rest, text, hsplit, ⟨htext, dir', -, hother, -⟩, -⟩
  rw [hafter mid other rest hsplit (stem_of_locate_outputPath hother hout)] at htext
  cases htext

section Turn

variable (hdir : o.outDir = some dir) (hread : d.read input = .ok source)
  (hbefore : ∀ mid other rest, before = mid ++ other :: rest → stem other = stem input →
    translated? o s (mid.foldl (converted o s) d) other ≠ none →
      d.locate input ≠ d.locate (outputPath dir input o.goal))

include hdir hread hbefore

/-- An input is read as it was in the beginning unless an input of its stem was written over it. -/
theorem read_foldl : (before.foldl (converted o s) d).read input = .ok source := by
  obtain ⟨p, hp, hfile⟩ := read_eq_ok_iff.1 hread
  refine read_eq_ok_iff.2 ⟨p, (sameFolders_foldl o s before d).locate.1 hp, ?_⟩
  rcases entry_foldl o s p before d with ⟨mid, other, rest, text, hsplit, hwrites, -⟩ | hentry
  · obtain ⟨htext, dir', hdir', hout, hne⟩ := id hwrites
    obtain rfl : dir = dir' := Option.some.inj (hdir.symm.trans hdir')
    have hsame := sameFolders_foldl o s mid d
    have hstem := stem_of_locate (hsame.locate.1 hp) hne hout hwrites.stem_ne_empty
    refine absurd ?_ (hbefore mid other rest hsplit hstem.symm (by simp [htext]))
    rw [outputPath_congr hstem, hp, hsame.locate.2 hout]
  · exact hentry.trans hfile

/-- What lies in the end where the output of an input belongs, if there is a place for it: the
translation, or the folder that was there before. -/
theorem entry_foldl_middle (hout : d.locate (outputPath dir input o.goal) = .ok p)
    (htext : (translation o s source).result = .ok text)
    (hafter : ∀ mid other rest, after = mid ++ other :: rest → stem other = stem input →
      translated? o s ((before ++ input :: mid).foldl (converted o s) d) other = none) :
    ((before ++ input :: after).foldl (converted o s) d).entry p
      = if d.entry p = .folder then .folder else .file (.text text) := by
  have hsame := sameFolders_foldl o s
  split_ifs with hfolder
  · exact (hsame (before ++ input :: after) d p).1 hfolder
  · have hturn := read_foldl hdir hread hbefore
    have hwrites : Writes o s (before.foldl (converted o s) d) input p text :=
      ⟨translated?_eq_some_iff.2 ⟨source, hturn, htext⟩, dir, hdir, (hsame before d).locate.1 hout,
        mt (hsame before d p).2 hfolder⟩
    rw [List.foldl_append, List.foldl_cons, entry_foldl_output hout, entry_converted hwrites,
      if_pos rfl]
    intro mid other rest hsplit hstem
    have hlast := hafter mid other rest hsplit hstem
    rwa [List.foldl_append, List.foldl_cons] at hlast

end Turn

/-- The output of an input is as if it had been converted alone, and that is its translation if it
could be written at all. For this no later input of its stem may be translated, and no earlier one
may have been written over the input. -/
theorem execute_output (hargs : Request.ofArgs args = .convert o)
    (hs : (loadSettings Session.host o w).1 = .ok s) (hdir : o.outDir = some dir)
    (hq : w.disk.locate dir = .ok q) (hfolder : w.disk.entry q = .folder)
    (hinputs : o.inputs = before ++ input :: after) (hread : w.disk.read input = .ok source)
    (htext : (translation o s source).result = .ok text)
    (hbefore : ∀ mid other rest, before = mid ++ other :: rest → stem other = stem input →
      translated? o s (convertAll Session.host o s mid w).2.disk other ≠ none →
        w.disk.locate input ≠ w.disk.locate (outputPath dir input o.goal))
    (hafter : ∀ mid other rest, after = mid ++ other :: rest → stem other = stem input →
      translated? o s (convertAll Session.host o s (before ++ input :: mid) w).2.disk other
        = none) :
    (execute Session.host args w).2.disk.read (outputPath dir input o.goal) =
        (run Session.host { o with inputs := [input] } w).2.disk.read
          (outputPath dir input o.goal) ∧
      ((∃ d, w.disk.write (outputPath dir input o.goal) text = .ok d) →
        (execute Session.host args w).2.disk.read (outputPath dir input o.goal) = .ok text) := by
  simp only [disk_convertAll] at hbefore hafter
  have hfinal : (execute Session.host args w).2.disk
      = (before ++ input :: after).foldl (converted o s) w.disk := by
    simp only [disk_execute, hargs, disk_run, hs, hinputs]
  have halone : (run Session.host { o with inputs := [input] } w).2.disk
      = [input].foldl (converted o s) w.disk := by
    rw [disk_run, show loadSettings Session.host { o with inputs := [input] } w
      = loadSettings Session.host o w from rfl, hs]
    rfl
  have hentry {p : Place} (hp : w.disk.locate (outputPath dir input o.goal) = .ok p) :=
    entry_foldl_middle hdir hread hbefore hp htext hafter
  have hsame (inputs : List String) := sameFolders_foldl o s inputs w.disk
  have hplace (inputs : List String) : w.disk.locate (outputPath dir input o.goal)
      = (inputs.foldl (converted o s) w.disk).locate (outputPath dir input o.goal) :=
    locate_outputPath_congr (hsame inputs) (outDir_ne_empty hargs hdir) hq hfolder
  rw [hfinal, halone]
  constructor
  · refine read_congr ((hplace _).symm.trans (hplace _)) fun p hp => ?_
    rw [← hplace] at hp
    have hsingle : (([] ++ [input]).foldl (converted o s) w.disk).entry p
        = if w.disk.entry p = .folder then .folder else .file (.text text) :=
      entry_foldl_middle hdir hread (fun _ _ _ h => by simp at h) hp htext
        (fun _ _ _ h => by simp at h)
    exact (hentry hp).trans hsingle.symm
  · rintro ⟨d, hwrite⟩
    obtain ⟨p, hp, hnotFolder, -⟩ := write_eq_ok_iff.1 hwrite
    refine read_eq_ok_iff.2 ⟨p, (hsame _).locate.1 hp, ?_⟩
    rw [hentry hp, if_neg hnotFolder]

/-- A session in a folder with two problems in files, and another folder for the outputs. -/
def Session.ofProblems (first second : Place) : Session where
  disk := {
    files := [(first, .text "(spec 1 4 x x) (lib add)"), (second, .text "(spec 1 4 y y) (lib neg)")]
    folders := [["out"]] }

theorem eq_of_singleton_eq {x other : String} {mid rest : List String}
    (h : [x] = mid ++ other :: rest) : mid = [] ∧ other = x := by
  rcases List.singleton_eq_append_iff.1 h with ⟨hmid, hother⟩ | ⟨-, hnil⟩
  · exact ⟨hmid, (List.cons_eq_cons.1 hother).1⟩
  · exact absurd hnil (List.cons_ne_nil _ _)

/-- An earlier input has another stem, and a later one of the same stem is missing. -/
theorem execute_output_beside :
    (execute Session.host ["-f", "notation", "-o", "out", "b/q.bv", "a/p.bv", "c/p.bv"]
      (Session.ofProblems ["a", "p.bv"] ["b", "q.bv"])).2.disk.read
        (outputPath "out" "a/p.bv" .script)
          = .ok "bitwidth 4\nspec 1 x -> x\nlib add\nalgo list\ntiming\nsynth\nquit\n" := by
  have hargs : Request.ofArgs ["-f", "notation", "-o", "out", "b/q.bv", "a/p.bv", "c/p.bv"]
      = .convert { inputs := ["b/q.bv"] ++ "a/p.bv" :: ["c/p.bv"], target := some .script,
                   outDir := some "out" } := by decide +kernel
  have hread : (Session.ofProblems ["a", "p.bv"] ["b", "q.bv"]).disk.read "a/p.bv"
      = .ok "(spec 1 4 x x) (lib add)" := by decide +kernel
  have hq : (Session.ofProblems ["a", "p.bv"] ["b", "q.bv"]).disk.locate "out" = .ok ["out"] := by
    decide +kernel
  refine (execute_output (s := {}) hargs (by decide +kernel) rfl hq (by decide +kernel) rfl
    hread (by decide +kernel) ?_ ?_).2 ⟨_, rfl⟩
  · intro mid other rest hsplit hstem
    obtain ⟨-, rfl⟩ := eq_of_singleton_eq hsplit
    exact absurd hstem (by decide +kernel)
  · intro mid other rest hsplit _
    obtain ⟨rfl, rfl⟩ := eq_of_singleton_eq hsplit
    decide +kernel

/-- The file that two inputs of one stem share holds the translation of the later one. -/
theorem not_forall_execute_output : ¬ ∀ (args : List String) (o : Options) (s : Settings)
    (w : Session) (dir : String) (q : Place) (input source text : String),
    Request.ofArgs args = .convert o → (loadSettings Session.host o w).1 = .ok s →
      o.outDir = some dir → w.disk.locate dir = .ok q → w.disk.entry q = .folder →
        (o.inputs.map w.disk.locate).Nodup → input ∈ o.inputs → w.disk.read input = .ok source →
          (translation o s source).result = .ok text →
            (execute Session.host args w).2.disk.read (outputPath dir input o.goal)
              = .ok text := by
  intro h
  have hlost := h ["-f", "notation", "-o", "out", "a/p.bv", "b/p.bv"]
    { inputs := ["a/p.bv", "b/p.bv"], target := some .script, outDir := some "out" } {}
    (Session.ofProblems ["a", "p.bv"] ["b", "p.bv"]) "out" ["out"] "a/p.bv"
    "(spec 1 4 x x) (lib add)"
    "bitwidth 4\nspec 1 x -> x\nlib add\nalgo list\ntiming\nsynth\nquit\n"
    (by decide +kernel) (by decide +kernel) rfl (by decide +kernel) (by decide +kernel)
    (by decide +kernel) (by decide) (by decide +kernel) (by decide +kernel)
  exact absurd hlost (by decide +kernel)

end Outputs

end BitSynth.Console
