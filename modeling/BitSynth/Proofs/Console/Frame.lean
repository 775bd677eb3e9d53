import BitSynth.Proofs.Console.Streams

/-!
# What a run leaves alone

A conversion into a folder prints nothing, and one that fails changes nothing but the events
(`convert_into`). So a run into a folder changes files only where the translation of an input
belongs, and is as if the inputs that fail had not been there (`execute_frame`).
-/

namespace BitSynth.Console

variable {o : Options} {s : Settings} {d : Disk} {w : Session} {dir input text : String}

/-! ## One conversion -/

theorem deliver_into (hdir : o.outDir = some dir) (w : Session) : ∃ r d events,
    deliver Session.host o input text w = (r, { w with disk := d, events := events })
      ∧ ∀ e, r = .error e → d = w.disk := by
  cases hwrite : w.disk.write (outputPath dir input o.goal) text with
  | error cause =>
    refine ⟨.error (.unwritable (outputPath dir input o.goal) cause), w.disk, w.events, ?_,
      fun _ _ => rfl⟩
    simp only [deliver, hdir, bind_apply, write_of_error hwrite]
    rfl
  | ok d =>
    obtain ⟨events, hnote⟩ := note_eq o .info ("Wrote " ++ outputPath dir input o.goal)
      { w with disk := d }
    refine ⟨.ok (), d, events, ?_, ?_⟩
    · simp only [deliver, hdir, bind_apply, write_of_ok hwrite, hnote]
      rfl
    · rintro e ⟨⟩

/-- A conversion into a folder changes the disk and the events at most, and if it fails only the
events. -/
theorem convert_into (hdir : o.outDir = some dir) (s : Settings) (input : String) (w : Session) :
    ∃ r d events, convert Session.host o s input w = (r, { w with disk := d, events := events })
      ∧ ∀ e, r = .error e → d = w.disk := by
  cases h : outcome o s w.disk input with
  | error e =>
    obtain ⟨events, hconvert⟩ := convert_of_error h
    exact ⟨.error e, w.disk, events, hconvert, fun _ _ => rfl⟩
  | ok text =>
    obtain ⟨events, hconvert⟩ := convert_eq_deliver h
    rw [hconvert]
    exact deliver_into hdir _

theorem translated?_eq_some_iff_outcome :
    translated? o s d input = some text ↔ outcome o s d input = .ok text := by
  rw [translated?_eq_some_iff, outcome_eq]
  cases d.read input with
  | error cause => simp
  | ok source => simp [mapError_eq_ok_iff]

/-! ## A whole run -/

theorem output_convertAll (hdir : o.outDir = some dir) (s : Settings) :
    ∀ (inputs : List String) (w : Session),
      (convertAll Session.host o s inputs w).2.output = w.output
  | [], _ => rfl
  | input :: inputs, w => by
    obtain ⟨r, d, events, hconvert, -⟩ := convert_into hdir s input w
    obtain ⟨unstyled, events', failed, w', hrest, hall⟩ := convertAll_cons inputs hconvert
    rw [hall]
    exact (congrArg (·.2.output) hrest).symm.trans (output_convertAll hdir s inputs _)

/-- The settings of a run are those in force, and loading them leaves the disk as it is. -/
theorem effective_of_loadSettings {w₀ : Session}
    (h : loadSettings Session.host o w = (.ok s, w₀)) :
    effective o w.disk = .ok s ∧ w₀.disk = w.disk := by
  obtain ⟨events, hload⟩ := loadSettings_eq o w
  obtain ⟨hs, rfl⟩ := Prod.mk.inj (hload.symm.trans h)
  exact ⟨hs, rfl⟩

theorem disk_run_of_ok (hs : effective o w.disk = .ok s) :
    (run Session.host o w).2.disk = o.inputs.foldl (converted o s) w.disk := by
  obtain ⟨events, hload⟩ := loadSettings_eq o w
  rw [disk_run, hload, hs]

theorem output_run (hdir : o.outDir = some dir) (w : Session) :
    (run Session.host o w).2.output = w.output := by
  cases h : effective o w.disk with
  | error e =>
    obtain ⟨unstyled, events, hrun⟩ := run_of_error w h
    rw [hrun]
  | ok s =>
    obtain ⟨events, hload⟩ := loadSettings_eq o w
    rw [run, bind_apply, hload, h]
    exact output_convertAll hdir s o.inputs { w with events := events }

/-- What is not as it was is the output of an input that was translated at its turn. -/
theorem exists_of_entry_run_ne {p : Place} (hdir : o.outDir = some dir)
    (hchanged : (run Session.host o w).2.disk.entry p ≠ w.disk.entry p) :
    ∃ s w₀ before input after text, loadSettings Session.host o w = (.ok s, w₀)
      ∧ o.inputs = before ++ input :: after
      ∧ outcome o s (convertAll Session.host o s before w₀).2.disk input = .ok text
      ∧ w.disk.locate (outputPath dir input o.goal) = .ok p
      ∧ (run Session.host o w).2.disk.entry p = .file (.text text) := by
  obtain ⟨events, hload⟩ := loadSettings_eq o w
  cases hs : effective o w.disk with
  | error e =>
    refine absurd ?_ hchanged
    rw [disk_run, hload, hs]
  | ok s =>
    rw [hs] at hload
    rw [disk_run_of_ok hs] at hchanged ⊢
    obtain ⟨before, input, after, text, hinputs, hwrites, hentry⟩ :=
      (entry_foldl o s p o.inputs w.disk).resolve_right hchanged
    obtain ⟨htext, dir', hdir', hp, -⟩ := hwrites
    obtain rfl : dir = dir' := Option.some.inj (hdir.symm.trans hdir')
    refine ⟨s, _, before, input, after, text, hload, hinputs, ?_,
      (sameFolders_foldl o s before w.disk).locate.2 hp, hentry⟩
    rw [disk_convertAll]
    exact translated?_eq_some_iff_outcome.1 htext

/-- An input that fails at its turn leaves the disk to those after it as those before it did. -/
theorem disk_run_of_convert_error {w₀ : Session} {before after : List String} {e : RunError}
    (hload : loadSettings Session.host o w = (.ok s, w₀)) (hdir : o.outDir = some dir)
    (hinputs : o.inputs = before ++ input :: after)
    (he : (convert Session.host o s input (convertAll Session.host o s before w₀).2).1
      = .error e) :
    (run Session.host o w).2.disk
      = (run Session.host { o with inputs := before ++ after } w).2.disk := by
  obtain ⟨hs, hdisk⟩ := effective_of_loadSettings hload
  have hsame : converted o s (before.foldl (converted o s) w.disk) input
      = before.foldl (converted o s) w.disk := by
    obtain ⟨r, d, events, hconvert, hkept⟩ := convert_into hdir s input
      (convertAll Session.host o s before w₀).2
    rw [hconvert] at he
    rw [← hdisk, ← disk_convertAll, ← disk_convert, hconvert]
    exact hkept e he
  have hwithout : (run Session.host { o with inputs := before ++ after } w).2.disk
      = (before ++ after).foldl (converted o s) w.disk :=
    disk_run_of_ok (o := { o with inputs := before ++ after }) hs
  rw [disk_run_of_ok hs, hwithout, hinputs, List.foldl_append, List.foldl_append, List.foldl_cons,
    hsame]

/-- A run that puts its outputs into a folder prints nothing. A file that is new or not as it was is
the output of an input that was translated at its turn, and holds that translation. An input that
has no translation fails, and one that fails changes no more than the events: in the end the disk is
as if it had not been among the inputs. -/
theorem execute_frame {args : List String} (hargs : Request.ofArgs args = .convert o)
    (hdir : o.outDir = some dir) (w : Session) :
    (execute Session.host args w).2.output = w.output
      ∧ (∀ p, (execute Session.host args w).2.disk.entry p ≠ w.disk.entry p →
        ∃ s w₀ before input after text, loadSettings Session.host o w = (.ok s, w₀)
          ∧ o.inputs = before ++ input :: after
          ∧ outcome o s (convertAll Session.host o s before w₀).2.disk input = .ok text
          ∧ w.disk.locate (outputPath dir input o.goal) = .ok p
          ∧ (execute Session.host args w).2.disk.entry p = .file (.text text))
      ∧ ∀ s w₀ before input after e turn, loadSettings Session.host o w = (.ok s, w₀) →
        o.inputs = before ++ input :: after → (convertAll Session.host o s before w₀).2 = turn →
          (outcome o s turn.disk input = .error e →
            (convert Session.host o s input turn).1 = .error e)
          ∧ ((convert Session.host o s input turn).1 = .error e →
            (∃ events, (convert Session.host o s input turn).2 = { turn with events := events })
            ∧ (execute Session.host args w).2.disk
              = (run Session.host { o with inputs := before ++ after } w).2.disk) := by
  have hexecute : execute Session.host args w = run Session.host o w := by
    rw [execute, hargs]
  rw [hexecute]
  refine ⟨output_run hdir w, fun p hchanged => exists_of_entry_run_ne hdir hchanged, ?_⟩
  rintro s w₀ before input after e turn hload hinputs rfl
  refine ⟨fun h => ?_, fun he => ⟨?_, disk_run_of_convert_error hload hdir hinputs he⟩⟩
  · obtain ⟨events, hconvert⟩ := convert_of_error h
    rw [hconvert]
  · obtain ⟨r, d, events, hconvert, hkept⟩ := convert_into hdir s input
      (convertAll Session.host o s before w₀).2
    rw [hconvert] at he ⊢
    refine ⟨events, ?_⟩
    rw [hkept e he]

/-- A session with a problem, half of one, and a folder for the outputs. -/
def Session.ofHalf : Session where
  disk := { halfDisk with folders := [["out"]] }

def Options.ofHalf : Options where
  inputs := ["half.bv", "whole.bv"]
  target := some .script
  outDir := some "out"

/-- Half a problem leaves no trace, and what is new is an output. -/
theorem execute_frame_halfDisk :
    Request.ofArgs ["-f", "notation", "-o", "out", "half.bv", "whole.bv"] = .convert .ofHalf
      ∧ ∃ w, (execute Session.host ["-f", "notation", "-o", "out", "half.bv", "whole.bv"]
          Session.ofHalf).2 = w
        ∧ w.output = ""
        ∧ w.disk = (run Session.host { Options.ofHalf with inputs := ["whole.bv"] } .ofHalf).2.disk
        ∧ ∃ text, w.disk.entry ["out", "whole.txt"] = .file (.text text) := by
  have hargs : Request.ofArgs ["-f", "notation", "-o", "out", "half.bv", "whole.bv"]
      = .convert .ofHalf := by
    decide +kernel
  obtain ⟨houtput, hchanged, hfailed⟩ := execute_frame hargs rfl Session.ofHalf
  obtain ⟨hfails, hwithout⟩ := hfailed {} .ofHalf [] "half.bv" ["whole.bv"]
    (.translation (.shape (.missingBlock .lib))) _ rfl rfl rfl
  obtain ⟨-, hdisk⟩ := hwithout (hfails (by decide +kernel))
  obtain ⟨s, w₀, before, input, after, text, -, -, -, -, hentry⟩ :=
    hchanged ["out", "whole.txt"] (by decide +kernel)
  exact ⟨hargs, _, rfl, houtput, hdisk, text, hentry⟩

end BitSynth.Console
