import BitSynth.Proofs.Console.Conversion

/-!
# What a run prints and reports

A setting is taken from the options, else from the settings file, else it is the usual one, and only
the outcome must be valid (`loadSettings_eq`). An input has a translation or a reason against it,
whatever becomes of the others. Without a folder for the outputs a run leaves the disk as it is,
prints the translations of its inputs in their order, and reports the others in theirs, among them
those whose translation the standard output does not take (`convertAll_eq`).
-/

namespace BitSynth

/-! ## The settings of a run -/

/-- What a text says about the settings, as far as it says anything. -/
structure Settings.Stated where
  tagBits : Option Nat := none
  policy : Option LiteralPolicy := none

namespace Settings.Stated

/-- The setting of this name, if a document has it, must be one that can be read. -/
def setting? {α : Type} (d : Document) (name : String) (read : Node → Option α) :
    Option (Option α) :=
  match d.node? [name] with
  | none => some none
  | some node => (read node).map some

def ofDocument? (d : Document) : Option Stated :=
  if (d.members []).all fun m => m.1 = "tag_bits" ∨ m.1 = "literal_policy" then do
    let tagBits ← setting? d "tag_bits" File.tagBits?
    let policy ← setting? d "literal_policy" fun node =>
      (File.choice? d ["literal_policy"] node).bind LiteralPolicy.ofName?
    return ⟨tagBits, policy⟩
  else none

def ofText? (text : String) : Option Stated := do
  let d ← File.lines? {} [] (File.withoutMark text.toList)
  ofDocument? d

theorem setting?_eq {α : Type} (d : Document) (name : String) (usual : α)
    (read : Node → Option α) :
    File.setting? d name usual read
      = (setting? d name read).map fun stated => stated.getD usual := by
  unfold File.setting? setting?
  cases d.node? [name] with
  | none => rfl
  | some node =>
    simp only
    cases read node <;> rfl

/-- The settings, with the usual ones where nothing is said. -/
def settings (g : Stated) : Settings where
  tagBits := g.tagBits.getD 4
  policy := g.policy.getD .truncate

theorem ofDocument?_eq (d : Document) : File.settings? d = (ofDocument? d).map settings := by
  unfold File.settings? ofDocument?
  simp only [setting?_eq]
  split_ifs
  · cases setting? d "tag_bits" File.tagBits? with
    | none => rfl
    | some tagBits =>
      cases setting? d "literal_policy" fun node =>
          (File.choice? d ["literal_policy"] node).bind LiteralPolicy.ofName? with
      | none => rfl
      | some policy => rfl
  · rfl

theorem ofText?_eq (text : String) : Settings.ofText? text = (ofText? text).map settings := by
  unfold Settings.ofText? ofText?
  cases File.lines? {} [] (File.withoutMark text.toList) with
  | none => rfl
  | some d => exact ofDocument?_eq d

end Settings.Stated

namespace Console

open Settings (Stated)

variable {o : Options} {s : Settings} {d : Disk} {w : Session} {input : String}

/-- What is set by the options, else by the file, else as usual. -/
def Options.inForce (o : Options) (g : Stated) : Settings where
  tagBits := (o.tagBits.or g.tagBits).getD 4
  policy := if o.strict then .strict else g.policy.getD .truncate

theorem override_settings (o : Options) (g : Stated) : o.override g.settings = o.inForce g := by
  unfold Options.override Options.inForce
  cases o.tagBits <;> rfl

/-- What the settings file says, if the options name one. -/
def stated (o : Options) (d : Disk) : Except RunError Stated :=
  match o.settingsFile with
  | none => .ok {}
  | some path =>
    match d.read path with
    | .error cause => .error (.unreadable path cause)
    | .ok text =>
      match Stated.ofText? text with
      | none => .error (.badSettings path text)
      | some g => .ok g

/-- The settings of a run that finds the disk like this, or the reason why it has none. -/
def effective (o : Options) (d : Disk) : Except RunError Settings :=
  match stated o d with
  | .error e => .error e
  | .ok g =>
    if (o.inForce g).Valid then .ok (o.inForce g)
    else .error (.translation (.invalidTagBits (o.inForce g).tagBits))

/-- What comes of an input: its translation, or the first reason against it. -/
def outcome (o : Options) (s : Settings) (d : Disk) (input : String) : Except RunError String :=
  match d.read input with
  | .error cause => .error (.unreadable input cause)
  | .ok source =>
    match (Program.read source).result with
    | .error e => .error (.translation e)
    | .ok p => (p.translate o.goal s).result.mapError .translation

/-- The translations of the inputs that have one. -/
def translations (o : Options) (s : Settings) (d : Disk) (inputs : List String) : List String :=
  inputs.filterMap fun input => (outcome o s d input).toOption

/-- A report for each of the other inputs. -/
def failures (o : Options) (s : Settings) (d : Disk) (inputs : List String) : List Report :=
  inputs.filterMap fun input =>
    match outcome o s d input with
    | .error e => some ⟨input, e⟩
    | .ok _ => none

/-- The report on an input that the result of its conversion calls for, if any. -/
def reportsOf (input : String) : Except RunError Unit → List Report
  | .ok () => []
  | .error e => [⟨input, e⟩]

/-- What becomes of an input whose translation is to be printed: what gets through of that, and
whether the conversion succeeds. -/
structure Fate where
  input : String
  printed : String
  result : Except RunError Unit

def Fate.reports (f : Fate) : List Report := reportsOf f.input f.result

/-- The fate of an input, and where the texts after it will be cut off. Only a translation is
printed, so only that can be cut off. -/
def fate (o : Options) (s : Settings) (d : Disk) (cutoffs : List (Option Cutoff))
    (input : String) : Fate × List (Option Cutoff) :=
  match outcome o s d input with
  | .error e => (⟨input, "", .error e⟩, cutoffs)
  | .ok text =>
    let cutoff? := cutoffs.head?.join
    (⟨input, Cutoff.part text cutoff?,
      (Cutoff.result cutoff?).mapError (.unwritable standardOutput)⟩, cutoffs.tail)

theorem input_fate (o : Options) (s : Settings) (d : Disk) (cutoffs : List (Option Cutoff))
    (input : String) : (fate o s d cutoffs input).1.input = input := by
  unfold fate
  cases outcome o s d input <;> rfl

def fates (o : Options) (s : Settings) (d : Disk) :
    (cutoffs : List (Option Cutoff)) → (inputs : List String) → List Fate
  | _, [] => []
  | cutoffs, input :: inputs =>
    let (f, cutoffs) := fate o s d cutoffs input
    f :: fates o s d cutoffs inputs

/-- What inputs with these fates make of a session: nothing new on the disk, what gets through of
their translations, and a report for each input that failed. -/
structure Shows (fs : List Fate) (w w' : Session) : Prop where
  disk : w'.disk = w.disk
  output : w'.output = w.output ++ String.join (fs.map Fate.printed)
  reports : w'.reports = w.reports ++ fs.flatMap Fate.reports

/-! ## What each step prints and reports -/

theorem readSettings_eq (o : Options) (w : Session) : readSettings Session.host o w =
    ((stated o w.disk).map Stated.settings, w) := by
  unfold readSettings stated
  cases o.settingsFile with
  | none => rfl
  | some path =>
    simp only [bind_apply, read_apply]
    cases w.disk.read path with
    | error e => rfl
    | ok text =>
      simp only [Stated.ofText?_eq]
      cases Stated.ofText? text <;> rfl

theorem loadSettings_eq (o : Options) (w : Session) : ∃ events,
    loadSettings Session.host o w = (effective o w.disk, { w with events := events }) := by
  rw [loadSettings, bind_apply, readSettings_eq]
  unfold effective
  cases stated o w.disk with
  | error e => exact ⟨w.events, rfl⟩
  | ok g =>
    simp only [Except.map, override_settings, Settings.validate]
    split_ifs
    · obtain ⟨events, h⟩ := note_eq o .debug ("Using " ++ settingsText (o.inForce g)) w
      refine ⟨events, ?_⟩
      simp only [bind_apply, h]
      rfl
    · exact ⟨w.events, rfl⟩

/-- Reading a text and translating the program in it make up its translation. -/
theorem outcome_eq (o : Options) (s : Settings) (d : Disk) (input : String) :
    outcome o s d input =
      match d.read input with
      | .error cause => .error (.unreadable input cause)
      | .ok source => (translation o s source).result.mapError .translation := by
  have htranslation (source : String) : (translation o s source).result
      = (Program.read source).result >>= fun p => (p.translate o.goal s).result := by
    rw [translation, Logged.result_bind]
  unfold outcome
  cases d.read input with
  | error cause => rfl
  | ok source =>
    simp only [htranslation]
    cases (Program.read source).result <;> rfl

/-- An input without a translation leaves no trace but events. -/
theorem convert_of_error {e : RunError} (h : outcome o s w.disk input = .error e) :
    ∃ events, convert Session.host o s input w = (.error e, { w with events := events }) := by
  rw [outcome_eq] at h
  rw [convert, bind_apply, read_apply]
  cases hread : w.disk.read input with
  | error cause =>
    rw [hread] at h
    obtain rfl := Except.error.inj h
    exact ⟨w.events, rfl⟩
  | ok source =>
    rw [hread] at h
    obtain ⟨e, he, rfl⟩ := mapError_eq_error_iff.1 h
    obtain ⟨events, hrecord⟩ := recordAll_eq o (translation o s source).events w
    refine ⟨events, ?_⟩
    simp only [bind_apply, hrecord, he]
    rfl

/-- An input that has a translation is converted by putting that where the options want it. -/
theorem convert_eq_deliver {text : String} (h : outcome o s w.disk input = .ok text) : ∃ events,
    convert Session.host o s input w
      = deliver Session.host o input text { w with events := events } := by
  rw [outcome_eq] at h
  rw [convert, bind_apply, read_apply]
  cases hread : w.disk.read input with
  | error cause =>
    rw [hread] at h
    cases h
  | ok source =>
    rw [hread] at h
    obtain ⟨events, hrecord⟩ := recordAll_eq o (translation o s source).events w
    refine ⟨events, ?_⟩
    simp only [bind_apply, hrecord, mapError_eq_ok_iff.1 h]

/-- Without a folder for the outputs the translation of an input is printed. -/
theorem convert_eq (hdir : o.outDir = none) (s : Settings) (input : String) (w : Session) :
    ∃ events, convert Session.host o s input w =
      ((fate o s w.disk w.cutoffs input).1.result,
        { w with
          output := w.output ++ (fate o s w.disk w.cutoffs input).1.printed
          cutoffs := (fate o s w.disk w.cutoffs input).2
          events := events }) := by
  unfold fate
  cases h : outcome o s w.disk input with
  | error e =>
    obtain ⟨events, hconvert⟩ := convert_of_error h
    refine ⟨events, ?_⟩
    rw [hconvert, String.append_empty]
  | ok text =>
    obtain ⟨events, hconvert⟩ := convert_eq_deliver h
    refine ⟨events, ?_⟩
    rw [hconvert, deliver, hdir]
    simp only [bind_apply, print_apply]
    cases Cutoff.result w.cutoffs.head?.join <;> rfl

/-! ## What a run prints and reports -/

/-- The other inputs are converted whatever becomes of the first one, and if that fails it is
counted and reported. -/
theorem convertAll_cons {r : Except RunError Unit} {w' : Session} (inputs : List String)
    (h : convert Session.host o s input w = (r, w')) : ∃ unstyled events failed w'',
      convertAll Session.host o s inputs
          { w' with
            reports := w'.reports ++ reportsOf input r, unstyled := unstyled, events := events }
        = (failed, w'')
      ∧ convertAll Session.host o s (input :: inputs) w
        = ((reportsOf input r).length + failed, w'') := by
  rw [convertAll, bind_apply, h]
  cases r with
  | ok u =>
    obtain ⟨events, hnote⟩ := note_eq o .info ("Translated " ++ input) w'
    refine ⟨w'.unstyled, events, _, _, rfl, ?_⟩
    simp only [bind_apply, hnote, reportsOf, List.append_nil, List.length_nil, Nat.zero_add,
      Prod.eta]
  | error e =>
    obtain ⟨events, hnote⟩ := note_eq o .debug (input ++ " failed: " ++ reprStr e) w'
    obtain ⟨unstyled, events', hreport⟩ := report_eq o ⟨input, e⟩ { w' with events := events }
    refine ⟨unstyled, events', _, _, rfl, ?_⟩
    simp only [bind_apply, hnote, hreport, pure_apply, reportsOf, List.length_singleton,
      Nat.add_comm]

theorem Shows.cons {f : Fate} {fs : List Fate} {w w' w'' : Session} (h : Shows fs w' w'')
    (hdisk : w'.disk = w.disk) (houtput : w'.output = w.output ++ f.printed)
    (hreports : w'.reports = w.reports ++ f.reports) : Shows (f :: fs) w w'' where
  disk := h.disk.trans hdisk
  output := by rw [h.output, houtput, List.map_cons, String.join_cons, String.append_assoc]
  reports := by rw [h.reports, hreports, List.flatMap_cons, List.append_assoc]

theorem convertAll_eq (hdir : o.outDir = none) (s : Settings) :
    ∀ (inputs : List String) (w : Session), ∃ w',
      convertAll Session.host o s inputs w =
          (((fates o s w.disk w.cutoffs inputs).flatMap Fate.reports).length, w')
        ∧ Shows (fates o s w.disk w.cutoffs inputs) w w'
  | [], w => ⟨w, rfl, rfl, String.append_empty.symm, (List.append_nil _).symm⟩
  | input :: inputs, w => by
    have hreports : (fate o s w.disk w.cutoffs input).1.reports
        = reportsOf input (fate o s w.disk w.cutoffs input).1.result := by
      rw [Fate.reports, input_fate]
    obtain ⟨events, hconvert⟩ := convert_eq hdir s input w
    obtain ⟨unstyled, events', failed, w', hrest, hall⟩ := convertAll_cons inputs hconvert
    -- the later inputs find the same disk
    obtain ⟨w'', ih, hshows⟩ := convertAll_eq hdir s inputs _
    obtain ⟨rfl, rfl⟩ := Prod.mk.inj (hrest.symm.trans ih)
    rw [hall, fates, List.flatMap_cons, List.length_append, hreports]
    exact ⟨w', rfl, hshows.cons rfl rfl (congrArg (w.reports ++ ·) hreports.symm)⟩

/-! ## Whole runs -/

theorem head?_join_of_forall {cutoffs : List (Option Cutoff)} (h : ∀ c ∈ cutoffs, c = none) :
    cutoffs.head?.join = none := by
  cases cutoffs with
  | nil => rfl
  | cons c cutoffs => exact h c (List.mem_cons_self ..)

/-- What gets through where nothing is cut off: the translations, and the reports on the inputs that
have none. -/
theorem fates_of_uncut (o : Options) (s : Settings) (d : Disk) :
    ∀ (inputs : List String) {cutoffs : List (Option Cutoff)}, (∀ c ∈ cutoffs, c = none) →
      String.join ((fates o s d cutoffs inputs).map Fate.printed)
          = String.join (translations o s d inputs)
        ∧ (fates o s d cutoffs inputs).flatMap Fate.reports = failures o s d inputs
  | [], _, _ => ⟨rfl, rfl⟩
  | input :: inputs, cutoffs, hnone => by
    cases h : outcome o s d input with
    | error e =>
      obtain ⟨hprinted, hreports⟩ := fates_of_uncut o s d inputs hnone
      simp [fates, fate, h, hprinted, hreports, translations, failures, Except.toOption,
        Fate.reports, reportsOf]
    | ok text =>
      have hhead := head?_join_of_forall hnone
      obtain ⟨hprinted, hreports⟩ := fates_of_uncut o s d inputs
        fun c hc => hnone c (List.mem_of_mem_tail hc)
      simp [fates, fate, h, hhead, hprinted, hreports, translations, failures, Except.toOption,
        Fate.reports, reportsOf, Cutoff.part, Cutoff.result, Except.mapError]

/-- No report is called for if each input has a translation and none of these is cut off. -/
theorem reports_fates_eq_nil_iff (o : Options) (s : Settings) (d : Disk) :
    ∀ (inputs : List String) (cutoffs : List (Option Cutoff)),
      (fates o s d cutoffs inputs).flatMap Fate.reports = [] ↔
        (∀ input ∈ inputs, ∃ text, outcome o s d input = .ok text)
          ∧ ∀ c ∈ cutoffs.take inputs.length, c = none
  | [], cutoffs => by simp [fates]
  | input :: inputs, cutoffs => by
    cases h : outcome o s d input with
    | error e => simp [fates, fate, h, Fate.reports, reportsOf]
    | ok text =>
      have ih := reports_fates_eq_nil_iff o s d inputs cutoffs.tail
      have hturn : (fates o s d cutoffs (input :: inputs)).flatMap Fate.reports = [] ↔
          cutoffs.head?.join = none
            ∧ (fates o s d cutoffs.tail inputs).flatMap Fate.reports = [] := by
        cases hcutoff : cutoffs.head?.join <;>
          simp [fates, fate, h, hcutoff, Fate.reports, reportsOf, Cutoff.result, Except.mapError]
      rw [hturn, ih, List.forall_mem_cons, and_iff_right (⟨text, h⟩ : ∃ text, _ = _)]
      cases cutoffs with
      | nil => simp
      | cons c cutoffs =>
        rw [List.length_cons, List.take_succ_cons, List.forall_mem_cons]
        exact and_left_comm

/-- A run without settings comes to no input. -/
theorem run_of_error {e : RunError} (w : Session) (h : effective o w.disk = .error e) :
    ∃ unstyled events, run Session.host o w =
      (1, { w with
        reports := w.reports ++ [⟨"configuration", e⟩], unstyled := unstyled
        events := events }) := by
  obtain ⟨events, hload⟩ := loadSettings_eq o w
  obtain ⟨unstyled, events', hreport⟩ :=
    report_eq o ⟨"configuration", e⟩ { w with events := events }
  refine ⟨unstyled, events', ?_⟩
  rw [run, bind_apply, hload, h]
  simp only [bind_apply, hreport, pure_apply]

theorem run_of_ok (hdir : o.outDir = none) (w : Session) (h : effective o w.disk = .ok s) :
    ∃ w', run Session.host o w =
        (if (fates o s w.disk w.cutoffs o.inputs).flatMap Fate.reports = [] then 0 else 1, w')
      ∧ Shows (fates o s w.disk w.cutoffs o.inputs) w w' := by
  obtain ⟨events, hload⟩ := loadSettings_eq o w
  obtain ⟨w', hconvert, hshows⟩ := convertAll_eq hdir s o.inputs { w with events := events }
  refine ⟨w', ?_, hshows.disk, hshows.output, hshows.reports⟩
  rw [run, bind_apply, hload, h]
  simp only [bind_apply, hconvert, List.length_eq_zero_iff, pure_apply]

/-- Without a folder for the outputs a run leaves the disk as it is. If it has no settings, it
reports that and nothing else, prints nothing and fails. Otherwise it prints the translations of the
inputs that have one, in their order and as far as the standard output takes them, and reports each
input that has none or whose translation was cut off. It succeeds if there are no such. So as long
as nothing is cut off, it prints the translations, reports the other inputs in their order, and
succeeds if there are none. -/
theorem execute_streams {args : List String} (hargs : Request.ofArgs args = .convert o)
    (hdir : o.outDir = none) (w : Session) : ∃ code w',
      execute Session.host args w = (code, w') ∧ w'.disk = w.disk
        ∧ (∀ e, effective o w.disk = .error e →
          code = 1 ∧ w'.output = w.output ∧ w'.reports = w.reports ++ [⟨"configuration", e⟩])
        ∧ ∀ s, effective o w.disk = .ok s →
          Shows (fates o s w.disk w.cutoffs o.inputs) w w'
            ∧ (code = 0 ↔ (∀ input ∈ o.inputs, ∃ text, outcome o s w.disk input = .ok text)
              ∧ ∀ c ∈ w.cutoffs.take o.inputs.length, c = none)
            ∧ (code = 0 ∨ code = 1)
            ∧ ((∀ c ∈ w.cutoffs, c = none) →
              w'.output = w.output ++ String.join (translations o s w.disk o.inputs)
                ∧ w'.reports = w.reports ++ failures o s w.disk o.inputs
                ∧ (code = 0 ↔ ∀ input ∈ o.inputs, ∃ text,
                  outcome o s w.disk input = .ok text)) := by
  have hexecute : execute Session.host args w = run Session.host o w := by
    rw [execute, hargs]
  rw [hexecute]
  cases heffective : effective o w.disk with
  | error e =>
    obtain ⟨unstyled, events, hrun⟩ := run_of_error w heffective
    refine ⟨1, _, hrun, rfl, fun e' he => ?_, nofun⟩
    obtain rfl := Except.error.inj he
    exact ⟨rfl, rfl, rfl⟩
  | ok s =>
    obtain ⟨w', hrun, hshows⟩ := run_of_ok hdir w heffective
    refine ⟨_, w', hrun, hshows.disk, nofun, fun s' hs => ?_⟩
    obtain rfl := Except.ok.inj hs
    have hzero (reports : List Report) : (if reports = [] then 0 else 1) = 0 ↔ reports = [] := by
      split_ifs with h <;> simp [h]
    have hcode :=
      (hzero _).trans (reports_fates_eq_nil_iff o s w.disk o.inputs w.cutoffs)
    refine ⟨hshows, hcode, ?_, fun hnone => ?_⟩
    · split_ifs <;> simp
    · obtain ⟨hprinted, hreports⟩ := fates_of_uncut o s w.disk o.inputs hnone
      refine ⟨hprinted ▸ hshows.output, hreports ▸ hshows.reports, ?_⟩
      exact hcode.trans (and_iff_left fun c hc => hnone c (List.mem_of_mem_take hc))

/-- A settings file with a number of bits that is not valid, a problem and half of one. -/
def halfDisk : Disk where
  files := [(["usual.toml"], .text "tag_bits = 0\nliteral_policy = \"strict\"\n"),
    (["whole.bv"], .text "(spec 1 4 x x) (lib add)"), (["half.bv"], .text "(spec 1 4 x x)")]

/-- The number of bits in the file is the reason for a failure, unless an option takes its place.
Then an input that comes twice is printed twice, and the two between are reported. Where the first
text is cut off, the input is reported for that, and the second text is printed all the same. -/
theorem execute_streams_halfDisk :
    (∃ w, execute Session.host ["-c", "usual.toml", "whole.bv"] { disk := halfDisk } = (1, w)
      ∧ w.disk = halfDisk ∧ w.output = ""
      ∧ w.reports = [⟨"configuration", .translation (.invalidTagBits 0)⟩])
    ∧ (∃ w, execute Session.host ["-c", "usual.toml", "--tag-bits", "3", "-f", "notation",
        "whole.bv", "gone.bv", "half.bv", "whole.bv"] { disk := halfDisk } = (1, w)
      ∧ w.disk = halfDisk
      ∧ w.output = "bitwidth 4\nspec 1 x -> x\nlib add\nalgo list\ntiming\nsynth\nquit\n"
        ++ "bitwidth 4\nspec 1 x -> x\nlib add\nalgo list\ntiming\nsynth\nquit\n"
      ∧ w.reports.map Report.subject = ["gone.bv", "half.bv"])
    ∧ ∃ w, execute Session.host ["-f", "notation", "whole.bv", "whole.bv"]
        { disk := halfDisk, cutoffs := [some ⟨8, .system 28 "No space left on device"⟩] } = (1, w)
      ∧ w.output
        = "bitwidth" ++ "bitwidth 4\nspec 1 x -> x\nlib add\nalgo list\ntiming\nsynth\nquit\n"
      ∧ w.reports
        = [⟨"whole.bv", .unwritable "<stdout>" (.system 28 "No space left on device")⟩] := by
  refine ⟨?_, ?_, ?_⟩
  · have hargs : Request.ofArgs ["-c", "usual.toml", "whole.bv"]
        = .convert { inputs := ["whole.bv"], settingsFile := some "usual.toml" } := by
      decide +kernel
    obtain ⟨code, w, hrun, hdisk, hrefused, -⟩ := execute_streams hargs rfl { disk := halfDisk }
    obtain ⟨rfl, houtput, hreports⟩ :=
      hrefused (.translation (.invalidTagBits 0)) (by decide +kernel)
    exact ⟨w, hrun, hdisk, houtput, hreports⟩
  · have hargs : Request.ofArgs ["-c", "usual.toml", "--tag-bits", "3", "-f", "notation",
          "whole.bv", "gone.bv", "half.bv", "whole.bv"]
        = .convert { inputs := ["whole.bv", "gone.bv", "half.bv", "whole.bv"],
                     target := some .script, tagBits := some 3,
                     settingsFile := some "usual.toml" } := by
      decide +kernel
    obtain ⟨code, w, hrun, hdisk, -, hconverted⟩ := execute_streams hargs rfl { disk := halfDisk }
    obtain ⟨-, -, hbound, huncut⟩ := hconverted ⟨3, .strict⟩ (by decide +kernel)
    obtain ⟨houtput, hreports, hcode⟩ := huncut nofun
    have hgone : code ≠ 0 := fun hzero => by
      obtain ⟨text, htext⟩ := hcode.1 hzero "gone.bv" (by decide)
      have hok : (outcome _ _ _ "gone.bv").isOk = true := congrArg Except.isOk htext
      exact absurd hok (by decide +kernel)
    obtain rfl := hbound.resolve_left hgone
    refine ⟨w, hrun, hdisk, houtput.trans ?_, hreports ▸ ?_⟩ <;> decide +kernel
  · have hargs : Request.ofArgs ["-f", "notation", "whole.bv", "whole.bv"]
        = .convert { inputs := ["whole.bv", "whole.bv"], target := some .script } := by
      decide +kernel
    obtain ⟨code, w, hrun, -, -, hconverted⟩ := execute_streams hargs rfl
      { disk := halfDisk, cutoffs := [some ⟨8, .system 28 "No space left on device"⟩] }
    obtain ⟨hshows, hcode, hbound, -⟩ := hconverted {} (by decide +kernel)
    have hcut : code ≠ 0 := fun hzero => nomatch (hcode.1 hzero).2 _ (List.mem_cons_self ..)
    obtain rfl := hbound.resolve_left hcut
    refine ⟨w, hrun, hshows.output.trans ?_, hshows.reports.trans ?_⟩ <;> decide +kernel

end Console

end BitSynth
