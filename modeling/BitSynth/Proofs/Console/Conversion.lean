import BitSynth.Proofs.Console.Location

/-!
# What a run does to the disk

Of all that a run does, only the conversion of an input into a folder writes to the disk. So the
disk after a run is that before it with the conversions applied in the order of the inputs
(`disk_run`), and what lies at a place in the end was written there by one of the conversions or
lay there from the beginning (`entry_foldl`).
-/

namespace BitSynth.Console

variable {o : Options} {s : Settings} {d : Disk} {w : Session} {input : String}

/-! ## One conversion -/

/-- The translation of a file as it is on the disk, if it can be read and translated. -/
def translated? (o : Options) (s : Settings) (d : Disk) (input : String) : Option String :=
  match d.read input with
  | .error _ => none
  | .ok source => (translation o s source).result.toOption

/-- The disk after the translation of an input was put where the options want it. -/
def delivered (o : Options) (d : Disk) (input text : String) : Disk :=
  match o.outDir with
  | none => d
  | some dir => ((d.write (outputPath dir input o.goal) text).toOption).getD d

/-- The disk after the conversion of an input. -/
def converted (o : Options) (s : Settings) (d : Disk) (input : String) : Disk :=
  match translated? o s d input with
  | none => d
  | some text => delivered o d input text

theorem translated?_eq_some_iff {text : String} : translated? o s d input = some text ↔
    ∃ source, d.read input = .ok source ∧ (translation o s source).result = .ok text := by
  unfold translated?
  cases d.read input with
  | error e => simp
  | ok source => simp [toOption_eq_some_iff]

/-! ### Effects -/

theorem bind_apply {α β : Type} (x : StateM Session α) (f : α → StateM Session β) (w : Session) :
    (x >>= f) w = f (x w).1 (x w).2 := rfl

theorem pure_apply {α : Type} (a : α) (w : Session) : (pure a : StateM Session α) w = (a, w) := rfl

theorem read_apply (path : String) (w : Session) :
    Session.host.read path w = (w.disk.read path, w) := rfl

theorem write_of_ok {path text : String} (h : w.disk.write path text = .ok d) :
    Session.host.write path text w = (.ok (), { w with disk := d }) := by
  simp only [Session.host, h]

theorem write_of_error {path text : String} {e : FileError}
    (h : w.disk.write path text = .error e) : Session.host.write path text w = (.error e, w) := by
  simp only [Session.host, h]

theorem print_apply (text : String) (w : Session) : Session.host.print text w =
    (Cutoff.result w.cutoffs.head?.join,
      { w with
        output := w.output ++ Cutoff.part text w.cutoffs.head?.join
        cutoffs := w.cutoffs.tail }) := rfl

theorem recordAll_eq (o : Options) : ∀ (es : List Event) (w : Session), ∃ events,
    recordAll Session.host o es w = ((), { w with events := events })
  | [], w => ⟨w.events, rfl⟩
  | e :: es, w => by
    rw [recordAll]
    split_ifs
    · obtain ⟨events, h⟩ := recordAll_eq o es { w with events := w.events ++ [e] }
      exact ⟨events, h⟩
    · exact recordAll_eq o es w

theorem note_eq (o : Options) (level : Level) (message : String) (w : Session) : ∃ events,
    note Session.host o level message w = ((), { w with events := events }) :=
  recordAll_eq o _ w

/-- One report comes of a failure, be it in style or on a plain line. -/
theorem report_eq (o : Options) (r : Report) (w : Session) : ∃ unstyled events,
    report Session.host o r w =
      ((), { w with reports := w.reports ++ [r], unstyled := unstyled, events := events }) := by
  rw [report, bind_apply]
  cases hstyled : w.unstyled.head?.join with
  | none =>
    refine ⟨w.unstyled.tail, w.events, ?_⟩
    simp only [Session.host, hstyled]
    rfl
  | some cause =>
    obtain ⟨events, hnote⟩ := note_eq o .debug ("Styled report failed: " ++ cause.text)
      { w with unstyled := w.unstyled.tail }
    refine ⟨w.unstyled.tail, events, ?_⟩
    have hhost : Session.host.reportStyled r w
        = (.error cause, { w with unstyled := w.unstyled.tail }) := by
      simp only [Session.host, hstyled]
    simp only [hhost, bind_apply, hnote]
    rfl

theorem disk_recordAll (o : Options) (es : List Event) (w : Session) :
    (recordAll Session.host o es w).2.disk = w.disk := by
  obtain ⟨events, h⟩ := recordAll_eq o es w
  rw [h]

theorem disk_note (o : Options) (level : Level) (message : String) (w : Session) :
    (note Session.host o level message w).2.disk = w.disk := disk_recordAll o _ w

theorem disk_report (o : Options) (r : Report) (w : Session) :
    (report Session.host o r w).2.disk = w.disk := by
  obtain ⟨unstyled, events, h⟩ := report_eq o r w
  rw [h]

theorem disk_deliver (o : Options) (input text : String) (w : Session) :
    (deliver Session.host o input text w).2.disk = delivered o w.disk input text := by
  unfold deliver delivered
  cases o.outDir with
  | none =>
    simp only [bind_apply, print_apply]
    cases Cutoff.result w.cutoffs.head?.join <;> rfl
  | some dir =>
    cases hwrite : w.disk.write (outputPath dir input o.goal) text with
    | error e =>
      simp only [bind_apply, write_of_error hwrite, hwrite]
      rfl
    | ok d =>
      simp only [bind_apply, write_of_ok hwrite, hwrite]
      exact disk_note o _ _ _

theorem disk_convert (o : Options) (s : Settings) (input : String) (w : Session) :
    (convert Session.host o s input w).2.disk = converted o s w.disk input := by
  have hdisk (source : String) := disk_recordAll o (translation o s source).events w
  unfold convert converted translated?
  rw [bind_apply, read_apply]
  cases w.disk.read input with
  | error e => rfl
  | ok source =>
    simp only [bind_apply]
    cases (translation o s source).result with
    | error e =>
      simp only [pure_apply, hdisk]
      rfl
    | ok text =>
      simp only [disk_deliver, hdisk]
      rfl

/-! ## A whole run -/

theorem disk_convertAll (o : Options) (s : Settings) : ∀ (inputs : List String) (w : Session),
    (convertAll Session.host o s inputs w).2.disk = inputs.foldl (converted o s) w.disk
  | [], _ => rfl
  | input :: inputs, w => by
    rw [List.foldl_cons, ← disk_convert o s input w, convertAll, bind_apply]
    cases (convert Session.host o s input w).1 with
    | ok u =>
      simp only [bind_apply]
      rw [disk_convertAll o s inputs, disk_note]
    | error e =>
      simp only [bind_apply]
      refine (disk_convertAll o s inputs _).trans ?_
      rw [disk_report, disk_note]

theorem disk_readSettings (o : Options) (w : Session) :
    (readSettings Session.host o w).2.disk = w.disk := by
  unfold readSettings
  cases o.settingsFile with
  | none => rfl
  | some path =>
    simp only [bind_apply, read_apply]
    cases w.disk.read path with
    | error e => rfl
    | ok text =>
      simp only
      cases Settings.ofText? text <;> rfl

theorem disk_loadSettings (o : Options) (w : Session) :
    (loadSettings Session.host o w).2.disk = w.disk := by
  have hread := disk_readSettings o w
  rw [loadSettings, bind_apply]
  cases (readSettings Session.host o w).1 with
  | error e => exact hread
  | ok s =>
    simp only
    cases (o.override s).validate with
    | error e => exact hread
    | ok u =>
      simp only [bind_apply]
      exact (disk_note o _ _ _).trans hread

/-- Without valid settings a run writes nothing, and with them it converts its inputs in order. -/
theorem disk_run (o : Options) (w : Session) : (run Session.host o w).2.disk =
    match (loadSettings Session.host o w).1 with
    | .error _ => w.disk
    | .ok s => o.inputs.foldl (converted o s) w.disk := by
  have hload := disk_loadSettings o w
  rw [run, bind_apply]
  cases (loadSettings Session.host o w).1 with
  | error e => exact (disk_report o _ _).trans hload
  | ok s =>
    simp only [bind_apply]
    rw [← hload]
    exact disk_convertAll o s o.inputs _

theorem disk_execute (args : List String) (w : Session) : (execute Session.host args w).2.disk =
    match Request.ofArgs args with
    | .convert o => (run Session.host o w).2.disk
    | _ => w.disk := by
  unfold execute
  cases Request.ofArgs args <;> rfl

/-! ## What the conversions write -/

/-- The conversion of the input puts the text at the place. -/
def Writes (o : Options) (s : Settings) (d : Disk) (input : String) (p : Place) (text : String) :
    Prop :=
  translated? o s d input = some text ∧
    ∃ dir, o.outDir = some dir ∧ d.locate (outputPath dir input o.goal) = .ok p ∧
      d.entry p ≠ .folder

variable {p : Place} {text : String} {inputs : List String}

theorem Writes.stem_ne_empty (h : Writes o s d input p text) : stem input ≠ "" := by
  obtain ⟨source, hread, -⟩ := translated?_eq_some_iff.1 h.1
  exact Disk.stem_ne_empty_of_read hread

theorem converted_of_writes (h : Writes o s d input p text) :
    converted o s d input = d.put p text := by
  obtain ⟨htext, dir, hdir, hp, hne⟩ := h
  have hwrite : d.write (outputPath dir input o.goal) text = .ok (d.put p text) :=
    Disk.write_eq_ok_iff.2 ⟨p, hp, hne, rfl⟩
  simp only [converted, delivered, hdir, htext, hwrite]
  rfl

theorem converted_of_not_writes (h : ∀ p text, ¬ Writes o s d input p text) :
    converted o s d input = d := by
  unfold converted
  cases htext : translated? o s d input with
  | none => rfl
  | some text =>
    simp only [delivered]
    cases hdir : o.outDir with
    | none => rfl
    | some dir =>
      cases hwrite : d.write (outputPath dir input o.goal) text with
      | error e => simp only [hwrite]; rfl
      | ok d' =>
        obtain ⟨p, hp, hne, -⟩ := Disk.write_eq_ok_iff.1 hwrite
        exact absurd ⟨htext, dir, hdir, hp, hne⟩ (h p text)

theorem Writes.reached (h : Writes o s d input p text) : d.Reached p := by
  obtain ⟨-, dir, -, hp, -⟩ := h
  exact Disk.reached_of_locate hp

theorem Writes.ne_folder (h : Writes o s d input p text) : d.entry p ≠ .folder := by
  obtain ⟨-, dir, -, -, hne⟩ := h
  exact hne

theorem entry_converted (h : Writes o s d input p text) (q : Place) :
    (converted o s d input).entry q = if q = p then .file (.text text) else d.entry q := by
  rw [converted_of_writes h, Disk.entry_put h.reached]

theorem entry_converted_of_not_writes (h : ∀ text, ¬ Writes o s d input p text) :
    (converted o s d input).entry p = d.entry p := by
  by_cases hsome : ∃ q text, Writes o s d input q text
  · obtain ⟨q, text, hq⟩ := hsome
    rw [entry_converted hq, if_neg]
    rintro rfl
    exact h text hq
  · rw [converted_of_not_writes fun q text hq => hsome ⟨q, text, hq⟩]

theorem sameFolders_converted (o : Options) (s : Settings) (d : Disk) (input : String) :
    d.SameFolders (converted o s d input) := by
  by_cases h : ∃ p text, Writes o s d input p text
  · obtain ⟨p, text, hp⟩ := h
    rw [converted_of_writes hp]
    exact Disk.sameFolders_put hp.reached hp.ne_folder
  · rw [converted_of_not_writes fun p text hp => h ⟨p, text, hp⟩]
    exact .refl d

theorem sameFolders_foldl (o : Options) (s : Settings) : ∀ (inputs : List String) (d : Disk),
    d.SameFolders (inputs.foldl (converted o s) d)
  | [], d => .refl d
  | input :: inputs, d => (sameFolders_converted o s d input).trans (sameFolders_foldl o s inputs _)

/-- What lies at a place in the end was written there by a conversion, or lay there before. -/
theorem entry_foldl (o : Options) (s : Settings) (p : Place) : ∀ (inputs : List String) (d : Disk),
    (∃ before input after text, inputs = before ++ input :: after ∧
      Writes o s (before.foldl (converted o s) d) input p text ∧
        (inputs.foldl (converted o s) d).entry p = .file (.text text)) ∨
      (inputs.foldl (converted o s) d).entry p = d.entry p
  | [], _ => .inr rfl
  | input :: inputs, d => by
    rw [List.foldl_cons]
    rcases entry_foldl o s p inputs (converted o s d input) with
      ⟨before, other, after, text, rfl, hwrites, hentry⟩ | hentry
    · exact .inl ⟨input :: before, other, after, text, rfl, hwrites, hentry⟩
    · rw [hentry]
      by_cases h : ∃ text, Writes o s d input p text
      · obtain ⟨text, hp⟩ := h
        refine .inl ⟨[], input, inputs, text, rfl, hp, ?_⟩
        rw [entry_converted hp, if_pos rfl]
      · exact .inr (entry_converted_of_not_writes fun text hp => h ⟨text, hp⟩)

end BitSynth.Console
