import BitSynth.Proofs.Console.Path
import BitSynth.Proofs.Outcome

/-!
# What a write changes

A write puts a text at the place its path leads to, and nothing else changes: what lies at any other
place stays (`entry_put`), and as no folder comes or goes, paths lead where they led before
(`locate_eq_ok_iff_of_sameFolders`). No assumption on the disk is needed for that, because a path
only leads to a place through folders.
-/

namespace BitSynth.Console

theorem Contents.read_eq_ok_iff {c : Contents} {text : String} :
    c.read = .ok text ↔ c = .text text := by
  cases c <;> simp [read]

namespace Disk

variable {d d' : Disk} {p q r : Place} {c : Contents} {text path part : String}

/-! ## Reading and writing -/

theorem contents_eq_ok_iff :
    d.contents path = .ok c ↔ ∃ p, d.locate path = .ok p ∧ d.entry p = .file c := by
  rw [contents, bind_eq_ok_iff]
  refine exists_congr fun p => and_congr_right fun _ => ?_
  cases d.entry p <;> simp [pure, Except.pure, throw, throwThe, MonadExceptOf.throw]

theorem read_eq_ok_iff_contents : d.read path = .ok text ↔ d.contents path = .ok (.text text) := by
  rw [read, bind_eq_ok_iff]
  simp only [Contents.read_eq_ok_iff, exists_eq_right]

theorem read_eq_ok_iff :
    d.read path = .ok text ↔ ∃ p, d.locate path = .ok p ∧ d.entry p = .file (.text text) :=
  read_eq_ok_iff_contents.trans contents_eq_ok_iff

theorem write_eq_ok_iff : d.write path text = .ok d' ↔
    ∃ p, d.locate path = .ok p ∧ d.entry p ≠ .folder ∧ d' = d.put p text := by
  rw [write, bind_eq_ok_iff]
  refine exists_congr fun p => and_congr_right fun _ => ?_
  cases d.entry p <;> simp [pure, Except.pure, throw, throwThe, MonadExceptOf.throw, eq_comm]

/-! ## Places that a path leads to -/

/-- Where the next part of a path leads if it goes on from a folder. -/
def next (p : Place) (part : String) : Except FileError Place :=
  if part = "" ∨ part = "." then .ok p
  else if part = ".." then .ok p.parent
  else if maxNameSize < part.utf8ByteSize then .error .nameTooLong
  else .ok (p ++ [part])

theorem step_of_folder (h : d.entry p = .folder) : d.step p part = next p part := by
  rw [step, h, next]

theorem step_eq_ok_iff : d.step p part = .ok q ↔ d.entry p = .folder ∧ next p part = .ok q := by
  cases h : d.entry p with
  | folder => simp [step_of_folder h]
  | file c => simp [step, h]
  | nothing => simp [step, h]

/-- The place that a path begins at. -/
def start (path : String) : Place := if path.toList.head? = some '/' then Place.root else []

theorem locate_eq (d : Disk) (path : String) : d.locate path =
    if maxPathSize < path.utf8ByteSize then .error .nameTooLong
    else (pathParts path).foldlM d.step (start path) := rfl

theorem locate_eq_ok_iff : d.locate path = .ok p ↔
    ¬ maxPathSize < path.utf8ByteSize ∧ (pathParts path).foldlM d.step (start path) = .ok p := by
  rw [locate_eq]
  split_ifs with h <;> simp [h]

/-- Whatever lies around the place is a folder, also those further out that the disk does not
hold. -/
def Reached (d : Disk) (p : Place) : Prop :=
  ∀ q : Place, q <+: p → q ≠ p → q.isOuter = true ∨ d.entry q = .folder

theorem reached_start (d : Disk) (path : String) : d.Reached (start path) := by
  intro q hq hne
  unfold start at hq hne
  split_ifs at hq hne
  · rcases List.prefix_cons_iff.1 hq with rfl | ⟨t, rfl, ht⟩
    · exact .inl rfl
    · obtain rfl := List.prefix_nil.1 ht
      exact absurd rfl hne
  · exact absurd (List.prefix_nil.1 hq) hne

theorem Reached.snoc (hp : d.Reached p) (h : p.isOuter = true ∨ d.entry p = .folder)
    (part : String) : d.Reached (p ++ [part]) := by
  intro q hq hne
  rcases List.prefix_concat_iff.1 hq with rfl | hq
  · exact absurd rfl hne
  · by_cases hqp : q = p
    · rw [hqp]
      exact h
    · exact hp q hq hqp

theorem Reached.parent (hp : d.Reached p) : d.Reached p.parent := by
  unfold Place.parent
  split_ifs with hroot houter
  · rwa [← hroot]
  · exact hp.snoc (.inl houter) ".."
  · intro q hq hne
    refine hp q (hq.trans (List.dropLast_prefix p)) ?_
    rintro rfl
    have hnil : q ≠ [] := by
      rintro rfl
      exact houter rfl
    have hlen := hq.length_le
    have hpos := List.length_pos_iff.2 hnil
    rw [List.length_dropLast] at hlen
    omega

theorem Reached.step (hp : d.Reached p) (h : d.step p part = .ok q) : d.Reached q := by
  obtain ⟨hfolder, hnext⟩ := step_eq_ok_iff.1 h
  unfold next at hnext
  split_ifs at hnext
  · exact Except.ok.inj hnext ▸ hp
  · exact Except.ok.inj hnext ▸ hp.parent
  · exact Except.ok.inj hnext ▸ hp.snoc (.inr hfolder) part

theorem Reached.steps : ∀ {parts : List String} {p : Place}, d.Reached p →
    parts.foldlM d.step p = .ok q → d.Reached q
  | [], _, hp, h => Except.ok.inj h ▸ hp
  | part :: parts, _, hp, h => by
    rw [List.foldlM_cons, bind_eq_ok_iff] at h
    obtain ⟨r, hr, h⟩ := h
    exact (hp.step hr).steps h

theorem steps_snoc {parts : List String} : (parts ++ [part]).foldlM d.step p = .ok q ↔
    ∃ r, parts.foldlM d.step p = .ok r ∧ d.step r part = .ok q := by
  rw [List.foldlM_append, bind_eq_ok_iff]
  simp only [List.foldlM_cons, List.foldlM_nil, bind_pure]

theorem reached_of_locate (h : d.locate path = .ok p) : d.Reached p :=
  (reached_start d path).steps (locate_eq_ok_iff.1 h).2

/-- The last part of a path leads on from a folder. -/
theorem exists_of_locate {parts : List String} (h : d.locate path = .ok p)
    (hparts : pathParts path = parts ++ [part]) :
    ∃ q, d.Reached q ∧ d.entry q = .folder ∧ next q part = .ok p := by
  have hsteps := (locate_eq_ok_iff.1 h).2
  rw [hparts, steps_snoc] at hsteps
  obtain ⟨q, hq, hstep⟩ := hsteps
  obtain ⟨hfolder, hnext⟩ := step_eq_ok_iff.1 hstep
  exact ⟨q, (reached_start d path).steps hq, hfolder, hnext⟩

/-! ## Putting a text somewhere -/

theorem mem_replace {p q : Place} {files : List (Place × Contents)} :
    q ∈ (replace p c files).map Prod.fst ↔ q = p ∨ q ∈ files.map Prod.fst := by
  induction files with
  | nil => simp [replace]
  | cons f files ih =>
    rw [replace]
    split_ifs with hf
    · simp [← hf]
    · simp only [List.map_cons, List.mem_cons, ih]
      exact or_left_comm

theorem holds_iff : d.holds q = true ↔
    (∃ r ∈ d.folders, q <+: r) ∨ ∃ r ∈ d.files.map Prod.fst, q <+: r := by
  simp only [holds, List.any_append, Bool.or_eq_true, List.any_eq_true, List.isPrefixOf_iff_prefix]

theorem holds_put : (d.put p text).holds q = true ↔ q <+: p ∨ d.holds q = true := by
  rw [holds_iff, holds_iff]
  simp only [put, mem_replace, or_and_right, exists_or, exists_eq_left]
  exact or_left_comm

theorem entry_eq_file_iff : d.entry p = .file c ↔ d.file? p = some c := by
  unfold entry
  cases d.file? p with
  | some c' => simp
  | none => split_ifs <;> simp

theorem entry_eq_folder_iff : d.entry p = .folder ↔
    d.file? p = none ∧ (p.isOuter = true ∨ d.holds p = true) := by
  unfold entry
  cases d.file? p with
  | some c => simp
  | none =>
    rw [← Bool.or_eq_true]
    split_ifs with h <;> simp [h]

/-- The folders on the way to the place were there before, so that only what lies at the place
itself is new. -/
theorem entry_put (hp : d.Reached p) (q : Place) :
    (d.put p text).entry q = if q = p then .file (.text text) else d.entry q := by
  split_ifs with hqp
  · rw [hqp, entry_eq_file_iff, file?_put, if_pos rfl]
  · have hfile : (d.put p text).file? q = d.file? q := by rw [file?_put, if_neg hqp]
    unfold entry
    rw [hfile]
    cases hnone : d.file? q with
    | some c => rfl
    | none =>
      have hholds : (q.isOuter = true ∨ (d.put p text).holds q = true) ↔
          (q.isOuter = true ∨ d.holds q = true) := by
        rw [holds_put]
        refine ⟨?_, fun h => h.imp_right .inr⟩
        rintro (houter | hprefix | hholds)
        · exact .inl houter
        · exact (hp q hprefix hqp).elim .inl fun h => (entry_eq_folder_iff.1 h).2
        · exact .inr hholds
      simp only [Bool.or_eq_true, hholds]

/-! ## Disks with the same folders -/

/-- Both disks have the same folders. -/
def SameFolders (d d' : Disk) : Prop := ∀ p : Place, d.entry p = .folder ↔ d'.entry p = .folder

theorem sameFolders_put (hp : d.Reached p) (hne : d.entry p ≠ .folder) :
    d.SameFolders (d.put p text) := by
  intro q
  rw [entry_put hp]
  split_ifs with hqp
  · simp [hqp, hne]
  · rfl

theorem SameFolders.refl (d : Disk) : d.SameFolders d := fun _ => .rfl

theorem SameFolders.trans {d'' : Disk} (h : d.SameFolders d') (h' : d'.SameFolders d'') :
    d.SameFolders d'' := fun p => (h p).trans (h' p)

theorem SameFolders.symm (h : d.SameFolders d') : d'.SameFolders d := fun p => (h p).symm

theorem SameFolders.steps (h : d.SameFolders d') : ∀ {parts : List String} {p : Place},
    parts.foldlM d.step p = .ok q → parts.foldlM d'.step p = .ok q
  | [], _, hq => hq
  | part :: parts, p, hq => by
    rw [List.foldlM_cons, bind_eq_ok_iff] at hq ⊢
    obtain ⟨r, hr, hq⟩ := hq
    rw [step_eq_ok_iff] at hr
    exact ⟨r, step_eq_ok_iff.2 ⟨(h p).1 hr.1, hr.2⟩, h.steps hq⟩

theorem SameFolders.locate (h : d.SameFolders d') :
    d.locate path = .ok p ↔ d'.locate path = .ok p := by
  rw [locate_eq_ok_iff, locate_eq_ok_iff]
  exact and_congr_right fun _ => ⟨h.steps, h.symm.steps⟩

end Disk

end BitSynth.Console
