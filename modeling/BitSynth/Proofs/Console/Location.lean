import BitSynth.Proofs.Console.Disk

/-!
# Where outputs lie

The place of an output is a name in some folder (`exists_of_locate_outputPath`), and that name has
the stem of the input. So two outputs only share a place if their inputs share the stem
(`stem_of_locate_outputPath`), and a file that is an output has the stem of the input that it comes
from, whatever path leads to it (`stem_of_locate`).
-/

namespace BitSynth.Console

namespace Disk

variable {d d' : Disk} {p q : Place} {text path part dir name input : String} {t : Target}

theorem name_of_isOuter (h : Place.isOuter (q ++ [name]) = true) : name = "/" ∨ name = ".." := by
  rcases Bool.or_eq_true_iff.1 h with hroot | hall
  · have hroot : q ++ [name] = [] ++ ["/"] := eq_of_beq hroot
    exact .inl (List.singleton_inj.1 (List.append_inj' hroot rfl).2)
  · have hlast := List.all_eq_true.1 hall name (by simp)
    exact .inr (eq_of_beq hlast)

/-- A path that leads to a place where no folder is ends with the name of the place. -/
theorem fileName_of_locate (h : d.locate path = .ok (q ++ [name]))
    (hne : d.entry (q ++ [name]) ≠ .folder) (hname : name ≠ "/" ∧ name ≠ "..") :
    fileName path = name := by
  have hin : ¬ Place.isOuter (q ++ [name]) = true := fun houter =>
    (name_of_isOuter houter).elim hname.1 hname.2
  obtain ⟨parts, hparts⟩ := pathParts_eq_append path
  obtain ⟨r, hreached, hfolder, hnext⟩ := exists_of_locate h hparts
  unfold next at hnext
  split_ifs at hnext
  · obtain rfl := Except.ok.inj hnext
    exact absurd hfolder hne
  · -- going back from a place one only comes to folders
    have hparent := Except.ok.inj hnext
    unfold Place.parent at hparent
    split_ifs at hparent with hroot houter
    · exact absurd (hparent ▸ rfl) hin
    · exact absurd (List.singleton_inj.1 (List.append_inj' hparent rfl).2).symm hname.2
    · have hprefix : q ++ [name] <+: r := hparent ▸ List.dropLast_prefix r
      have hshort : q ++ [name] ≠ r := by
        rintro rfl
        have hlen := congrArg List.length hparent
        simp at hlen
      exact ((hreached _ hprefix hshort).elim hin hne).elim
  · exact List.singleton_inj.1 (List.append_inj' (Except.ok.inj hnext) rfl).2

theorem next_outputName : next q (outputName input t) =
    if maxNameSize < (outputName input t).utf8ByteSize then .error .nameTooLong
    else .ok (q ++ [outputName input t]) := by
  have hempty : outputName input t ≠ "" := outputName_ne (by decide)
  have hdot : outputName input t ≠ "." := outputName_ne (by decide)
  have hdots : outputName input t ≠ ".." := outputName_ne (by decide)
  simp only [next, hempty, hdot, hdots, or_self, if_false]

theorem pathParts_outputPath (dir input : String) (t : Target) : ∃ base,
    pathParts (outputPath dir input t) = pathParts base ++ [outputName input t] ∧
      (dir = base ∨ dir = base ++ "/") := by
  obtain ⟨base, hpath, hbase⟩ := exists_outputPath dir input t
  refine ⟨base, ?_, hbase⟩
  rw [hpath, pathParts_append_slash, pathParts_of_notMem (slash_notMem_outputName input t)]

/-- An output lies in some folder under its own name. -/
theorem exists_of_locate_outputPath (h : d.locate (outputPath dir input t) = .ok p) :
    ∃ q, p = q ++ [outputName input t] := by
  obtain ⟨base, hparts, -⟩ := pathParts_outputPath dir input t
  obtain ⟨q, -, -, hnext⟩ := exists_of_locate h hparts
  rw [next_outputName] at hnext
  split_ifs at hnext
  exact ⟨q, (Except.ok.inj hnext).symm⟩

/-- Whether there is a place for an output in a folder does not depend on what else is on the
disk. -/
theorem locate_outputPath (hdir : dir ≠ "") (hq : d.locate dir = .ok q)
    (hfolder : d.entry q = .folder) : d.locate (outputPath dir input t) =
      if maxPathSize < (outputPath dir input t).utf8ByteSize then .error .nameTooLong
      else next q (outputName input t) := by
  obtain ⟨base, hparts, hbase⟩ := pathParts_outputPath dir input t
  have hstart : start (outputPath dir input t) = start dir := by
    unfold start
    rw [head?_outputPath hdir]
  have hsteps : (pathParts base).foldlM d.step (start dir) = .ok q := by
    have hdirsteps := (locate_eq_ok_iff.1 hq).2
    rcases hbase with rfl | rfl
    · exact hdirsteps
    · have hlast : pathParts (base ++ "/") = pathParts base ++ [""] := by
        rw [← pathParts_empty, ← pathParts_append_slash, String.append_empty]
      rw [hlast, steps_snoc] at hdirsteps
      obtain ⟨r, hr, hstep⟩ := hdirsteps
      obtain rfl : r = q := Except.ok.inj (step_eq_ok_iff.1 hstep).2
      exact hr
  rw [locate_eq, hstart, hparts, List.foldlM_append, hsteps]
  split_ifs
  · rfl
  · simp only [List.foldlM_cons, List.foldlM_nil, bind_pure, ← step_of_folder hfolder]
    rfl

/-- Two outputs at one place have the same stem. -/
theorem stem_of_locate_outputPath {dir' input' : String}
    (h : d.locate (outputPath dir input t) = .ok p)
    (h' : d'.locate (outputPath dir' input' t) = .ok p) : stem input = stem input' := by
  obtain ⟨q, hq⟩ := exists_of_locate_outputPath h
  obtain ⟨q', hq'⟩ := exists_of_locate_outputPath h'
  have hsame : q ++ [outputName input t] = q' ++ [outputName input' t] := hq.symm.trans hq'
  have hlast := congrArg List.getLast? hsame
  rw [List.getLast?_concat, List.getLast?_concat] at hlast
  exact outputName_injective (Option.some.inj hlast)

/-- A path of a file that is an output has the stem of the output. -/
theorem stem_of_locate (h : d.locate path = .ok p) (hne : d.entry p ≠ .folder)
    (hout : d'.locate (outputPath dir input t) = .ok p) (hstem : stem input ≠ "") :
    stem path = stem input := by
  obtain ⟨q, rfl⟩ := exists_of_locate_outputPath hout
  have hslash : outputName input t ≠ "/" := outputName_ne (by decide)
  have hdots : outputName input t ≠ ".." := outputName_ne (by decide)
  exact stem_of_fileName_eq (fileName_of_locate h hne ⟨hslash, hdots⟩) hstem

/-- A file that can be read has a name. -/
theorem stem_ne_empty_of_read (h : d.read path = .ok text) : stem path ≠ "" := by
  obtain ⟨p, hp, hfile⟩ := read_eq_ok_iff.1 h
  refine stem_ne_empty fun hempty => ?_
  obtain ⟨parts, hparts⟩ := pathParts_eq_append path
  rw [hempty] at hparts
  obtain ⟨q, -, hfolder, hnext⟩ := exists_of_locate hp hparts
  obtain rfl : q = p := Except.ok.inj hnext
  cases hfolder.symm.trans hfile

end Disk

end BitSynth.Console
