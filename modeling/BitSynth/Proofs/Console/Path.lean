import BitSynth.Console.Run
import BitSynth.Proofs.Text.Decodable
import Mathlib.Tactic.Common

/-!
# Paths

The parts of a path, and the path of an output. An output lies in the folder that the options name
and has the stem of its input for a name, with the extension of the target. So of the path of an
input only the stem shows in that of its output, and the output has the stem of the input again.
-/

namespace BitSynth.Console

/-! ## Parts -/

section Parts

variable {cs ds part : List Char}

/-- The stretches of characters between slashes. -/
def stretches (cs : List Char) : List (List Char) :=
  cs.foldr (fun c parts => if c = '/' then [] :: parts else parts.modifyHead (c :: ·)) [[]]

theorem pathParts_eq (path : String) :
    pathParts path = (stretches path.toList).map String.ofList := rfl

theorem stretches_slash (cs : List Char) : stretches ('/' :: cs) = [] :: stretches cs := rfl

theorem stretches_cons {c : Char} (h : c ≠ '/') (cs : List Char) :
    stretches (c :: cs) = (stretches cs).modifyHead (c :: ·) := if_neg h

theorem stretches_ne_nil : ∀ cs, stretches cs ≠ []
  | [] => List.cons_ne_nil _ _
  | c :: cs => by
    by_cases hc : c = '/'
    · rw [hc, stretches_slash]
      exact List.cons_ne_nil _ _
    · rw [stretches_cons hc]
      obtain ⟨part, parts, h⟩ := List.exists_cons_of_ne_nil (stretches_ne_nil cs)
      rw [h]
      exact List.cons_ne_nil _ _

theorem stretches_append_slash (cs ds : List Char) :
    stretches (cs ++ '/' :: ds) = stretches cs ++ stretches ds := by
  induction cs with
  | nil => rfl
  | cons c cs ih =>
    by_cases hc : c = '/'
    · rw [hc, List.cons_append, stretches_slash, stretches_slash, ih, List.cons_append]
    · rw [List.cons_append, stretches_cons hc, stretches_cons hc, ih]
      obtain ⟨part, parts, h⟩ := List.exists_cons_of_ne_nil (stretches_ne_nil cs)
      rw [h]
      rfl

theorem stretches_of_notMem : ∀ {cs}, '/' ∉ cs → stretches cs = [cs]
  | [], _ => rfl
  | c :: cs, h => by
    rw [List.mem_cons, not_or] at h
    rw [stretches_cons (Ne.symm h.1), stretches_of_notMem h.2]
    rfl

theorem notMem_of_mem_stretches : ∀ {cs part}, part ∈ stretches cs → '/' ∉ part
  | [], part, h => by
    rw [List.mem_singleton.1 h]
    exact List.not_mem_nil
  | c :: cs, part, h => by
    by_cases hc : c = '/'
    · rw [hc, stretches_slash] at h
      rcases List.mem_cons.1 h with rfl | h
      · exact List.not_mem_nil
      · exact notMem_of_mem_stretches h
    · rw [stretches_cons hc] at h
      obtain ⟨first, parts, hparts⟩ := List.exists_cons_of_ne_nil (stretches_ne_nil cs)
      have hrest : ∀ part ∈ first :: parts, '/' ∉ part := fun part hpart =>
        notMem_of_mem_stretches (hparts ▸ hpart)
      rw [hparts] at h
      rcases List.mem_cons.1 h with rfl | h
      · exact List.not_mem_cons_of_ne_of_not_mem (Ne.symm hc)
          (hrest first (List.mem_cons_self ..))
      · exact hrest part (List.mem_cons_of_mem _ h)

theorem pathParts_append_slash (s t : String) :
    pathParts (s ++ "/" ++ t) = pathParts s ++ pathParts t := by
  have hchars : (s ++ "/" ++ t).toList = s.toList ++ '/' :: t.toList := by
    simp only [String.toList_append, List.append_assoc]
    rfl
  simp only [pathParts_eq, hchars, stretches_append_slash, List.map_append]

theorem pathParts_of_notMem {name : String} (h : '/' ∉ name.toList) : pathParts name = [name] := by
  rw [pathParts_eq, stretches_of_notMem h, List.map_singleton, String.ofList_toList]

theorem pathParts_empty : pathParts "" = [""] := rfl

/-- The last part of a path. -/
def fileName (path : String) : String := (pathParts path).getLastD ""

theorem pathParts_eq_append (path : String) :
    ∃ parts, pathParts path = parts ++ [fileName path] := by
  rcases List.eq_nil_or_concat (pathParts path) with h | ⟨parts, name, h⟩
  · rw [pathParts_eq, List.map_eq_nil_iff] at h
    exact absurd h (stretches_ne_nil _)
  · refine ⟨parts, ?_⟩
    rw [fileName, h, List.concat_eq_append, List.getLastD_concat]

theorem slash_notMem_fileName (path : String) : '/' ∉ (fileName path).toList := by
  obtain ⟨parts, hparts⟩ := pathParts_eq_append path
  have hmem : fileName path ∈ pathParts path := by
    rw [hparts]
    exact List.mem_append_right _ (List.mem_singleton_self _)
  rw [pathParts_eq, List.mem_map] at hmem
  obtain ⟨part, hpart, hname⟩ := hmem
  rw [← hname, String.toList_ofList]
  exact notMem_of_mem_stretches hpart

end Parts

/-! ## Stems -/

section Stems

variable {path : String} {t : Target}

/-- The characters of a name before its last dot. -/
def beforeDot (name : String) : List Char :=
  (name.toList.reverse.dropWhile (· != '.')).tail.reverse

theorem stem_eq (path : String) : stem path =
    if beforeDot (fileName path) = [] then fileName path
    else String.ofList (beforeDot (fileName path)) := by
  unfold stem
  simp only
  split
  · rename_i h
    rw [if_pos (show beforeDot (fileName path) = [] from h)]
    rfl
  · rename_i h
    rw [if_neg (show beforeDot (fileName path) ≠ [] from h)]
    rfl

theorem stem_ne_empty (h : fileName path ≠ "") : stem path ≠ "" := by
  rw [stem_eq]
  split_ifs with hdot
  · exact h
  · exact fun hempty => hdot (String.ofList_eq_empty_iff.1 hempty)

theorem slash_notMem_stem (path : String) : '/' ∉ (stem path).toList := by
  have hname := slash_notMem_fileName path
  rw [stem_eq]
  split_ifs
  · exact hname
  · rw [String.toList_ofList, beforeDot, List.mem_reverse]
    intro hmem
    refine hname (List.mem_reverse.1 ?_)
    exact (List.dropWhile_sublist _).subset (List.mem_of_mem_tail hmem)

/-- The name of an output. -/
def outputName (input : String) (t : Target) : String := stem input ++ "." ++ t.extension

theorem dot_notMem_extension (t : Target) :
    '.' ∉ t.extension.toList ∧ '/' ∉ t.extension.toList := by
  cases t <;> decide

theorem toList_outputName (input : String) (t : Target) :
    (outputName input t).toList = (stem input).toList ++ '.' :: t.extension.toList := by
  simp only [outputName, String.toList_append, List.append_assoc]
  rfl

theorem slash_notMem_outputName (input : String) (t : Target) :
    '/' ∉ (outputName input t).toList := by
  rw [toList_outputName, List.mem_append, List.mem_cons, not_or, not_or]
  exact ⟨slash_notMem_stem input, by decide, (dot_notMem_extension t).2⟩

theorem outputName_injective {input input' : String}
    (h : outputName input t = outputName input' t) : stem input = stem input' := by
  rw [← String.toList_inj, toList_outputName, toList_outputName] at h
  exact String.toList_inj.1 (List.append_cancel_right h)

theorem le_length_outputName (input : String) (t : Target) :
    3 ≤ (outputName input t).toList.length := by
  have hextension : 2 ≤ t.extension.toList.length := by cases t <;> decide
  rw [toList_outputName, List.length_append, List.length_cons]
  omega

theorem outputName_ne {input s : String} (h : s.toList.length < 3) : outputName input t ≠ s := by
  rintro rfl
  exact absurd (le_length_outputName input t) (Nat.not_le.2 h)

/-- An output has the stem of its input. -/
theorem stem_of_fileName_eq {input : String} (hname : fileName path = outputName input t)
    (hne : stem input ≠ "") : stem path = stem input := by
  have hdots : beforeDot (outputName input t) = (stem input).toList := by
    have hextension : ∀ c ∈ t.extension.toList.reverse, (c != '.') = true := fun c hc => by
      rw [bne_iff_ne]
      rintro rfl
      exact (dot_notMem_extension t).1 (List.mem_reverse.1 hc)
    have hdot : ∀ d ∈ ('.' :: (stem input).toList.reverse).head?, (d != '.') = false := by
      rintro d ⟨⟩
      decide
    have hreverse : (outputName input t).toList.reverse
        = t.extension.toList.reverse ++ '.' :: (stem input).toList.reverse := by
      simp [toList_outputName]
    rw [beforeDot, hreverse, Text.dropWhile_append_of_head? hextension hdot, List.tail_cons,
      List.reverse_reverse]
  rw [stem_eq, hname, hdots, if_neg (mt String.toList_eq_nil_iff.1 hne), String.ofList_toList]

/-- The path of an output is that of the folder with the name behind it, between which one slash is
enough. -/
theorem exists_outputPath (dir input : String) (t : Target) : ∃ base,
    outputPath dir input t = base ++ "/" ++ outputName input t ∧
      (dir = base ∨ dir = base ++ "/") := by
  unfold outputPath
  split
  · rename_i hlast
    obtain ⟨cs, hcs⟩ := List.getLast?_eq_some_iff.1 hlast
    have hdir : dir = String.ofList cs ++ "/" := by
      rw [← String.toList_inj, hcs, String.toList_append, String.toList_ofList]
      rfl
    refine ⟨String.ofList cs, ?_, .inr hdir⟩
    simp only [hdir, outputName, String.append_assoc, String.empty_append]
  · refine ⟨dir, ?_, .inl rfl⟩
    simp only [outputName, String.append_assoc]

theorem outputPath_congr {input input' : String} (h : stem input = stem input') (dir : String)
    (t : Target) : outputPath dir input t = outputPath dir input' t := by
  rw [outputPath, outputPath, h]

theorem head?_outputPath {dir : String} (hdir : dir ≠ "") (input : String) (t : Target) :
    (outputPath dir input t).toList.head? = dir.toList.head? := by
  obtain ⟨c, cs, hcs⟩ := List.exists_cons_of_ne_nil (mt String.toList_eq_nil_iff.1 hdir)
  simp only [outputPath, String.toList_append, hcs]
  rfl

end Stems

end BitSynth.Console
