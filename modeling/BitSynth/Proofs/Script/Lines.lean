import BitSynth.Proofs.Script.Decoding
import BitSynth.Translate

/-!
# The lines of a script

A script and the arguments for a check of feasibility are read line by line. Every line is put
together from names, numerals and plain terms, none of which has a line break in it, so splitting
the text at its line breaks gives the lines back (`lines_of_translate`).
-/

namespace BitSynth

/-- The text has no line break in it. -/
def OneLine (s : String) : Prop := '\n' ∉ s.toList

instance (s : String) : Decidable (OneLine s) := inferInstanceAs (Decidable (¬ _))

namespace OneLine

variable {s t : String} {ss : List String}

theorem append (hs : OneLine s) (ht : OneLine t) : OneLine (s ++ t) := by
  rw [OneLine, String.toList_append, List.mem_append, not_or]
  exact ⟨hs, ht⟩

theorem join (h : ∀ s ∈ ss, OneLine s) : OneLine (String.join ss) := by
  rw [OneLine, String.toList_join, List.mem_flatMap]
  rintro ⟨s, hs, hline⟩
  exact h s hs hline

theorem intercalate (hs : OneLine s) : ∀ {ss : List String}, (∀ t ∈ ss, OneLine t) →
    OneLine (s.intercalate ss)
  | [], _ => List.not_mem_nil
  | [t], h => List.forall_mem_singleton.1 h
  | t :: u :: us, h => by
    rw [List.forall_mem_cons] at h
    rw [String.intercalate_cons_cons]
    exact (h.1.append hs).append (intercalate hs h.2)

end OneLine

theorem IsWord.oneLine {s : String} (h : IsWord s) : OneLine s := fun hline =>
  h.2 _ hline (.inl (by decide))

theorem oneLine_nat (n : Nat) : OneLine (toString n) := (isWord_nat n).oneLine

theorem oneLine_int (v : Int) : OneLine (toString v) := (isWord_int v).oneLine

namespace Term

mutual

theorem Plain.oneLine : ∀ {t : Term}, t.Plain → OneLine t.text
  | .atom _, h => IsWord.oneLine h
  | .list [], _ => by decide
  | .list (t :: ts), h => by
    have hopen : OneLine "(" := by decide
    have hclose : OneLine ")" := by decide
    exact ((hopen.append h.1.oneLine).append (AllPlain.oneLine h.2)).append hclose

theorem AllPlain.oneLine : ∀ {ts : List Term}, AllPlain ts → OneLine (textAfter ts)
  | [], _ => by decide
  | t :: ts, h => by
    have hspace : OneLine " " := by decide
    exact (hspace.append h.1.oneLine).append (AllPlain.oneLine h.2)

end

end Term

namespace Script

/-! ## Lines -/

theorem IsName.oneLine {x : String} (h : IsName x) : OneLine x :=
  (Ident.Valid.isWord (x := ⟨x⟩) h).oneLine

/-- The names in front of an arrow, each with a space behind it. -/
theorem oneLine_names {names : List String} (h : ∀ x ∈ names, IsName x) :
    OneLine (String.join (names.map fun x => x ++ " ")) := by
  have hspace : OneLine " " := by decide
  exact .join (List.forall_mem_map.2 fun x hx => (h x hx).oneLine.append hspace)

theorem Item.Plain.oneLine {i : Item} (h : i.Plain) : OneLine i.text := by
  cases i with
  | operator name => exact IsName.oneLine h
  | constant width value =>
    have hconst : OneLine "const " := by decide
    have hspace : OneLine " " := by decide
    have hwidth : OneLine ("const " ++ toString width) := hconst.append (oneLine_nat width)
    cases value with
    | none => exact hwidth
    | some value => exact (hwidth.append hspace).append (oneLine_int value)
  | function name params body =>
    obtain ⟨hname, hparams, hbody⟩ := h
    have hopen : OneLine "(" := by decide
    have hcomma : OneLine ", " := by decide
    have harrow : OneLine "-> " := by decide
    have hclose : OneLine ")" := by decide
    have hhead : OneLine ("(" ++ name ++ ", " ++ toString params.length ++ ", ") :=
      (((hopen.append hname.oneLine).append hcomma).append (oneLine_nat _)).append hcomma
    have hnames := hhead.append (oneLine_names hparams)
    exact ((hnames.append harrow).append hbody.oneLine).append hclose

variable {s : Script}

theorem Plain.oneLine_specText (h : s.Plain) : OneLine s.specText := by
  have harrow : OneLine "-> " := by decide
  exact ((oneLine_names h.inputs).append harrow).append h.body.oneLine

theorem Plain.oneLine_items (h : s.Plain) : ∀ t ∈ s.library.map Item.text, OneLine t :=
  List.forall_mem_map.2 fun i hi => (h.library i hi).oneLine

theorem Plain.oneLine_arguments (h : s.Plain) : ∀ t ∈ s.arguments, OneLine t := by
  simp only [arguments, List.forall_mem_cons]
  exact ⟨oneLine_nat _, oneLine_nat _, h.oneLine_specText, h.oneLine_items⟩

theorem Plain.oneLine_lines (h : s.Plain) : ∀ t ∈ s.lines, OneLine t := by
  have hending : ∀ t ∈ ending, OneLine t := by decide
  have hwidth : OneLine "bitwidth " := by decide
  have hspec : OneLine "spec " := by decide
  have hspace : OneLine " " := by decide
  have hlib : OneLine "lib " := by decide
  have hcomma : OneLine ", " := by decide
  simp only [lines, List.forall_mem_append, List.forall_mem_cons]
  exact ⟨⟨hwidth.append (oneLine_nat _),
    ((hspec.append (oneLine_nat _)).append hspace).append h.oneLine_specText,
    hlib.append (.intercalate hcomma h.oneLine_items), List.forall_mem_nil _⟩, hending⟩

/-! ## Splitting -/

/-- Behind the end of the last line there is nothing more. -/
theorem toList_textOfLines (ss : List String) :
    (textOfLines ss).toList = ['\n'].intercalate (ss.map String.toList ++ [[]]) := by
  induction ss with
  | nil => rfl
  | cons s ss ih =>
    obtain ⟨l, ls, hcons⟩ := List.exists_cons_of_ne_nil
      (List.append_ne_nil_of_right_ne_nil (ss.map String.toList) (List.cons_ne_nil [] []))
    rw [List.map_cons, List.cons_append, hcons, List.intercalate_cons_cons, ← hcons, ← ih]
    simp [textOfLines]

theorem splitOn_textOfLines {ss : List String} (h : ∀ s ∈ ss, OneLine s) :
    (textOfLines ss).toList.splitOn '\n' = ss.map String.toList ++ [[]] := by
  rw [toList_textOfLines]
  refine List.splitOn_intercalate '\n' ?_ (by simp)
  rw [List.forall_mem_append, List.forall_mem_map, List.forall_mem_singleton]
  exact ⟨h, List.not_mem_nil⟩

/-! ## Scripts of programs -/

variable {p : Program}

/-- The script has the width and the inputs of the program, and an item for each entry. -/
theorem parts_of_ofProgram (h : ofProgram p = .ok s) : s.bitWidth = p.spec.bitWidth
    ∧ s.inputs.length = p.spec.inputs.length ∧ s.library.length = p.library.length := by
  obtain ⟨library, hlibrary, h⟩ := bind_eq_ok_iff.1 h
  obtain ⟨body, -, h⟩ := bind_eq_ok_iff.1 h
  obtain rfl := Except.ok.inj h
  exact ⟨rfl, List.length_map _, (mapM_eq_ok_iff.1 hlibrary).length_eq.symm⟩

theorem exists_ofProgram_of_translate {target : Target} {c : Settings} {out : String}
    (htarget : target ≠ .sygus) (h : (p.translate target c).result = .ok out) :
    ∃ s, ofProgram p = .ok s := by
  have hmap {f : Script → String} (h : f <$> ofProgram p = .ok out) : ∃ s, ofProgram p = .ok s := by
    cases hs : ofProgram p with
    | error e =>
      rw [hs] at h
      cases h
    | ok s => exact ⟨s, rfl⟩
  cases target with
  | script => exact hmap h
  | sygus => exact absurd rfl htarget
  | feasibility => exact hmap h

theorem result_translate_script (h : ofProgram p = .ok s) (c : Settings) :
    (p.translate .script c).result = .ok (textOfLines s.lines) := by
  show text <$> ofProgram p = _
  rw [h]
  rfl

theorem result_translate_feasibility (h : ofProgram p = .ok s) (c : Settings) :
    (p.translate .feasibility c).result = .ok (textOfLines s.arguments) := by
  show (fun s => textOfLines s.arguments) <$> ofProgram p = _
  rw [h]
  rfl

/-- A program that is read from a text and translated for one of the two targets that are read line
by line is translated for both. Splitting the texts at their line breaks, behind the last of which
nothing is left, gives the lines: the arguments, three and one for each entry of the library, and
the seven lines of a script, of which the second and the third repeat the arguments. -/
theorem lines_of_translate {source out : String} {target : Target} {c : Settings}
    (hp : (Program.read source).result = .ok p) (htarget : target ≠ .sygus)
    (h : (p.translate target c).result = .ok out) :
    ∃ (s : Script) (function : String) (items : List String), ofProgram p = .ok s
      ∧ s.arguments = toString p.spec.bitWidth :: toString p.spec.inputs.length :: function :: items
      ∧ items.length = p.library.length
      ∧ (∀ a ∈ s.arguments, OneLine a)
      ∧ (∃ t, (p.translate .feasibility c).result = .ok t
        ∧ t.toList.splitOn '\n' = s.arguments.map String.toList ++ [[]])
      ∧ ∃ (t : String) (lines : List String), (p.translate .script c).result = .ok t
        ∧ t.toList.splitOn '\n' = lines.map String.toList ++ [[]] ∧ lines.length = 7
        ∧ lines[1]? = some ("spec " ++ toString p.spec.inputs.length ++ " " ++ function)
        ∧ lines[2]? = some ("lib " ++ ", ".intercalate items) := by
  obtain ⟨s, hs⟩ := exists_ofProgram_of_translate htarget h
  have hplain := ofProgram_plain (Program.wellFormed_of_read hp) hs
  obtain ⟨hwidth, hinputs, hlibrary⟩ := parts_of_ofProgram hs
  refine ⟨s, s.specText, s.library.map Item.text, hs, ?_, ?_, hplain.oneLine_arguments,
    ⟨_, result_translate_feasibility hs c, splitOn_textOfLines hplain.oneLine_arguments⟩,
    _, s.lines, result_translate_script hs c, splitOn_textOfLines hplain.oneLine_lines, rfl, ?_,
    rfl⟩
  · rw [arguments, hwidth, hinputs]
  · rw [List.length_map, hlibrary]
  · rw [← hinputs]
    rfl

/-- A comparison and a function with two parameters make items that have commas of their own, and an
entry of the library stands on a new line of the source. -/
theorem lines_of_translate_commas : ∃ p s t u, ∃ lines : List String,
    (Program.read
      "(spec 2 8 x y (sub x (extract 0:8 3 y)))(lib ult (const 8 0xff)\n(fun f a b 1:8))"
      ).result = .ok p
      ∧ ofProgram p = .ok s
      ∧ s.arguments = ["8", "2", "x y -> (sub x (extract 0 3 y))",
        "(ult, 2, x y -> (ite (ult x y) 1:8 0:8))", "const 8 255", "(f, 2, a b -> 1:8)"]
      ∧ (p.translate .feasibility {}).result = .ok t
      ∧ t.toList.splitOn '\n' = s.arguments.map String.toList ++ [[]]
      ∧ (p.translate .script {}).result = .ok u
      ∧ u.toList.splitOn '\n' = lines.map String.toList ++ [[]] ∧ lines.length = 7
      ∧ lines[1]? = some "spec 2 x y -> (sub x (extract 0 3 y))"
      ∧ lines[2]? = some
        "lib (ult, 2, x y -> (ite (ult x y) 1:8 0:8)), const 8 255, (f, 2, a b -> 1:8)" := by
  let p : Program := ⟨⟨8, [⟨"x"⟩, ⟨"y"⟩], .app ⟨"sub"⟩ [.ident ⟨"x"⟩,
    .app ⟨"extract"⟩ [.literal ⟨0, some 8⟩, .literal ⟨3, none⟩, .ident ⟨"y"⟩]]⟩,
    [.operator ⟨"ult"⟩, .constant 8 (some ⟨255, none⟩),
      .function ⟨"f"⟩ [⟨"a"⟩, ⟨"b"⟩] (.literal ⟨1, some 8⟩)]⟩
  have hread : (Program.read
      "(spec 2 8 x y (sub x (extract 0:8 3 y)))(lib ult (const 8 0xff)\n(fun f a b 1:8))"
      ).result = .ok p := by
    decide +kernel
  obtain ⟨out, hout⟩ : ∃ out, (p.translate .feasibility {}).result = .ok out := ⟨_, rfl⟩
  obtain ⟨s, function, items, hs, harguments, -, -, ⟨t, ht, hsplit⟩, u, lines, hu, hlines, hlength,
    hspec, hlib⟩ := lines_of_translate hread (by decide) hout
  have hvalue : s.arguments = ["8", "2", "x y -> (sub x (extract 0 3 y))",
      "(ult, 2, x y -> (ite (ult x y) 1:8 0:8))", "const 8 255", "(f, 2, a b -> 1:8)"] := by
    obtain rfl := Except.ok.inj hs
    decide +kernel
  obtain ⟨-, -, rfl, rfl⟩ : _ ∧ _ ∧ function = _ ∧ items = _ := by
    simpa only [harguments, List.cons.injEq] using hvalue
  exact ⟨p, s, t, u, lines, hread, hs, hvalue, ht, hsplit, hu, hlines, hlength,
    hspec.trans (by decide +kernel), hlib.trans (by decide +kernel)⟩

end Script

end BitSynth
