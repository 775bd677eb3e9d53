import BitSynth.Program.Read
import BitSynth.Proofs.Outcome
import BitSynth.Proofs.Program.Shape
import BitSynth.Proofs.Reader.Reading

/-!
# Programs and their text

A program that is read from a text is well-formed, and a well-formed program is read back from its
own text.
-/

namespace BitSynth

open Text Reader

/-- The width is not zero and, like the number of inputs, one of 32 bits. All names can be written. -/
structure Spec.WellFormed (s : Spec) : Prop where
  bitWidth_pos : 0 < s.bitWidth
  bitWidth_lt : s.bitWidth < Bits.modulus 32
  inputs_lt : s.inputs.length < Bits.modulus 32
  inputs : ∀ x ∈ s.inputs, x.Valid
  body : s.body.Valid

def LibraryEntry.WellFormed : LibraryEntry → Prop
  | operator name => name.Valid
  | constant width value => 0 < width ∧ width < Bits.modulus 32 ∧ ∀ l ∈ value, l.Valid
  | function name params body => name.Valid ∧ (∀ x ∈ params, x.Valid) ∧ body.Valid

/-- The spec and the entries are well-formed, and there is an entry. -/
structure Program.WellFormed (p : Program) : Prop where
  spec : p.spec.WellFormed
  library_ne_nil : p.library ≠ []
  entries : ∀ e ∈ p.library, e.WellFormed

theorem Expr.allValid_idents {xs : List Ident} :
    (∀ e ∈ xs.map Expr.ident, e.Valid) ↔ ∀ x ∈ xs, x.Valid := List.forall_mem_map

/-! ## Programs of a text -/

theorem Spec.Describes.wellFormed {args : List Expr} {s : Spec} (h : Describes args s)
    (hargs : ∀ e ∈ args, e.Valid) : s.WellFormed := by
  obtain ⟨hcount, hwidth, hpos⟩ := h
  simp only [List.forall_mem_cons, List.forall_mem_append, Expr.allValid_idents] at hargs
  obtain ⟨-, -, hinputs, hbody, -⟩ := hargs
  obtain ⟨-, hlt⟩ := Literal.natValue?_eq_some_iff.1 hwidth
  obtain ⟨-, hlength⟩ := Literal.natValue?_eq_some_iff.1 hcount
  exact ⟨hpos, hlt, hlength, hinputs, hbody⟩

theorem LibraryEntry.Describes.wellFormed {e : Expr} {entry : LibraryEntry} (h : Describes e entry)
    (he : e.Valid) : entry.WellFormed := by
  cases h with
  | operator x => exact he
  | @constant width w value hwidth hpos =>
    have hargs := Expr.allValid_iff.1 he.2
    refine ⟨hpos, (Literal.natValue?_eq_some_iff.1 hwidth).2, fun l hl => ?_⟩
    exact hargs (.literal l) (by simp [Option.mem_def.1 hl])
  | function name params body =>
    have hargs := Expr.allValid_iff.1 he.2
    simp only [List.forall_mem_cons, List.forall_mem_append, Expr.allValid_idents] at hargs
    obtain ⟨hname, hparams, hbody, -⟩ := hargs
    exact ⟨hname, hparams, hbody⟩

theorem Program.DescribesLibrary.wellFormed {args : List Expr} {entries : List LibraryEntry}
    (h : DescribesLibrary args entries) (hargs : ∀ e ∈ args, e.Valid) :
    entries ≠ [] ∧ ∀ e ∈ entries, e.WellFormed := by
  obtain ⟨hne, hall⟩ := h
  refine ⟨?_, ?_⟩
  · rintro rfl
    exact hne (List.forall₂_nil_right_iff.1 hall)
  -- by the entries, of which there may now be none
  clear hne
  induction hall with
  | nil => exact List.forall_mem_nil _
  | cons he _ ih =>
    rw [List.forall_mem_cons] at hargs ⊢
    exact ⟨he.wellFormed hargs.1, ih hargs.2⟩

theorem Program.wellFormed_of_ofForms {forms : List App} {p : Program}
    (h : ofForms forms = .ok p) (hforms : ∀ a ∈ forms, a.toExpr.Valid) : p.WellFormed := by
  obtain ⟨⟨a, ha, hspec⟩, ⟨a', ha', hlibrary⟩⟩ := exists_of_ofForms h
  have hargs : ∀ e ∈ a.args, e.Valid := Expr.allValid_iff.1 (hforms a ha).2
  have hargs' : ∀ e ∈ a'.args, e.Valid := Expr.allValid_iff.1 (hforms a' ha').2
  obtain ⟨hne, hentries⟩ := hlibrary.wellFormed hargs'
  exact ⟨hspec.wellFormed hargs, hne, hentries⟩

theorem Program.wellFormed_of_read {text : String} {p : Program} (h : (read text).result = .ok p) :
    p.WellFormed := by
  simp only [read, Logged.result_bind_eq_ok_iff, Logged.result_ofExcept, mapError_eq_ok_iff] at h
  obtain ⟨forms, hforms, _, hp, _, -, ⟨⟩⟩ := h
  exact wellFormed_of_ofForms hp (App.valid_of_readAll hforms)

/-! ## Forms of a program -/

def Spec.args (s : Spec) : List Expr :=
  .literal ⟨s.inputs.length, none⟩ :: .literal ⟨s.bitWidth, none⟩ ::
    (s.inputs.map .ident ++ [s.body])

def LibraryEntry.toExpr : LibraryEntry → Expr
  | operator name => .ident name
  | constant width value =>
    .app ⟨"const"⟩ (.literal ⟨width, none⟩ :: value.toList.map .literal)
  | function name params body => .app ⟨"fun"⟩ (.ident name :: (params.map .ident ++ [body]))

def Spec.form (s : Spec) : App := ⟨⟨"spec"⟩, s.args⟩

def Program.libraryForm (p : Program) : App := ⟨⟨"lib"⟩, p.library.map LibraryEntry.toExpr⟩

theorem Literal.natValue?_natCast {n : Nat} (h : n < Bits.modulus 32) :
    natValue? ⟨n, none⟩ = some n := Literal.natValue?_eq_some_iff.2 ⟨rfl, h⟩

theorem Literal.valid_natCast (n : Nat) : Valid ⟨n, none⟩ := by
  rintro w ⟨⟩

theorem Spec.WellFormed.describes {s : Spec} (h : s.WellFormed) : Describes s.args s :=
  .intro (Literal.natValue?_natCast h.inputs_lt) (Literal.natValue?_natCast h.bitWidth_lt)
    h.bitWidth_pos

theorem Spec.WellFormed.valid_args {s : Spec} (h : s.WellFormed) : ∀ e ∈ s.args, e.Valid := by
  simp only [args, List.forall_mem_cons, List.forall_mem_append, Expr.allValid_idents]
  exact ⟨Literal.valid_natCast _, Literal.valid_natCast _, h.inputs, h.body,
    List.forall_mem_nil _⟩

theorem LibraryEntry.WellFormed.describes {entry : LibraryEntry} (h : entry.WellFormed) :
    Describes entry.toExpr entry := by
  cases entry with
  | operator name => exact .operator name
  | constant width value => exact .constant value (Literal.natValue?_natCast h.2.1) h.1
  | function name params body => exact .function name params body

theorem LibraryEntry.WellFormed.valid_toExpr {entry : LibraryEntry} (h : entry.WellFormed) :
    entry.toExpr.Valid := by
  cases entry with
  | operator name => exact h
  | constant width value =>
    refine ⟨by decide, Literal.valid_natCast width, Expr.allValid_iff.2 ?_⟩
    rw [List.forall_mem_map]
    exact fun l hl => h.2.2 l (Option.mem_toList.1 hl)
  | function name params body =>
    refine ⟨by decide, h.1, Expr.allValid_iff.2 ?_⟩
    simp only [List.forall_mem_append, Expr.allValid_idents, List.forall_mem_singleton]
    exact h.2

theorem Expr.textArgs_eq_join (es : List Expr) :
    textArgs es = String.join (es.map fun e => " " ++ e.text) := by
  induction es with
  | nil => rfl
  | cons e es ih => rw [textArgs, ih, List.map_cons, String.join_cons]

theorem Expr.textArgs_append (es es' : List Expr) :
    textArgs (es ++ es') = textArgs es ++ textArgs es' := by
  simp only [textArgs_eq_join, List.map_append, String.join_append]

theorem Ident.listText_eq (xs : List Ident) : listText xs = Expr.textArgs (xs.map .ident) := by
  rw [Expr.textArgs_eq_join, List.map_map]
  rfl

theorem Literal.text_natCast (n : Nat) : text ⟨n, none⟩ = toString n := rfl

theorem Spec.text_eq (s : Spec) : s.text = s.form.text := by
  have hform : s.form.text = "(" ++ "spec" ++ Expr.textArgs s.args ++ ")" := rfl
  rw [hform, ← String.toList_inj]
  simp [text, args, Expr.textArgs, Expr.textArgs_append, Ident.listText_eq, Expr.text,
    Literal.text_natCast]

theorem LibraryEntry.text_eq (entry : LibraryEntry) : entry.text = entry.toExpr.text := by
  cases entry with
  | operator name => rfl
  | constant width value =>
    cases value with
    | none =>
      rw [← String.toList_inj]
      simp [text, toExpr, Expr.textArgs, Expr.text, Literal.text_natCast]
    | some value =>
      rw [← String.toList_inj]
      simp [text, toExpr, Expr.textArgs, Expr.text, Literal.text_natCast]
  | function name params body =>
    rw [← String.toList_inj]
    simp [text, toExpr, Expr.textArgs, Expr.textArgs_append, Ident.listText_eq, Expr.text]

theorem Program.text_eq (p : Program) :
    p.text = p.spec.form.text ++ "\n" ++ p.libraryForm.text := by
  have hform : p.libraryForm.text
      = "(" ++ "lib" ++ Expr.textArgs (p.library.map LibraryEntry.toExpr) ++ ")" := rfl
  have hentries : (p.library.map LibraryEntry.toExpr).map (fun e => " " ++ e.text)
      = p.library.map fun e => " " ++ e.text := by
    simp only [List.map_map, Function.comp_def, LibraryEntry.text_eq]
  rw [hform, Expr.textArgs_eq_join, hentries, Program.text, Spec.text_eq, ← String.toList_inj]
  simp

/-! ## Round trip -/

theorem Reader.takes_spaced_form {a : App} (ha : a.toExpr.Valid) {vs rest : List Char}
    (hvs : Blank vs) (hrest : NoSpace rest) :
    (spaced form).Takes (a.text.toList ++ vs) rest a := by
  have hspells : Spells a.text.toList (.app a.op a.args) := spells_text ha
  exact Takes.spaced_nil hvs (hspells.noSpace _) hrest (takes_form hspells)

theorem App.readAll_two {a b : App} (ha : a.toExpr.Valid) (hb : b.toExpr.Valid) :
    readAll (a.text ++ "\n" ++ b.text) = .ok [a, b] := by
  have hspells : Spells b.text.toList (.app b.op b.args) := spells_text hb
  have hfirst : (spaced form).Takes (a.text.toList ++ ['\n']) (b.text.toList ++ []) a :=
    takes_spaced_form ha (by simp [Blank]; decide) (hspells.noSpace [])
  have hsecond : (spaced form).Takes b.text.toList [] b := by
    have h : (spaced form).Takes (b.text.toList ++ []) [] b :=
      takes_spaced_form hb (List.forall_mem_nil _) (by rintro c ⟨⟩)
    rwa [List.append_nil] at h
  have hend : (spaced form).Fails [] :=
    Fails.spaced_nil (by rintro c ⟨⟩) (Fails.named (fails_char (by rintro c ⟨⟩)).bind)
  have hrest : (spaced form).many.Takes b.text.toList [] [b] := by
    have h : (spaced form).many.Takes (b.text.toList ++ []) [] [b] :=
      Takes.many_cons hsecond hspells.ne_nil hend.many
    rwa [List.append_nil] at h
  refine Takes.parse ?_
  rw [String.toList_append, String.toList_append]
  exact hfirst.many1 hrest

theorem Program.readAll_text {p : Program} (h : p.WellFormed) :
    App.readAll p.text = .ok [p.spec.form, p.libraryForm] := by
  have hspec : p.spec.form.toExpr.Valid := by
    have hop : Ident.Valid ⟨"spec"⟩ := by decide
    exact ⟨hop, Expr.allValid_iff.2 h.spec.valid_args⟩
  have hlibrary : p.libraryForm.toExpr.Valid := by
    have hop : Ident.Valid ⟨"lib"⟩ := by decide
    refine ⟨hop, ?_⟩
    rw [Expr.allValid_iff, libraryForm, List.forall_mem_map]
    exact fun e he => (h.entries e he).valid_toExpr
  rw [Program.text_eq]
  exact App.readAll_two hspec hlibrary

theorem Program.WellFormed.ofForms {p : Program} (h : p.WellFormed) :
    ofForms [p.spec.form, p.libraryForm] = .ok p := by
  refine ofForms_of_describes h.spec.describes ⟨by simp [h.library_ne_nil], ?_⟩
  rw [List.forall₂_map_left_iff, List.forall₂_same]
  exact fun e he => (h.entries e he).describes

/-- A program is read from some text exactly if it is well-formed, and then it is read from its own
text. -/
theorem Program.read_text (p : Program) :
    (∀ text, (read text).result = .ok p → p.WellFormed) ∧
      (p.WellFormed → (read p.text).result = .ok p) := by
  have hread (text : String) : (read text).result = .ok p ↔
      ∃ forms, App.readAll text = .ok forms ∧ ofForms forms = .ok p := by
    simp [read, Logged.result_bind_eq_ok_iff, mapError_eq_ok_iff]
  refine ⟨fun text h => ?_, fun h => ?_⟩
  · obtain ⟨forms, hforms, hp⟩ := (hread text).1 h
    exact wellFormed_of_ofForms hp (App.valid_of_readAll hforms)
  · exact (hread p.text).2 ⟨_, readAll_text h, h.ofForms⟩

/-- The blocks come in the other order and with other white space and numerals than in the text that
the program is printed as. -/
theorem Program.read_text_twice : ∃ p : Program,
    (read "(lib sub ( const (8) 0xfF:8)(const 4)\n(fun twice a (add a a)))(spec 02 8 x y(sub x -1))"
      ).result = .ok p ∧ p.WellFormed ∧ (read p.text).result = .ok p := by
  have hread : (read
      "(lib sub ( const (8) 0xfF:8)(const 4)\n(fun twice a (add a a)))(spec 02 8 x y(sub x -1))"
      ).result = .ok
      { spec := ⟨8, [⟨"x"⟩, ⟨"y"⟩], .app ⟨"sub"⟩ [.ident ⟨"x"⟩, .literal ⟨-1, none⟩]⟩
        library := [.operator ⟨"sub"⟩, .constant 8 (some ⟨255, some 8⟩), .constant 4 none,
          .function ⟨"twice"⟩ [⟨"a"⟩] (.app ⟨"add"⟩ [.ident ⟨"a"⟩, .ident ⟨"a"⟩])] } := by
    decide +kernel
  have hwellFormed := (read_text _).1 _ hread
  exact ⟨_, hread, hwellFormed, (read_text _).2 hwellFormed⟩

end BitSynth
