import BitSynth.Program.Forms
import BitSynth.Proofs.Outcome

/-!
# The shape of programs

Which arguments describe a spec block, which expression describes a library entry, and that the
structural pass makes of them what they describe.
-/

namespace BitSynth

/-! ## Arguments -/

theorem Literal.natValue?_eq_some_iff {l : Literal} {n : Nat} :
    l.natValue? = some n ↔ l.value = n ∧ n < Bits.modulus 32 := by
  unfold Literal.natValue?
  split_ifs with h
  · rw [Option.some.injEq]
    omega
  · refine ⟨nofun, fun hn => ?_⟩
    omega

namespace Expr

theorem toNumber_eq_ok_iff {place : NumberPlace} {e : Expr} {n : Nat} :
    e.toNumber place = .ok n ↔ ∃ l, e = .literal l ∧ l.natValue? = some n := by
  cases e with
  | literal l =>
    unfold toNumber
    cases h : l.natValue? with
    | none => simp [h]
    | some m => simp [h]
  | ident x => simp [toNumber]
  | app op args => simp [toNumber]

theorem toName_eq_ok_iff {place : NamePlace} {e : Expr} {x : Ident} :
    e.toName place = .ok x ↔ e = .ident x := by
  cases e <;> simp [toName]

theorem toNames_eq_ok_iff {place : NamePlace} : ∀ {es : List Expr} {xs : List Ident},
    toNames place es = .ok xs ↔ es = xs.map .ident
  | [], xs => by
    rw [toNames, Except.ok.injEq, eq_comm, eq_comm (a := []), List.map_eq_nil_iff]
  | e :: es, xs => by
    simp only [toNames, bind_eq_ok_iff, toName_eq_ok_iff, toNames_eq_ok_iff]
    refine ⟨?_, fun h => ?_⟩
    · rintro ⟨x, rfl, xs', rfl, heq⟩
      obtain rfl := Except.ok.inj heq
      rfl
    · obtain ⟨x, xs', rfl, rfl, rfl⟩ := List.map_eq_cons_iff.1 h.symm
      exact ⟨x, rfl, xs', rfl, rfl⟩

end Expr

theorem splitLast_eq_iff {α : Type} : ∀ {l front : List α} {a last : α},
    splitLast a l = (front, last) ↔ a :: l = front ++ [last]
  | [], front, a, last => by
    rw [splitLast, Prod.mk.injEq]
    refine ⟨?_, fun h => ?_⟩
    · rintro ⟨rfl, rfl⟩
      rfl
    · obtain ⟨rfl, h⟩ := List.append_eq_singleton_iff.1 h.symm |>.resolve_right (by simp)
      exact ⟨rfl, List.singleton_inj.1 h⟩
  | b :: l, front, a, last => by
    obtain ⟨⟨front', last'⟩, hsplit⟩ : ∃ r, splitLast b l = r := ⟨_, rfl⟩
    have ih := splitLast_eq_iff.1 hsplit
    rw [splitLast, hsplit, ih]
    cases front with
    | nil => simp
    | cons c front => simp [and_assoc]

/-! ## Spec blocks -/

/-- The arguments count the inputs, give the bit width, name the inputs and end with the body. -/
inductive Spec.Describes : List Expr → Spec → Prop
  | intro {count width : Literal} {w : Nat} {inputs : List Ident} {body : Expr}
      (hcount : count.natValue? = some inputs.length) (hwidth : width.natValue? = some w)
      (hpos : 0 < w) :
      Describes (.literal count :: .literal width :: (inputs.map .ident ++ [body]))
        ⟨w, inputs, body⟩

theorem Spec.ofArgs_eq_ok_iff {args : List Expr} {s : Spec} :
    ofArgs args = .ok s ↔ Describes args s := by
  refine ⟨fun h => ?_, ?_⟩
  · unfold ofArgs at h
    split at h
    · rename_i count width first rest
      obtain ⟨⟨inputs, body⟩, hsplit⟩ : ∃ r, splitLast first rest = r := ⟨_, rfl⟩
      simp only [hsplit, bind_eq_ok_iff, Expr.toNumber_eq_ok_iff] at h
      obtain ⟨declared, ⟨count, rfl, hcount⟩, w, ⟨width, rfl, hwidth⟩, h⟩ := h
      by_cases hzero : w = 0
      · rw [if_pos hzero] at h
        cases h
      by_cases hlength : inputs.length ≠ declared
      · rw [if_neg hzero, if_pos hlength] at h
        cases h
      rw [if_neg hzero, if_neg hlength] at h
      obtain ⟨names, hnames, h⟩ := bind_eq_ok_iff.1 h
      obtain rfl := Except.ok.inj h
      obtain rfl := Expr.toNames_eq_ok_iff.1 hnames
      rw [splitLast_eq_iff.1 hsplit]
      rw [Decidable.not_not.1 hlength |>.symm, List.length_map] at hcount
      exact .intro hcount hwidth (Nat.pos_of_ne_zero hzero)
    · cases h
  · rintro @⟨count, width, w, inputs, body, hcount, hwidth, hpos⟩
    obtain ⟨first, rest, hcons⟩ : ∃ first rest, inputs.map Expr.ident ++ [body] = first :: rest :=
      List.exists_cons_of_ne_nil (by simp)
    have hdeclared : (Expr.literal count).toNumber .inputCount = .ok inputs.length :=
      Expr.toNumber_eq_ok_iff.2 ⟨count, rfl, hcount⟩
    have hbitWidth : (Expr.literal width).toNumber .bitWidth = .ok w :=
      Expr.toNumber_eq_ok_iff.2 ⟨width, rfl, hwidth⟩
    have hnames : Expr.toNames .specInput (inputs.map .ident) = .ok inputs :=
      Expr.toNames_eq_ok_iff.2 rfl
    rw [hcons]
    simp only [ofArgs, splitLast_eq_iff.2 hcons.symm]
    refine bind_eq_ok_iff.2 ⟨_, hdeclared, bind_eq_ok_iff.2 ⟨w, hbitWidth, ?_⟩⟩
    rw [if_neg (by omega), if_neg (by simp)]
    exact bind_eq_ok_iff.2 ⟨inputs, hnames, rfl⟩

/-! ## Library entries -/

/-- The expression names an operator, or is a form for a constant or a function. -/
inductive LibraryEntry.Describes : Expr → LibraryEntry → Prop
  | operator (x : Ident) : Describes (.ident x) (.operator x)
  | constant {width : Literal} {w : Nat} (value : Option Literal)
      (hwidth : width.natValue? = some w) (hpos : 0 < w) :
      Describes (.app ⟨"const"⟩ (.literal width :: value.toList.map .literal)) (.constant w value)
  | function (name : Ident) (params : List Ident) (body : Expr) :
      Describes (.app ⟨"fun"⟩ (.ident name :: (params.map .ident ++ [body])))
        (.function name params body)

theorem EntryTag.ofName?_eq_some_iff {s : String} {t : EntryTag} :
    ofName? s = some t ↔ t.name = s := by
  unfold ofName?
  refine ⟨fun h => by simpa using List.find?_some h, ?_⟩
  rintro rfl
  cases t <;> decide

namespace LibraryEntry

theorem constantOf_of_args {a : App} {width : Literal} {value : Option Literal} {w : Nat}
    (hargs : a.args = .literal width :: value.toList.map .literal)
    (hw : width.natValue? = some w) (hpos : 0 < w) : constantOf a = .ok (.constant w value) := by
  cases value with
  | none =>
    simp only [constantOf, hargs, Option.toList_none, List.map_nil, hw]
    exact if_pos hpos
  | some value =>
    simp only [constantOf, hargs, Option.toList_some, List.map_cons, List.map_nil, hw]
    exact if_pos hpos

theorem constantOf_eq_ok_iff {a : App} {entry : LibraryEntry} :
    constantOf a = .ok entry ↔ ∃ (width : Literal) (w : Nat) (value : Option Literal),
      a.args = .literal width :: value.toList.map .literal ∧ width.natValue? = some w ∧ 0 < w
        ∧ entry = .constant w value := by
  refine ⟨fun h => ?_, ?_⟩
  · simp only [constantOf] at h
    split at h
    · rename_i width hargs
      split at h
      · rename_i w hw
        split_ifs at h with hpos
        exact ⟨width, w, none, hargs, hw, hpos, (Except.ok.inj h).symm⟩
      · cases h
    · rename_i width value hargs
      split at h
      · rename_i w hw
        split_ifs at h with hpos
        exact ⟨width, w, some value, hargs, hw, hpos, (Except.ok.inj h).symm⟩
      · cases h
    · cases h
  · rintro ⟨width, w, value, hargs, hw, hpos, rfl⟩
    exact constantOf_of_args hargs hw hpos

theorem functionOf_eq_ok_iff {a : App} {entry : LibraryEntry} :
    functionOf a = .ok entry ↔ ∃ (name : Ident) (params : List Ident) (body : Expr),
      a.args = .ident name :: (params.map .ident ++ [body])
        ∧ entry = .function name params body := by
  refine ⟨fun h => ?_, ?_⟩
  · unfold functionOf at h
    split at h
    · rename_i name first rest hargs
      obtain ⟨⟨params, body⟩, hsplit⟩ : ∃ r, splitLast first rest = r := ⟨_, rfl⟩
      simp only [hsplit, bind_eq_ok_iff, Expr.toName_eq_ok_iff, Expr.toNames_eq_ok_iff] at h
      obtain ⟨name, rfl, params, rfl, h⟩ := h
      obtain rfl := Except.ok.inj h
      rw [splitLast_eq_iff.1 hsplit] at hargs
      exact ⟨name, params, body, hargs, rfl⟩
    · cases h
  · rintro ⟨name, params, body, hargs, rfl⟩
    obtain ⟨first, rest, hcons⟩ : ∃ first rest, params.map Expr.ident ++ [body] = first :: rest :=
      List.exists_cons_of_ne_nil (by simp)
    have hparams : Expr.toNames .functionParameter (params.map .ident) = .ok params :=
      Expr.toNames_eq_ok_iff.2 rfl
    simp only [functionOf, hargs, hcons, splitLast_eq_iff.2 hcons.symm]
    exact bind_eq_ok_iff.2 ⟨name, rfl, bind_eq_ok_iff.2 ⟨params, hparams, rfl⟩⟩

theorem ofExpr_eq_ok_iff {e : Expr} {entry : LibraryEntry} :
    ofExpr e = .ok entry ↔ Describes e entry := by
  refine ⟨fun h => ?_, ?_⟩
  · unfold ofExpr at h
    split at h
    · obtain rfl := Except.ok.inj h
      exact .operator _
    · cases h
    · rename_i op args
      obtain ⟨op⟩ := op
      split at h
      · rename_i htag
        obtain rfl := EntryTag.ofName?_eq_some_iff.1 htag
        obtain ⟨width, w, value, rfl, hw, hpos, rfl⟩ :=
          constantOf_eq_ok_iff.1 (mapError_eq_ok_iff.1 h)
        exact .constant value hw hpos
      · rename_i htag
        obtain rfl := EntryTag.ofName?_eq_some_iff.1 htag
        obtain ⟨name, params, body, rfl, rfl⟩ := functionOf_eq_ok_iff.1 (mapError_eq_ok_iff.1 h)
        exact .function name params body
      · cases h
  · rintro (x | ⟨value, hw, hpos⟩ | ⟨name, params, body⟩)
    · rfl
    · exact mapError_eq_ok_iff.2 (constantOf_eq_ok_iff.2 ⟨_, _, value, rfl, hw, hpos, rfl⟩)
    · exact mapError_eq_ok_iff.2 (functionOf_eq_ok_iff.2 ⟨name, params, body, rfl, rfl⟩)

theorem ofArgs_eq_ok_iff {args : List Expr} {entries : List LibraryEntry} :
    ofArgs args = .ok entries ↔ args ≠ [] ∧ List.Forall₂ Describes args entries := by
  unfold ofArgs
  cases args with
  | nil => simp
  | cons e es =>
    rw [List.isEmpty_cons, if_neg (by decide), mapM_eq_ok_iff]
    simp only [ofExpr_eq_ok_iff]
    exact (and_iff_right (List.cons_ne_nil e es)).symm

end LibraryEntry

/-! ## Blocks -/

theorem Block.ofName?_eq_some_iff {s : String} {b : Block} : ofName? s = some b ↔ b.name = s := by
  unfold ofName?
  refine ⟨fun h => by simpa using List.find?_some h, ?_⟩
  rintro rfl
  cases b <;> decide

namespace Program

/-- The library block lists the entries, of which there is at least one. -/
def DescribesLibrary (args : List Expr) (entries : List LibraryEntry) : Prop :=
  args ≠ [] ∧ List.Forall₂ LibraryEntry.Describes args entries

theorem Blocks.add_eq_ok_iff {b b' : Blocks} {form : App} : b.add form = .ok b' ↔
    (form.op = ⟨"spec"⟩ ∧ b.spec = none ∧
      ∃ s, Spec.Describes form.args s ∧ b' = { b with spec := some s }) ∨
    (form.op = ⟨"lib"⟩ ∧ b.library = none ∧
      ∃ l, DescribesLibrary form.args l ∧ b' = { b with library := some l }) := by
  obtain ⟨⟨name⟩, args⟩ := form
  refine ⟨fun h => ?_, ?_⟩
  · unfold Blocks.add at h
    split at h
    · cases h
    · rename_i htag
      obtain rfl := Block.ofName?_eq_some_iff.1 htag
      split_ifs at h with hspec
      simp only [bind_eq_ok_iff, mapError_eq_ok_iff, Spec.ofArgs_eq_ok_iff] at h
      obtain ⟨s, hs, h⟩ := h
      exact .inl ⟨rfl, by simpa using hspec, s, hs, (Except.ok.inj h).symm⟩
    · rename_i htag
      obtain rfl := Block.ofName?_eq_some_iff.1 htag
      split_ifs at h with hlibrary
      simp only [bind_eq_ok_iff, LibraryEntry.ofArgs_eq_ok_iff] at h
      obtain ⟨l, hl, h⟩ := h
      exact .inr ⟨rfl, by simpa using hlibrary, l, hl, (Except.ok.inj h).symm⟩
  · rintro (⟨hop, hspec, s, hs, rfl⟩ | ⟨hop, hlibrary, l, hl, rfl⟩)
    · obtain rfl := Ident.mk.inj hop
      have htag : Block.ofName? "spec" = some .spec := Block.ofName?_eq_some_iff.2 rfl
      simp only [Blocks.add, htag, hspec, Option.isSome_none]
      exact bind_eq_ok_iff.2 ⟨s, mapError_eq_ok_iff.2 (Spec.ofArgs_eq_ok_iff.2 hs), rfl⟩
    · obtain rfl := Ident.mk.inj hop
      have htag : Block.ofName? "lib" = some .lib := Block.ofName?_eq_some_iff.2 rfl
      simp only [Blocks.add, htag, hlibrary, Option.isSome_none]
      exact bind_eq_ok_iff.2 ⟨l, LibraryEntry.ofArgs_eq_ok_iff.2 hl, rfl⟩

/-- The blocks stand among the forms. -/
def Blocks.From (forms : List App) (b : Blocks) : Prop :=
  (∀ s ∈ b.spec, ∃ a ∈ forms, Spec.Describes a.args s) ∧
    ∀ l ∈ b.library, ∃ a ∈ forms, DescribesLibrary a.args l

theorem Blocks.From.add {forms : List App} {b b' : Blocks} {a : App} (hb : b.From forms)
    (ha : a ∈ forms) (h : b.add a = .ok b') : b'.From forms := by
  rcases Blocks.add_eq_ok_iff.1 h with ⟨-, -, s, hs, rfl⟩ | ⟨-, -, l, hl, rfl⟩
  · refine ⟨?_, hb.2⟩
    rintro _ ⟨⟩
    exact ⟨a, ha, hs⟩
  · refine ⟨hb.1, ?_⟩
    rintro _ ⟨⟩
    exact ⟨a, ha, hl⟩

theorem exists_of_ofForms {forms : List App} {p : Program} (h : ofForms forms = .ok p) :
    (∃ a ∈ forms, Spec.Describes a.args p.spec) ∧
      ∃ a ∈ forms, DescribesLibrary a.args p.library := by
  obtain ⟨b, hb, hp⟩ := bind_eq_ok_iff.1 h
  have hempty : Blocks.From forms {} := by
    refine ⟨?_, ?_⟩ <;> rintro _ ⟨⟩
  have hfrom : b.From forms := foldlM_induction hb hempty fun a ha _ _ hb => hb.add ha
  obtain ⟨spec, library⟩ := b
  cases spec with
  | none => cases hp
  | some s =>
    cases library with
    | none => cases hp
    | some l =>
      obtain rfl := Except.ok.inj hp
      exact ⟨hfrom.1 s rfl, hfrom.2 l rfl⟩

theorem ofForms_of_describes {p : Program} {args args' : List Expr}
    (hspec : Spec.Describes args p.spec) (hlibrary : DescribesLibrary args' p.library) :
    ofForms [⟨⟨"spec"⟩, args⟩, ⟨⟨"lib"⟩, args'⟩] = .ok p := by
  have h₁ : Blocks.add {} ⟨⟨"spec"⟩, args⟩ = .ok { spec := some p.spec } :=
    Blocks.add_eq_ok_iff.2 (.inl ⟨rfl, rfl, p.spec, hspec, rfl⟩)
  have h₂ : Blocks.add { spec := some p.spec } ⟨⟨"lib"⟩, args'⟩
      = .ok { spec := some p.spec, library := some p.library } :=
    Blocks.add_eq_ok_iff.2 (.inr ⟨rfl, rfl, p.library, hlibrary, rfl⟩)
  refine bind_eq_ok_iff.2 ⟨⟨some p.spec, some p.library⟩, ?_, rfl⟩
  simp only [List.foldlM_cons, List.foldlM_nil, bind_eq_ok_iff]
  exact ⟨_, h₁, _, h₂, rfl⟩

end Program

end BitSynth
