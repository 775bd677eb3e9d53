import BitSynth.Proofs.Program.Shape
import Mathlib.Data.List.Permutation

/-!
# Which forms are a program

Every form that the structural pass adds is a block that was not there before. So the forms of a
program are those of its two blocks, in either order (`ofForms_eq_ok_iff`).
-/

namespace BitSynth.Program

namespace Blocks

variable {forms : List App} {b b' : Blocks} {args : List Expr}

/-- The forms are those of the blocks, in some order. -/
def Collects (forms : List App) (b : Blocks) : Prop :=
  ∃ specs libraries : List (List Expr),
    forms.Perm (specs.map (App.mk ⟨"spec"⟩) ++ libraries.map (App.mk ⟨"lib"⟩))
      ∧ List.Forall₂ Spec.Describes specs b.spec.toList
      ∧ List.Forall₂ DescribesLibrary libraries b.library.toList

theorem collects_nil : Collects [] {} := ⟨[], [], .nil, .nil, .nil⟩

theorem Collects.add {form : App} (hb : Collects forms b) (h : b.add form = .ok b') :
    Collects (forms ++ [form]) b' := by
  obtain ⟨specs, libraries, hperm, hspecs, hlibraries⟩ := hb
  obtain ⟨op, args⟩ := form
  rcases add_eq_ok_iff.1 h with ⟨hop, hnone, s, hs, rfl⟩ | ⟨hop, hnone, l, hl, rfl⟩
  · obtain rfl : op = ⟨"spec"⟩ := hop
    rw [hnone] at hspecs
    obtain rfl := List.forall₂_nil_right_iff.1 hspecs
    refine ⟨[args], libraries, ?_, .cons hs .nil, hlibraries⟩
    exact (hperm.append_right _).trans List.perm_append_comm
  · obtain rfl : op = ⟨"lib"⟩ := hop
    rw [hnone] at hlibraries
    obtain rfl := List.forall₂_nil_right_iff.1 hlibraries
    refine ⟨specs, [args], ?_, hspecs, .cons hl .nil⟩
    rw [List.map_nil, List.append_nil] at hperm
    exact hperm.append_right _

theorem collects_of_foldlM (h : forms.foldlM Blocks.add {} = .ok b) : Collects forms b := by
  induction forms using List.reverseRecOn generalizing b with
  | nil =>
    obtain rfl := Except.ok.inj h
    exact collects_nil
  | append_singleton forms form ih =>
    rw [List.foldlM_append, bind_eq_ok_iff] at h
    obtain ⟨b₀, hb₀, h⟩ := h
    rw [List.foldlM_cons, bind_eq_ok_iff] at h
    obtain ⟨b₁, hadd, h⟩ := h
    obtain rfl := Except.ok.inj h
    exact (ih hb₀).add hadd

theorem add_spec {s : Spec} (hb : b.spec = none) (h : Spec.Describes args s) :
    b.add ⟨⟨"spec"⟩, args⟩ = .ok { b with spec := some s } :=
  add_eq_ok_iff.2 (.inl ⟨rfl, hb, s, h, rfl⟩)

theorem add_library {l : List LibraryEntry} (hb : b.library = none) (h : DescribesLibrary args l) :
    b.add ⟨⟨"lib"⟩, args⟩ = .ok { b with library := some l } :=
  add_eq_ok_iff.2 (.inr ⟨rfl, hb, l, h, rfl⟩)

end Blocks

variable {forms : List App} {p : Program} {args args' : List Expr}

theorem describes_of_ofForms (h : ofForms forms = .ok p) : ∃ args args',
    forms.Perm [⟨⟨"spec"⟩, args⟩, ⟨⟨"lib"⟩, args'⟩]
      ∧ Spec.Describes args p.spec ∧ DescribesLibrary args' p.library := by
  obtain ⟨⟨spec, library⟩, hb, hp⟩ := bind_eq_ok_iff.1 h
  obtain ⟨specs, libraries, hperm, hspecs, hlibraries⟩ := Blocks.collects_of_foldlM hb
  cases spec with
  | none => cases hp
  | some s =>
    cases library with
    | none => cases hp
    | some l =>
      obtain rfl := Except.ok.inj hp
      obtain ⟨args, _, hs, hnil, rfl⟩ := List.forall₂_cons_right_iff.1 hspecs
      obtain rfl := List.forall₂_nil_right_iff.1 hnil
      obtain ⟨args', _, hl, hnil, rfl⟩ := List.forall₂_cons_right_iff.1 hlibraries
      obtain rfl := List.forall₂_nil_right_iff.1 hnil
      exact ⟨args, args', hperm, hs, hl⟩

theorem ofForms_of_perm (hperm : forms.Perm [⟨⟨"spec"⟩, args⟩, ⟨⟨"lib"⟩, args'⟩])
    (hspec : Spec.Describes args p.spec) (hlibrary : DescribesLibrary args' p.library) :
    ofForms forms = .ok p := by
  rcases List.perm_pair.1 hperm with rfl | rfl
  · exact ofForms_of_describes hspec hlibrary
  · refine bind_eq_ok_iff.2 ⟨⟨some p.spec, some p.library⟩, ?_, rfl⟩
    simp only [List.foldlM_cons, List.foldlM_nil, bind_eq_ok_iff]
    exact ⟨_, Blocks.add_library rfl hlibrary, _, Blocks.add_spec rfl hspec, rfl⟩

/-- A program is made of one spec block and one library block, in either order, and holds what they
describe: the order of the forms does not matter. The count of the inputs, like a width, is a number
of 32 bits. -/
theorem ofForms_eq_ok_iff (forms : List App) (p : Program) :
    (ofForms forms = .ok p ↔ ∃ args args',
        forms.Perm [⟨⟨"spec"⟩, args⟩, ⟨⟨"lib"⟩, args'⟩]
          ∧ Spec.Describes args p.spec ∧ DescribesLibrary args' p.library)
      ∧ ∀ forms', forms.Perm forms' → (ofForms forms = .ok p ↔ ofForms forms' = .ok p) := by
  have hforms (forms : List App) : ofForms forms = .ok p ↔ ∃ args args',
      forms.Perm [⟨⟨"spec"⟩, args⟩, ⟨⟨"lib"⟩, args'⟩]
        ∧ Spec.Describes args p.spec ∧ DescribesLibrary args' p.library :=
    ⟨describes_of_ofForms, fun ⟨_, _, hperm, hspec, hlibrary⟩ =>
      ofForms_of_perm hperm hspec hlibrary⟩
  refine ⟨hforms forms, fun forms' hperm => ?_⟩
  rw [hforms forms, hforms forms']
  simp only [hperm.congr_left]

/-- The library block may come first, with a function and constants among its entries. -/
theorem ofForms_eq_ok_iff_libraryFirst :
    ofForms [⟨⟨"lib"⟩, [.ident ⟨"add"⟩, .app ⟨"const"⟩ [.literal ⟨4, none⟩],
        .app ⟨"const"⟩ [.literal ⟨4, none⟩, .literal ⟨-1, some 4⟩],
        .app ⟨"fun"⟩ [.ident ⟨"one"⟩, .literal ⟨1, none⟩]]⟩,
      ⟨⟨"spec"⟩, [.literal ⟨1, none⟩, .literal ⟨4, none⟩, .ident ⟨"x"⟩, .ident ⟨"x"⟩]⟩]
    = .ok ⟨⟨4, [⟨"x"⟩], .ident ⟨"x"⟩⟩, [.operator ⟨"add"⟩, .constant 4 none,
        .constant 4 (some ⟨-1, some 4⟩), .function ⟨"one"⟩ [] (.literal ⟨1, none⟩)]⟩ :=
  ((ofForms_eq_ok_iff _ _).2 _ (.swap ..)).2 rfl

end BitSynth.Program
