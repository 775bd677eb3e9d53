import BitSynth.Proofs.Reader.Enclosure

/-!
# Texts of several forms

The forms of a text can be cut apart: it is the concatenation of texts of one form each, with the
white space before and behind it, and each of these is read as an expression
(`App.readAll_eq_ok_iff`). Neither the cut nor what stands behind it shows, because a form is taken
in front of anything, and white space is skipped on both sides of it.
-/

namespace BitSynth

namespace Reader

variable {α : Type} {p : Reader α} {cs rest : List Char} {css : List (List Char)} {a : α} {x : App}
  {xs : List App}

/-! ## White space around a value -/

theorem parse_eq_ok_iff [hp : Composed p] {text : String} :
    p.parse text = .ok a ↔ p.Takes text.toList [] a := by
  refine ⟨fun h => ?_, Takes.parse⟩
  obtain ⟨c, f, hpa, hend⟩ := exists_of_parse h
  obtain ⟨cs, hcs, htakes⟩ := hp.regular.takes hpa
  rw [hend] at htakes
  have htext : text.toList = cs := by
    have hrest := hcs.rest
    rwa [hend, List.append_nil] at hrest
  exact htext ▸ htakes

theorem takes_space_iff : space.Takes cs rest () ↔ Blank cs ∧ NoSpace rest := by
  refine ⟨fun h => ⟨h.follows follows_space, ?_⟩, fun ⟨hcs, hrest⟩ => takes_space hcs hrest⟩
  obtain ⟨f, hf⟩ := h 0 none
  have hskip : (⟨cs ++ rest, 0⟩ : Cursor).skip (· ∈ Text.whiteSpace) = ⟨rest, 0 + byteSize cs⟩ :=
    (Prod.mk.inj (Option.some.inj (Prod.mk.inj hf).1)).2
  have hstop := noSpace_skip ⟨cs ++ rest, 0⟩
  rwa [hskip] at hstop

theorem takes_spaced_iff [Composed p] : (spaced p).Takes cs rest a ↔
    ∃ us ds vs, cs = us ++ (ds ++ vs) ∧ Blank us ∧ Blank vs ∧ NoSpace (ds ++ (vs ++ rest)) ∧
      NoSpace rest ∧ p.Takes ds (vs ++ rest) a := by
  constructor
  · intro h
    obtain ⟨us, ds, _, rfl, hspace, h⟩ := h.of_bind
    obtain ⟨ds, vs, a, rfl, hp, h⟩ := h.of_bind
    obtain ⟨_, hspace', rfl⟩ := h.of_bind_pure
    obtain ⟨hus, hds⟩ := takes_space_iff.1 hspace
    obtain ⟨hvs, hrest⟩ := takes_space_iff.1 hspace'
    rw [List.append_assoc] at hds
    exact ⟨us, ds, vs, rfl, hus, hvs, hds, hrest, hp⟩
  · rintro ⟨us, ds, vs, rfl, hus, hvs, hds, hrest, hp⟩
    exact Takes.spaced hus hvs hds hrest hp

/-! ## Forms one after the other -/

/-- The text is that of a form with white space around it. -/
def SpellsForm (cs : List Char) (x : App) : Prop :=
  ∃ us ds vs, cs = us ++ (ds ++ vs) ∧ Blank us ∧ Blank vs ∧ form.Takes ds [] x

theorem takes_spaced_expr_iff : (spaced expr).Takes cs [] x.toExpr ↔ SpellsForm cs x := by
  rw [takes_spaced_iff]
  constructor
  · rintro ⟨us, ds, vs, hcs, hus, hvs, -, -, hx⟩
    exact ⟨us, ds, vs, hcs, hus, hvs, takes_form_of_takes (takes_toExpr_iff.1 hx)⟩
  · rintro ⟨us, ds, vs, hcs, hus, hvs, hx⟩
    exact ⟨us, ds, vs, hcs, hus, hvs, (opens_form.noSpace hx).2 _, closing_nil.noSpace,
      takes_toExpr_iff.2 (takes_form_of_takes hx)⟩

theorem follows_spaced_form : (spaced form).Follows SpellsForm := by
  have hform : form.Follows fun ds x => form.Takes ds [] x := fun c f x c' f' h => by
    obtain ⟨ds, hds, htakes⟩ := Composed.form.regular.takes h
    exact ⟨ds, hds, takes_form_of_takes htakes⟩
  exact hform.spaced fun us ds vs x hus hx hvs => ⟨us, ds, vs, rfl, hus, hvs, hx⟩

theorem follows_forms : (many1 (spaced form)).Follows fun cs xs =>
    xs ≠ [] ∧ ∃ css, css.flatten = cs ∧ List.Forall₂ SpellsForm css xs := by
  refine follows_spaced_form.many1 ⟨[], rfl, .nil⟩ ?_
  rintro cs x ds xs hx ⟨css, rfl, hxs⟩
  exact ⟨cs :: css, List.flatten_cons, .cons hx hxs⟩

/-- Space in front of the first form belongs to none of the texts before it when these are read: it
is skipped with what ends them. -/
theorem exists_takes_many (h : List.Forall₂ SpellsForm css xs) : ∃ us cs, css.flatten = us ++ cs ∧
    Blank us ∧ NoSpace cs ∧ (spaced form).many.Takes cs [] xs := by
  induction h with
  | nil =>
    have hnone : (spaced form).many.Takes [] [] [] := (opens_form.spaced closing_nil).many
    exact ⟨[], [], rfl, List.forall_mem_nil _, closing_nil.noSpace, hnone⟩
  | @cons _ x css xs hx _ ih =>
    obtain ⟨us, ds, vs, rfl, hus, hvs, hx⟩ := hx
    obtain ⟨ws, cs, hcs, hws, hspace, hmany⟩ := ih
    have hne := opens_form.noSpace hx
    have hone : (spaced form).Takes (ds ++ (vs ++ ws)) (cs ++ []) x := by
      refine Takes.spaced_nil (List.forall_mem_append.2 ⟨hvs, hws⟩) (hne.2 _) ?_
        (takes_form_of_takes hx)
      rwa [List.append_nil]
    refine ⟨us, ds ++ (vs ++ ws) ++ cs, ?_, hus, ?_, hone.many_cons (by simp [hne.1]) hmany⟩
    · rw [List.flatten_cons, hcs]
      simp only [List.append_assoc]
    · rw [List.append_assoc]
      exact hne.2 _

theorem Takes.blank_append [Composed p] {us : List Char} (hus : Blank us)
    (h : (Reader.spaced p).Takes cs rest a) : (Reader.spaced p).Takes (us ++ cs) rest a := by
  obtain ⟨us', ds, vs, rfl, hus', htakes⟩ := takes_spaced_iff.1 h
  exact takes_spaced_iff.2 ⟨us ++ us', ds, vs, (List.append_assoc ..).symm,
    List.forall_mem_append.2 ⟨hus, hus'⟩, htakes⟩

theorem takes_forms (hne : xs ≠ []) (h : List.Forall₂ SpellsForm css xs) :
    (many1 (spaced form)).Takes css.flatten [] xs := by
  obtain ⟨us, cs, hcs, hus, -, hmany⟩ := exists_takes_many h
  rcases hmany.of_many with ⟨-, hnil⟩ | ⟨cs, ds, x, xs, rfl, -, rfl, hx, hxs⟩
  · exact absurd hnil hne
  · rw [hcs, ← List.append_assoc]
    exact (hx.blank_append hus).many1 hxs

end Reader

/-! ## Texts cut apart -/

namespace App

open Reader

variable {text : String} {x : App} {xs : List App}

theorem read_eq_ok_iff : Expr.read text = .ok x.toExpr ↔ SpellsForm text.toList x :=
  parse_eq_ok_iff.trans takes_spaced_expr_iff

theorem readAll_eq_ok_iff : readAll text = .ok xs ↔ xs ≠ [] ∧ ∃ texts : List String,
    String.join texts = text ∧
      List.Forall₂ (fun t x => Expr.read t = .ok (toExpr x)) texts xs := by
  simp only [read_eq_ok_iff]
  constructor
  · intro h
    obtain ⟨hne, css, hcss, hxs⟩ := follows_forms.parse h
    refine ⟨hne, css.map String.ofList, ?_, ?_⟩
    · rw [← String.toList_inj, String.toList_join, List.flatMap_map, ← hcss]
      simp only [String.toList_ofList, List.flatMap_id']
    · rw [List.forall₂_map_left_iff]
      simpa only [String.toList_ofList] using hxs
  · rintro ⟨hne, texts, rfl, hxs⟩
    have hforms : List.Forall₂ SpellsForm (texts.map String.toList) xs :=
      List.forall₂_map_left_iff.2 hxs
    refine Takes.parse ?_
    rw [String.toList_join, List.flatMap_def]
    exact takes_forms hne hforms

/-- A text of forms is one or more texts of one application each, put together, and so the forms of
two texts are those of the one and then those of the other. -/
theorem readAll_join : (∀ text xs, readAll text = .ok xs ↔ xs ≠ [] ∧ ∃ texts : List String,
      String.join texts = text ∧
        List.Forall₂ (fun t x => Expr.read t = .ok (toExpr x)) texts xs) ∧
    ∀ t t' xs ys, readAll t = .ok xs → readAll t' = .ok ys →
      readAll (t ++ t') = .ok (xs ++ ys) := by
  refine ⟨fun _ _ => readAll_eq_ok_iff, fun t t' xs ys h h' => ?_⟩
  obtain ⟨hne, texts, rfl, hxs⟩ := readAll_eq_ok_iff.1 h
  obtain ⟨-, texts', rfl, hys⟩ := readAll_eq_ok_iff.1 h'
  refine readAll_eq_ok_iff.2 ⟨by simp [hne], texts ++ texts', String.join_append, ?_⟩
  exact List.rel_append hxs hys

theorem readAll_two_forms :
    readAll "(f 5x) " = .ok [⟨⟨"f"⟩, [.literal ⟨5, none⟩, .ident ⟨"x"⟩]⟩] ∧
      readAll "\n( g(7))(h)" = .ok [⟨⟨"g"⟩, [.literal ⟨7, none⟩]⟩, ⟨⟨"h"⟩, []⟩] ∧
      readAll ("(f 5x) " ++ "\n( g(7))(h)") = .ok ([⟨⟨"f"⟩, [.literal ⟨5, none⟩, .ident ⟨"x"⟩]⟩] ++
        [⟨⟨"g"⟩, [.literal ⟨7, none⟩]⟩, ⟨⟨"h"⟩, []⟩]) := by
  have hleft : readAll "(f 5x) " = .ok [⟨⟨"f"⟩, [.literal ⟨5, none⟩, .ident ⟨"x"⟩]⟩] := by
    decide +kernel
  have hright : readAll "\n( g(7))(h)"
      = .ok [⟨⟨"g"⟩, [.literal ⟨7, none⟩]⟩, ⟨⟨"h"⟩, []⟩] := by decide +kernel
  exact ⟨hleft, hright, readAll_join.2 _ _ _ _ hleft hright⟩

end App

end BitSynth
