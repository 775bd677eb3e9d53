import BitSynth.Proofs.Reader.Regular

/-!
# What was taken, part by part

What a composed reader takes, its parts take one after the other: the lemmas of the combinators hold
the other way round. So there is one statement for each construct of the grammar that says just what
is taken for it (`takes_content_iff`, `takes_expression_iff`, `takes_form_iff`). Applications are
read in two places, at the top level and inside of expressions, and both readers take the same
(`takes_toExpr_iff`).
-/

namespace BitSynth

open Text

theorem App.toExpr_injective : Function.Injective App.toExpr := by
  rintro ⟨op, args⟩ ⟨op', args'⟩ h
  obtain ⟨rfl, rfl⟩ := Expr.app.inj h
  rfl

namespace Reader

variable {α β : Type} {p q : Reader α} {k : α → Reader β} {cs rest : List Char} {a : α} {b : β}

/-! ## Combinators -/

theorem Takes.follows {R : List Char → α → Prop} (h : p.Takes cs rest a) (hp : p.Follows R) :
    R cs a := by
  obtain ⟨f, hf⟩ := h 0 none
  obtain ⟨ds, hb, hds⟩ := hp _ _ _ _ _ hf
  obtain rfl : cs = ds := List.append_cancel_right hb.rest
  exact hds

theorem Regular.takes_of_eq (hp : Regular p) {n n' : Nat} {f f' : Option Failure}
    (h : p ⟨cs ++ rest, n⟩ f = (some (a, ⟨rest, n'⟩), f')) : p.Takes cs rest a := by
  obtain ⟨ds, hds, htakes⟩ := hp.takes h
  obtain rfl : cs = ds := List.append_cancel_right hds.rest
  exact htakes

theorem Takes.of_pure {a' : α} (h : (pure a : Reader α).Takes cs rest a') : cs = [] ∧ a' = a :=
  h.follows (R := fun cs a' => cs = [] ∧ a' = a) (follows_pure ⟨rfl, rfl⟩)

theorem Takes.of_bind [hp : Composed p] [hk : ∀ a, Composed (k a)]
    (h : (p >>= k).Takes cs rest b) : ∃ us vs a, cs = us ++ vs ∧ p.Takes us (vs ++ rest) a ∧
      (k a).Takes vs rest b := by
  obtain ⟨f, hf⟩ := h 0 none
  rcases cases_bind hf with ⟨-, hr⟩ | ⟨a, c, f₁, hpa, hka⟩
  · cases hr
  · obtain ⟨us, hus, htakes⟩ := hp.regular.takes hpa
    obtain ⟨vs, hvs, htakes'⟩ := (hk a).regular.takes hka
    rw [hvs.rest] at htakes
    obtain rfl : cs = us ++ vs := List.append_cancel_right (hus.trans hvs).rest
    exact ⟨us, vs, a, rfl, htakes, htakes'⟩

theorem Takes.of_bind_pure [Composed p] {g : α → β}
    (h : (p >>= fun a => pure (g a)).Takes cs rest b) : ∃ a, p.Takes cs rest a ∧ g a = b := by
  obtain ⟨us, vs, a, rfl, htakes, hpure⟩ := h.of_bind
  obtain ⟨rfl, rfl⟩ := hpure.of_pure
  rw [List.append_nil]
  exact ⟨a, htakes, rfl⟩

theorem Takes.of_map [Composed p] {g : α → β} (h : (g <$> p).Takes cs rest b) :
    ∃ a, p.Takes cs rest a ∧ g a = b := Takes.of_bind_pure (p := p) h

theorem Fails.of_map {g : α → β} (h : (g <$> p).Fails rest) : p.Fails rest := by
  intro offset f
  obtain ⟨f', hf⟩ := h offset f
  rcases cases_bind hf with ⟨hpf, -⟩ | ⟨a, c, f₁, -, hpure⟩
  · exact ⟨f', hpf⟩
  · cases hpure

theorem Takes.of_orElse [hp : Composed p] [hq : Composed q] (h : (p <|> q).Takes cs rest a) :
    p.Takes cs rest a ∨ p.Fails (cs ++ rest) ∧ q.Takes cs rest a := by
  obtain ⟨f, hf⟩ := h 0 none
  rcases cases_orElse hf with ⟨x, hpx, hr⟩ | ⟨f₁, hpf, hqa⟩
  · obtain rfl := Option.some.inj hr
    exact .inl (hp.regular.takes_of_eq hpx)
  · exact .inr ⟨hp.regular.fails hpf, hq.regular.takes_of_eq hqa⟩

theorem Takes.of_named [hp : Composed p] {prod : Production} (h : (p.named prod).Takes cs rest a) :
    p.Takes cs rest a := by
  obtain ⟨f, hf⟩ := h 0 none
  obtain ⟨g, hpa, -⟩ := cases_labelled hf
  exact hp.regular.takes_of_eq hpa

theorem Takes.of_many [hp : Composed p] {as : List α} (h : p.many.Takes cs rest as) :
    (cs = [] ∧ as = []) ∨ ∃ us vs a as', cs = us ++ vs ∧ us ≠ [] ∧ as = a :: as' ∧
      p.Takes us (vs ++ rest) a ∧ p.many.Takes vs rest as' := by
  obtain ⟨f, hf⟩ := h 0 none
  have hnil (hr : some (as, (⟨rest, 0 + byteSize cs⟩ : Cursor)) = some ([], ⟨cs ++ rest, 0⟩)) :
      cs = [] ∧ as = [] := by
    obtain ⟨rfl, hc⟩ := Prod.mk.inj (Option.some.inj hr)
    obtain ⟨-, hsize⟩ := Cursor.mk.inj hc
    exact ⟨eq_nil_of_byteSize (by omega), rfl⟩
  rcases cases_many hf with ⟨-, hr⟩ | ⟨_, _, -, -, hr⟩ | ⟨a, c, f₁, as', c', hpa, hlt, hmany, hr⟩
  · exact .inl (hnil hr)
  · exact .inl (hnil hr)
  · obtain ⟨rfl, rfl⟩ := Prod.mk.inj (Option.some.inj hr)
    obtain ⟨us, hus, htakes⟩ := hp.regular.takes hpa
    obtain ⟨vs, hvs, htakes'⟩ := hp.regular.many.takes hmany
    rw [hvs.rest] at htakes
    obtain rfl : cs = us ++ vs := List.append_cancel_right (hus.trans hvs).rest
    refine .inr ⟨us, vs, a, as', rfl, ?_, rfl, htakes, htakes'⟩
    rintro rfl
    exact absurd hlt (by rw [hus.rest]; exact Nat.lt_irrefl _)

theorem takes_enclosed_iff [Composed p] : (enclosed p).Takes cs rest a ↔
    ∃ ds, cs = '(' :: (ds ++ [')']) ∧ p.Takes ds (')' :: rest) a := by
  constructor
  · intro h
    obtain ⟨us, vs, _, rfl, hopen, h⟩ := h.of_bind
    obtain ⟨ds, vs, a, rfl, hp, h⟩ := h.of_bind
    obtain ⟨_, hclose, rfl⟩ := h.of_bind_pure
    obtain rfl := hopen.follows (follows_char '(')
    obtain rfl := hclose.follows (follows_char ')')
    exact ⟨ds, rfl, hp⟩
  · rintro ⟨ds, rfl, hp⟩
    exact hp.enclosed

/-! ## Expressions and forms -/

section Expressions

variable {arg : Reader Expr} {e : Expr} {x : App}

/-- A number or a name does not begin with a parenthesis. -/
theorem fails_parenthesized_of_spells (h : (∃ l, SpellsLiteral cs l) ∨ Ident.isSpelling cs = true) :
    (parenthesized arg).Fails (cs ++ rest) := by
  rcases h with hl | hx
  · obtain ⟨c, ds, rfl, -, hparen⟩ := SpellsLiteral.head hl
    exact fails_parenthesized hparen (ds ++ rest)
  · obtain ⟨c, ds, rfl, hc⟩ := exists_cons_of_isSpelling hx
    refine fails_parenthesized ?_ (ds ++ rest)
    rintro rfl
    cases hc

variable [Composed arg]

/-- Where a name with arguments can be read, no number can. -/
theorem fails_literal_of_application (h : (application arg).Takes cs rest x) :
    (spaced literal).Fails (cs ++ rest) := by
  obtain ⟨us, vs, op, rfl, hop, -⟩ := h.of_bind
  have hspelled : (spaced ident).Follows fun cs _ => ∃ ws xs zs, cs = ws ++ (xs ++ zs) ∧
      Blank ws ∧ Ident.isSpelling xs = true :=
    follows_ident.spaced fun ws xs zs _ hws hxs _ => ⟨ws, xs, zs, rfl, hws, hxs.1⟩
  obtain ⟨ws, xs, zs, rfl, hws, hxs⟩ := hop.follows hspelled
  have hspace : NoSpace (xs ++ (zs ++ (vs ++ rest))) := Spells.noSpace (.ident hxs) _
  obtain ⟨c, xs, rfl, hc⟩ := exists_cons_of_isSpelling hxs
  have hfails := Fails.spaced hws hspace (fails_literal_of_isStart hc (xs ++ (zs ++ (vs ++ rest))))
  simpa only [List.append_assoc] using hfails

theorem takes_content_iff : (content arg).Takes cs rest e ↔
    (∃ l, (spaced literal).Takes cs rest l ∧ e = .literal l) ∨
      ∃ x, (application arg).Takes cs rest x ∧ e = x.toExpr := by
  constructor
  · intro h
    rcases h.of_orElse with h | ⟨-, h⟩
    · obtain ⟨l, hl, rfl⟩ := h.of_map
      exact .inl ⟨l, hl, rfl⟩
    · obtain ⟨x, hx, rfl⟩ := h.of_map
      exact .inr ⟨x, hx, rfl⟩
  · rintro (⟨l, hl, rfl⟩ | ⟨x, hx, rfl⟩)
    · exact Takes.orElse (hl.map Expr.literal)
    · exact ((fails_literal_of_application hx).map Expr.literal).orElse_takes (hx.map App.toExpr)

theorem takes_expression_iff : (expression arg).Takes cs rest e ↔
    (∃ ds, cs = '(' :: (ds ++ [')']) ∧ (content arg).Takes ds (')' :: rest) e) ∨
      (∃ l, literal.Takes cs rest l ∧ e = .literal l) ∨
        ∃ x, literal.Fails (cs ++ rest) ∧ ident.Takes cs rest x ∧ e = .ident x := by
  constructor
  · intro h
    rcases h.of_named.of_orElse with h | ⟨-, h⟩
    · rw [parenthesized_eq] at h
      exact .inl (takes_enclosed_iff.1 h.of_named)
    · rcases h.of_orElse with h | ⟨hfails, h⟩
      · obtain ⟨l, hl, rfl⟩ := h.of_map
        exact .inr (.inl ⟨l, hl, rfl⟩)
      · obtain ⟨x, hx, rfl⟩ := h.of_map
        exact .inr (.inr ⟨x, hfails.of_map, hx, rfl⟩)
  · rintro (⟨ds, rfl, hds⟩ | ⟨l, hl, rfl⟩ | ⟨x, hfails, hx, rfl⟩)
    · exact Takes.named (Takes.orElse (Takes.named hds.enclosed))
    · have hparen : (parenthesized arg).Fails (cs ++ rest) :=
        fails_parenthesized_of_spells (.inl ⟨l, hl.follows follows_literal⟩)
      exact Takes.named (hparen.orElse_takes (hl.map Expr.literal).orElse)
    · have hparen : (parenthesized arg).Fails (cs ++ rest) :=
        fails_parenthesized_of_spells (.inr (hx.follows follows_ident).1)
      exact Takes.named (hparen.orElse_takes
        ((hfails.map Expr.literal).orElse_takes (hx.map Expr.ident)))

theorem takes_form_iff : form.Takes cs rest x ↔
    ∃ ds, cs = '(' :: (ds ++ [')']) ∧ (application expr).Takes ds (')' :: rest) x := by
  rw [form_eq, ← takes_enclosed_iff]
  exact ⟨Takes.of_named, Takes.named⟩

/-- The expression reader takes an application exactly where the reader of forms does. -/
theorem takes_toExpr_iff : expr.Takes cs rest x.toExpr ↔ form.Takes cs rest x := by
  rw [expr_eq, takes_expression_iff, takes_form_iff]
  constructor
  · rintro (⟨ds, rfl, hds⟩ | ⟨l, -, hl⟩ | ⟨y, -, -, hy⟩)
    · rcases takes_content_iff.1 hds with ⟨l, -, hl⟩ | ⟨y, hy, hxy⟩
      · cases hl
      · obtain rfl := App.toExpr_injective hxy
        exact ⟨ds, rfl, hy⟩
    · cases hl
    · cases hy
  · rintro ⟨ds, rfl, hx⟩
    exact .inl ⟨ds, rfl, takes_content_iff.2 (.inr ⟨x, hx, rfl⟩)⟩

end Expressions

end Reader

end BitSynth
