import BitSynth.Proofs.Reader.Lookahead

/-!
# What was found

A pending failure describes the text it stands in (`Composed.truthful`). Either something else was
expected at its place, and it spans the next character and tells it; or a width begins there that is
out of range, and it spans the digits of that. No reader gets behind the colon of such a width, so
nothing is ever expected at its digits and no place has failures of both kinds.
-/

namespace BitSynth

open Text

namespace Reader

variable {α β : Type} {p q : Reader α} {k : α → Reader β} {t : List Char} {c c' : Cursor}

/-- The cursor stands in the text, behind characters whose widths are in range. -/
def OnText (t : List Char) (c : Cursor) : Prop :=
  ∃ u, (Cursor.mk t 0).Between u c ∧ WidthsFit u c.rest

/-- Something else was expected at a place in the text. -/
def Missed (t : List Char) (g : Failure) : Prop :=
  ∃ c items, OnText t c ∧ g = Failure.expected c items

/-- The digits behind a colon in the text are out of range. -/
def OutOfRange (t : List Char) (g : Failure) : Prop :=
  ∃ c c', OnText t c ∧ c.Between [':'] c' ∧
    ¬ ofDigits 10 (c'.rest.takeWhile Char.isDigit) < Bits.modulus 32 ∧
    g = ⟨c'.offset, c'.offset + byteSize (c'.rest.takeWhile Char.isDigit),
      .widthOutOfRange (String.ofList (c'.rest.takeWhile Char.isDigit))⟩

/-- The pending failure describes the text. -/
def Honest (t : List Char) (f : Option Failure) : Prop := ∀ g ∈ f, Missed t g ∨ OutOfRange t g

theorem onText_start (t : List Char) : OnText t ⟨t, 0⟩ := by
  refine ⟨[], Cursor.between_self _, fun x y h => ?_⟩
  cases x <;> cases h

theorem honest_none (t : List Char) : Honest t none := by
  rintro g ⟨⟩

theorem WidthsFit.append {u cs rest : List Char} (h : WidthsFit u (cs ++ rest)) (hcs : ':' ∉ cs) :
    WidthsFit (u ++ cs) rest := by
  intro x y heq
  rcases List.append_eq_append_iff.1 heq with ⟨as, rfl, has⟩ | ⟨bs, rfl, hbs⟩
  · exact absurd (has ▸ List.mem_append_right as (List.mem_cons_self ..)) hcs
  · cases bs with
    | nil =>
      obtain rfl : ':' :: y = cs := hbs
      exact absurd (List.mem_cons_self ..) hcs
    | cons b bs =>
      obtain ⟨rfl, hy⟩ := List.cons_eq_cons.1 hbs
      obtain rfl : y = bs ++ cs := hy
      rw [List.append_assoc]
      exact h x bs rfl

theorem OnText.between {cs : List Char} (h : OnText t c) (hb : c.Between cs c') (hcs : ':' ∉ cs) :
    OnText t c' := by
  obtain ⟨u, hu, hfit⟩ := h
  exact ⟨u ++ cs, hu.trans hb, WidthsFit.append (hb.rest ▸ hfit) hcs⟩

/-- A cursor gets behind the colon of a width if the width is in range. -/
theorem OnText.colon (h : OnText t c) (hb : c.Between [':'] c')
    (hlt : ofDigits 10 (c'.rest.takeWhile Char.isDigit) < Bits.modulus 32) : OnText t c' := by
  obtain ⟨u, hu, hfit⟩ := h
  refine ⟨u ++ [':'], hu.trans hb, fun x y heq => ?_⟩
  obtain rfl | ⟨y, e, rfl⟩ := List.eq_nil_or_concat y
  · exact hlt
  · rw [List.concat_eq_append, ← List.cons_append, ← List.append_assoc] at heq
    obtain ⟨rfl, he⟩ := List.append_inj' heq rfl
    obtain rfl := List.singleton_inj.1 he
    have hdigits := hfit x y rfl
    rwa [hb.rest, ← List.append_assoc, ← List.concat_eq_append] at hdigits

/-- One place in a text is reached by one stretch of it. -/
theorem eq_of_offset_eq {u u' : List Char} (h : (Cursor.mk t 0).Between u c)
    (h' : (Cursor.mk t 0).Between u' c') (ho : c.offset = c'.offset) : u = u' ∧ c = c' := by
  obtain rfl : u = u' := by
    refine eq_of_append_eq (h.rest.symm.trans h'.rest) ?_
    have := h.offset
    have := h'.offset
    omega
  exact ⟨rfl, h.unique h'⟩

theorem OutOfRange.start_ne {g : Failure} (h : OutOfRange t g) (hc : OnText t c) :
    g.start ≠ c.offset := by
  obtain ⟨c₀, c₁, ⟨v, hv, -⟩, hcolon, hlt, rfl⟩ := h
  obtain ⟨u, hu, hfit⟩ := hc
  intro ho
  obtain ⟨rfl, rfl⟩ := eq_of_offset_eq (hv.trans hcolon) hu ho
  exact hlt (hfit v [] rfl)

theorem OnText.missed (h : OnText t c) (items : List Expectation) :
    Missed t (Failure.expected c items) := ⟨c, items, h, rfl⟩

/-- What is added to a failure at the place of a cursor is expected there. -/
theorem Honest.add {f : Option Failure} {g : Failure} (hf : Honest t f) (hc : OnText t c)
    (hg : g ∈ f) (ho : g.start = c.offset) (items : List Expectation) :
    Missed t { g with reason := g.reason.add items } := by
  rcases hf g hg with ⟨c', items', hc', rfl⟩ | hwidth
  · exact hc'.missed (Reason.union items' items)
  · exact absurd ho (hwidth.start_ne hc)

theorem Honest.miss {f : Option Failure} (hf : Honest t f) (hc : OnText t c)
    (items : List Expectation) : Honest t (some (Failure.miss c items f)) := by
  rintro _ ⟨⟩
  exact Failure.of_miss (P := fun g => Missed t g ∨ OutOfRange t g) (.inl (hc.missed items)) hf
    fun g hg ho => .inl (hf.add hc hg ho items)

theorem Honest.merge {f : Option Failure} {new : Failure} (hnew : Missed t new ∨ OutOfRange t new)
    (hf : Honest t f) : Honest t (some (Failure.merge new f)) := by
  rintro _ ⟨⟩
  refine Failure.of_merge (P := fun g => Missed t g ∨ OutOfRange t g) hnew hf fun g hg ho => ?_
  rcases hf g hg with ⟨c, items, hc, rfl⟩ | hwidth
  · rcases hnew with ⟨c', items', hc', rfl⟩ | hwidth'
    · exact .inl (hc.missed _)
    · exact absurd ho.symm (hwidth'.start_ne hc)
  · obtain ⟨c, c', hc, hcolon, hlt, rfl⟩ := hwidth
    exact .inr ⟨c, c', hc, hcolon, hlt, rfl⟩

theorem OnText.honest_report {report : Cursor → Option Failure → Failure} (hreport : Reports report)
    {f : Option Failure} (h : OnText t c) (hf : Honest t f) : Honest t (some (report c f)) := by
  obtain ⟨items, hmiss | hmerge⟩ := hreport.joins c f
  · exact hmiss ▸ hf.miss h items
  · exact hmerge ▸ hf.merge (.inl (h.missed items))

theorem Honest.rejoin {f g : Option Failure} (hg : Honest t g) (hf : Honest t f) :
    Honest t (rejoin g f) := by
  cases g with
  | none => exact hf
  | some new => exact hf.merge (hg new rfl)

theorem Honest.label {label : Nat → Failure → Failure} (hlabel : Labels label) {g : Option Failure}
    (hc : OnText t c) (hg : Honest t g) : Honest t (g.map (label c.offset)) := by
  intro new hnew
  obtain ⟨old, hold, rfl⟩ := Option.map_eq_some_iff.1 hnew
  rcases hlabel.names c.offset old with hsame | ⟨ho, items, hnamed⟩
  · rw [hsame]
    exact hg old hold
  · rcases hg old hold with ⟨c', items', hc', rfl⟩ | hwidth
    · rw [hnamed]
      exact .inl (hc'.missed items)
    · exact absurd ho (hwidth.start_ne hc)

theorem honest_single {holds : Char → Bool} {report : Cursor → Option Failure → Failure}
    (hreport : Reports report) {f f' : Option Failure} {r : Option (Char × Cursor)}
    (h : single holds report c f = (r, f')) (hc : OnText t c) (hf : Honest t f) : Honest t f' := by
  rcases cases_single h with ⟨d, -, -, -, rfl⟩ | ⟨-, -, rfl⟩
  · exact hf
  · exact hc.honest_report hreport hf

theorem honest_char {d : Char} {f f' : Option Failure} {r : Option (Unit × Cursor)}
    (h : char d c f = (r, f')) (hc : OnText t c) (hf : Honest t f) : Honest t f' := by
  unfold char at h
  rw [oneOf_eq] at h
  rcases cases_bind h with ⟨hmiss, -⟩ | ⟨e, c₁, f₁, htaken, hpure⟩
  · exact honest_single (reports_miss _) hmiss hc hf
  · obtain ⟨-, rfl⟩ := Prod.mk.inj hpure
    exact honest_single (reports_miss _) htaken hc hf

structure Truthful (t : List Char) (p : Reader α) : Prop where
  stays {c c' : Cursor} {f f' : Option Failure} {a : α} :
    p c f = (some (a, c'), f') → OnText t c → OnText t c'
  honest {c : Cursor} {f f' : Option Failure} {r : Option (α × Cursor)} :
    p c f = (r, f') → OnText t c → Honest t f → Honest t f'

namespace Truthful

protected theorem pure (a : α) : Truthful t (pure a : Reader α) where
  stays h hc := by
    cases h
    exact hc
  honest h _ hf := by
    cases h
    exact hf

protected theorem bind (hp : Truthful t p) (hk : ∀ a, Truthful t (k a)) :
    Truthful t (p >>= k) where
  stays h hc := by
    rcases cases_bind h with ⟨-, hr⟩ | ⟨a, c₁, f₁, hpa, hka⟩
    · cases hr
    · exact (hk a).stays hka (hp.stays hpa hc)
  honest h hc hf := by
    rcases cases_bind h with ⟨hpf, -⟩ | ⟨a, c₁, f₁, hpa, hka⟩
    · exact hp.honest hpf hc hf
    · exact (hk a).honest hka (hp.stays hpa hc) (hp.honest hpa hc hf)

protected theorem orElse (hp : Truthful t p) (hq : Truthful t q) : Truthful t (p <|> q) where
  stays h hc := by
    rcases cases_orElse h with ⟨x, hpx, hr⟩ | ⟨f₁, -, hqx⟩
    · exact hp.stays (hpx.trans (by rw [← hr])) hc
    · exact hq.stays hqx hc
  honest h hc hf := by
    rcases cases_orElse h with ⟨x, hpx, -⟩ | ⟨f₁, hpf, hq'⟩
    · exact hp.honest hpx hc hf
    · exact hq.honest hq' hc (hp.honest hpf hc hf)

protected theorem many (hp : Truthful t p) : Truthful t p.many where
  stays {c c' f f' as} h hc := by
    induction hl : c.rest.length using Nat.strongRecOn generalizing c f as with
    | _ l ih =>
      rcases cases_many h with ⟨-, hr⟩ | ⟨a, c₁, -, -, hr⟩ | ⟨a, c₁, f₁, bs, c₂, hpa, hlt, hm, hr⟩
      · obtain ⟨⟨rfl, rfl⟩⟩ := hr
        exact hc
      · obtain ⟨⟨rfl, rfl⟩⟩ := hr
        exact hc
      · obtain ⟨⟨rfl, rfl⟩⟩ := hr
        exact ih _ (hl ▸ hlt) hm (hp.stays hpa hc) rfl
  honest {c f f' r} h hc hf := by
    induction hl : c.rest.length using Nat.strongRecOn generalizing c f r with
    | _ l ih =>
      rcases cases_many h with ⟨hpf, -⟩ | ⟨a, c₁, hpa, -, -⟩ | ⟨a, c₁, f₁, bs, c₂, hpa, hlt, hm, -⟩
      · exact hp.honest hpf hc hf
      · exact hp.honest hpa hc hf
      · exact ih _ (hl ▸ hlt) hm (hp.stays hpa hc) (hp.honest hpa hc hf) rfl

protected theorem single {holds : Char → Bool} {report : Cursor → Option Failure → Failure}
    (hcolon : holds ':' = false) (hreport : Reports report) : Truthful t (single holds report) where
  stays {c c' f f' d} h hc := by
    rcases cases_single h with ⟨d, hd, hholds, hr, -⟩ | ⟨-, hr, -⟩
    · obtain ⟨⟨rfl, rfl⟩⟩ := hr
      refine hc.between (Cursor.between_next hd) fun hmem => ?_
      rw [← List.mem_singleton.1 hmem, hcolon] at hholds
      cases hholds
    · cases hr
  honest h hc hf := honest_single hreport h hc hf

protected theorem space : Truthful t space where
  stays {c c' f f' u} h hc := by
    obtain ⟨⟨⟨-, rfl⟩⟩, -⟩ := Prod.mk.inj h
    exact hc.between (c.between_skip _) fun hmem => absurd (blank_takeWhile _ _ hmem) (by decide)
  honest h _ hf := by
    obtain ⟨-, rfl⟩ := Prod.mk.inj h
    exact hf

protected theorem labelled {label : Nat → Failure → Failure} (hlabel : Labels label)
    (hp : Truthful t p) : Truthful t (labelled label p) where
  stays h hc := by
    obtain ⟨g, hpa, -⟩ := cases_labelled h
    exact hp.stays hpa hc
  honest h hc hf := by
    obtain ⟨g, hp', rfl⟩ := cases_labelled h
    exact ((hp.honest hp' hc (honest_none t)).label hlabel hc).rejoin hf

theorem run1 (k : CharClass) [hk : k.Plain] : Truthful t (run1 k) := by
  have hcharOf : Truthful t (charOf k) := .single hk.colon hk.reports
  unfold Reader.run1
  rw [run_eq]
  exact hcharOf.bind fun d => hcharOf.many.bind fun _ => .pure _

theorem deepening {q : Nat → Reader α} (hq : ∀ m, Truthful t (q m)) (h : ∀ m, Agree m p (q m)) :
    Truthful t p where
  stays {c c' f f' a} hpa hc := by
    rw [h _ c f (Nat.lt_succ_self _)] at hpa
    exact (hq _).stays hpa hc
  honest {c f f' r} hp hc hf := by
    rw [h _ c f (Nat.lt_succ_self _)] at hp
    exact (hq _).honest hp hc hf

end Truthful

theorem takeWhile_of_run1 {k : CharClass} {f f' : Option Failure} (h : run1 k c f = (none, f')) :
    c.rest.takeWhile k.holds = [] := by
  rcases cases_bind h with ⟨hd, -⟩ | ⟨d, c₁, f₁, -, hrun⟩
  · rw [charOf_eq] at hd
    rcases cases_single hd with ⟨d, -, -, hr, -⟩ | ⟨hmiss, -, -⟩
    · cases hr
    · cases hrest : c.rest with
      | nil => rfl
      | cons d ds => rw [List.takeWhile_cons, hmiss d (by rw [hrest]; rfl)]; rfl
  · cases hrun

theorem truthful_width : Truthful t (do char ':'; widthNumber) where
  stays {c c' f f' m} h hc := by
    rcases cases_bind h with ⟨-, hr⟩ | ⟨⟨⟩, c₁, f₁, hcolon, hnumber⟩
    · cases hr
    · obtain ⟨_, hb, rfl⟩ := follows_char ':' c f _ c₁ f₁ hcolon
      rcases cases_widthNumber hnumber with
        ⟨g, -, hr, -⟩ | ⟨ds, c₂, g, hrun, ⟨hlt, hr, -⟩ | ⟨-, hr, -⟩⟩
      · cases hr
      · obtain ⟨⟨rfl, rfl⟩⟩ := hr
        exact (Truthful.run1 digit).stays hrun
          (hc.colon hb (eq_takeWhile_of_run1 hrun ▸ hlt))
      · cases hr
  honest {c f f' r} h hc hf := by
    rcases cases_bind h with ⟨hmiss, -⟩ | ⟨⟨⟩, c₁, f₁, hcolon, hnumber⟩
    · exact honest_char hmiss hc hf
    · obtain ⟨_, hb, rfl⟩ := follows_char ':' c f _ c₁ f₁ hcolon
      have hf₁ := honest_char hcolon hc hf
      rcases cases_widthNumber hnumber with
        ⟨g, hrun, -, rfl⟩ | ⟨ds, c₂, g, hrun, ⟨hlt, -, rfl⟩ | ⟨hlt, -, rfl⟩⟩
      · have hc₁ : OnText t c₁ := hc.colon hb (by
          rw [show c₁.rest.takeWhile Char.isDigit = [] from takeWhile_of_run1 hrun]
          decide)
        exact ((Truthful.run1 digit).honest hrun hc₁ (honest_none t)).rejoin hf₁
      · have hc₁ : OnText t c₁ := hc.colon hb (eq_takeWhile_of_run1 hrun ▸ hlt)
        exact ((Truthful.run1 digit).honest hrun hc₁ (honest_none t)).rejoin hf₁
      · obtain rfl := eq_takeWhile_of_run1 hrun
        obtain ⟨_, hdigits, rfl, -⟩ := follows_run1 digit c₁ none _ c₂ g hrun
        exact hf₁.merge (.inr ⟨c, c₁, hc, hb, hlt, by rw [hdigits.offset]; rfl⟩)

theorem Composed.truthful (hp : Composed p) : Truthful t p := by
  induction hp with
  | pure a => exact .pure a
  | bind _ _ ihp ihk => exact ihp.bind ihk
  | orElse _ _ ihp ihq => exact ihp.orElse ihq
  | many _ ih => exact ih.many
  | single hcolon hreport => exact .single hcolon hreport
  | space => exact .space
  | width => exact truthful_width
  | labelled hlabel _ ih => exact ih.labelled hlabel
  | deepening q _ h ih => exact .deepening ih h

end Reader

end BitSynth
