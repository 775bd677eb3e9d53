import BitSynth.Proofs.Reader.Completion
import BitSynth.Proofs.Reader.Inversion

/-!
# What stands behind a closing parenthesis

No name and no number has a parenthesis in it, so that a reader of one never gets past a closing
one: whatever the text goes on with behind that, the reader does the same (`Sheltered`). A reader of
expressions does get past the parentheses inside of one, but what it takes in front of a closing
parenthesis it takes whatever stands behind (`firm_expr`). A form ends with its own parenthesis, so
what it takes it takes in front of anything (`takes_form_of_takes`).
-/

namespace BitSynth

open Text

namespace Reader

variable {α β : Type} {p q : Reader α} {k : α → Reader β} {cs us rest w w' : List Char} {a : α}

/-! ## Readers that do not get past a closing parenthesis -/

section Shelter

variable {c c' : Cursor}

/-- The cursors stand at the same place, and the same characters follow up to a closing
parenthesis. -/
def Mirrored (w w' : List Char) (c c' : Cursor) : Prop :=
  ∃ v, c.rest = v ++ ')' :: w ∧ c'.rest = v ++ ')' :: w' ∧ c'.offset = c.offset

/-- Both readers failed, or they made the same value and neither got past the parenthesis. -/
inductive SameOutcome (w w' : List Char) : (r r' : Option (α × Cursor)) → Prop
  | fails : SameOutcome w w' none none
  | takes (a : α) {c c' : Cursor} (hc : Mirrored w w' c c') :
      SameOutcome w w' (some (a, c)) (some (a, c'))

/-- In front of a closing parenthesis the reader does the same whatever stands behind it. -/
class Sheltered (p : Reader α) : Prop where
  same {w w' : List Char} {c c' : Cursor} (f : Option Failure) : Mirrored w w' c c' →
    ∃ r r' f', p c f = (r, f') ∧ p c' f = (r', f') ∧ SameOutcome w w' r r'

theorem Mirrored.still_iff {c₁ c₁' : Cursor} (h : Mirrored w w' c c') (h₁ : Mirrored w w' c₁ c₁') :
    c₁'.rest.length < c'.rest.length ↔ c₁.rest.length < c.rest.length := by
  obtain ⟨v, hr, hr', -⟩ := h
  obtain ⟨v₁, hr₁, hr₁', -⟩ := h₁
  simp only [hr, hr', hr₁, hr₁', List.length_append, List.length_cons]
  omega

theorem Mirrored.offset_eq (h : Mirrored w w' c c') : c'.offset = c.offset := by
  obtain ⟨v, -, -, ho⟩ := h
  exact ho

theorem Mirrored.head? (h : Mirrored w w' c c') : c'.rest.head? = c.rest.head? := by
  obtain ⟨v, hr, hr', -⟩ := h
  rw [hr, hr']
  cases v <;> rfl

theorem Mirrored.next {d : Char} (h : Mirrored w w' c c') (hd : c.rest.head? = some d)
    (hparen : d ≠ ')') : Mirrored w w' c.next c'.next := by
  obtain ⟨rest, offset⟩ := c
  obtain ⟨rest', offset'⟩ := c'
  obtain ⟨_ | ⟨e, v⟩, rfl, rfl, rfl⟩ := h
  · exact absurd (Option.some.inj hd).symm hparen
  · exact ⟨v, rfl, rfl, rfl⟩

theorem Mirrored.skip {holds : Char → Bool} (h : Mirrored w w' c c') (hparen : holds ')' = false) :
    Mirrored w w' (c.skip holds) (c'.skip holds) := by
  obtain ⟨v, hr, hr', ho⟩ := h
  have hdrop (x : List Char) : (v ++ ')' :: x).dropWhile holds = v.dropWhile holds ++ ')' :: x := by
    rw [List.dropWhile_append]
    simp +contextual [hparen]
  have htake (x : List Char) : (v ++ ')' :: x).takeWhile holds = v.takeWhile holds := by
    have hall (hl : (v.takeWhile holds).length = v.length) : v = v.takeWhile holds :=
      ((List.takeWhile_prefix holds).eq_of_length hl).symm
    rw [List.takeWhile_append]
    simpa [hparen] using hall
  refine ⟨v.dropWhile holds, ?_, ?_, ?_⟩
  · simp only [Cursor.skip, hr, hdrop]
  · simp only [Cursor.skip, hr', hdrop]
  · simp only [Cursor.skip, hr, hr', htake, ho]

namespace Sheltered

instance pure (a : α) : Sheltered (pure a : Reader α) where
  same f hc := ⟨_, _, f, rfl, rfl, .takes a hc⟩

instance bind [hp : Sheltered p] [hk : ∀ a, Sheltered (k a)] : Sheltered (p >>= k) where
  same f hc := by
    obtain ⟨r, r', f₁, h, h', hr⟩ := hp.same f hc
    cases hr with
    | fails => exact ⟨none, none, f₁, bind_of_none h, bind_of_none h', .fails⟩
    | takes a hc₁ =>
      rw [bind_of_some h, bind_of_some h']
      exact (hk a).same f₁ hc₁

instance orElse [hp : Sheltered p] [hq : Sheltered q] : Sheltered (p <|> q) where
  same f hc := by
    obtain ⟨r, r', f₁, h, h', hr⟩ := hp.same f hc
    cases hr with
    | fails =>
      rw [orElse_of_none h, orElse_of_none h']
      exact hq.same f₁ hc
    | takes a hc₁ => exact ⟨_, _, f₁, orElse_of_some h, orElse_of_some h', .takes a hc₁⟩

instance many [hp : Sheltered p] : Sheltered p.many where
  same {w w' c c'} f hc := by
    induction hl : c.rest.length using Nat.strongRecOn generalizing c c' f with
    | _ l ih =>
      obtain ⟨r, r', f₁, h, h', hr⟩ := hp.same f hc
      cases hr with
      | fails => exact ⟨_, _, f₁, many_of_none h, many_of_none h', .takes [] hc⟩
      | @takes a c₁ c₁' hc₁ =>
        have hstill := hc.still_iff hc₁
        by_cases hlt : c₁.rest.length < c.rest.length
        · obtain ⟨s, s', f₂, hm, hm', hs⟩ := ih _ (hl ▸ hlt) f₁ hc₁ rfl
          cases hs with
          | fails =>
            obtain ⟨as, c₂, f₃, hm₃⟩ := exists_many p c₁ f₁
            cases hm₃.symm.trans hm
          | takes as hc₂ =>
            exact ⟨_, _, f₂, many_of_some h hlt hm, many_of_some h' (hstill.2 hlt) hm',
              .takes (a :: as) hc₂⟩
        · exact ⟨_, _, f₁, many_of_still h hlt, many_of_still h' (mt hstill.1 hlt), .takes [] hc⟩

theorem single {holds : Char → Bool} {report : Cursor → Option Failure → Failure}
    (hparen : holds ')' = false) (hreport : Reports report) : Sheltered (single holds report) where
  same {w w' c c'} f hc := by
    have hreport' := hreport.congr f hc.offset_eq hc.head?
    unfold Reader.single
    rw [hc.head?, hreport']
    rcases hd : c.rest.head? with _ | d
    · exact ⟨_, _, _, rfl, rfl, .fails⟩
    · by_cases hholds : holds d = true
      · have hne : d ≠ ')' := by
          rintro rfl
          exact absurd hholds (Bool.eq_false_iff.1 hparen)
        simp only [hholds, if_true]
        exact ⟨_, _, _, rfl, rfl, .takes d (hc.next hd hne)⟩
      · simp only [hholds]
        exact ⟨_, _, _, rfl, rfl, .fails⟩

instance space : Sheltered space where
  same f hc := ⟨_, _, f, rfl, rfl, .takes () (hc.skip (by decide))⟩

theorem labelled {label : Nat → Failure → Failure} [hp : Sheltered p] :
    Sheltered (labelled label p) where
  same {w w' c c'} f hc := by
    obtain ⟨r, r', g, h, h', hr⟩ := hp.same none hc
    refine ⟨r, r', rejoin (g.map (label c.offset)) f, ?_, ?_, hr⟩
    · simp only [Reader.labelled, h]
    · simp only [Reader.labelled, h', hc.offset_eq]

instance map [hp : Sheltered p] {g : α → β} : Sheltered (g <$> p) :=
  bind (k := fun a => Pure.pure (g a))

instance optional [hp : Sheltered p] : Sheltered p.optional := by
  rw [optional_eq]
  infer_instance

instance apart [hp : Sheltered p] : Sheltered p.apart := by
  rw [apart_eq]
  exact labelled

instance named [hp : Sheltered p] {prod : Production} : Sheltered (p.named prod) :=
  (labelled : Sheltered (Reader.labelled (Failure.named prod) p))

theorem oneOf {chars : List Char} (h : ')' ∉ chars) : Sheltered (Reader.oneOf chars) := by
  rw [oneOf_eq]
  exact .single (decide_eq_false h) (reports_miss _)

theorem char {d : Char} (h : d ≠ ')') : Sheltered (Reader.char d) := by
  have hone : Sheltered (Reader.oneOf [d]) := .oneOf (by simpa using h.symm)
  exact bind

theorem charOf (kind : CharClass) [hkind : kind.Plain] (hparen : kind.holds ')' = false) :
    Sheltered (Reader.charOf kind) := .single hparen hkind.reports

instance : Sheltered (Reader.charOf digit) := .charOf _ (by decide)

instance : Sheltered (Reader.charOf hexDigit) := .charOf _ (by decide)

instance : Sheltered (Reader.charOf identStart) := .charOf _ (by decide)

instance : Sheltered (Reader.charOf identContinue) := .charOf _ (by decide)

instance run (kind : CharClass) [Sheltered (Reader.charOf kind)] : Sheltered (Reader.run kind) := by
  rw [run_eq]
  infer_instance

instance run1 (kind : CharClass) [Sheltered (Reader.charOf kind)] :
    Sheltered (Reader.run1 kind) := by
  unfold Reader.run1
  infer_instance

instance widthNumber : Sheltered widthNumber where
  same {w w' c c'} f hc := by
    obtain ⟨r, r', g, h, h', hr⟩ := (run1 digit).same none hc
    unfold Reader.widthNumber
    rw [h, h']
    cases hr with
    | fails => exact ⟨_, _, _, rfl, rfl, .fails⟩
    | takes ds hc₁ =>
      by_cases hlt : ofDigits 10 ds < Bits.modulus 32
      · simp only [hlt, if_true]
        exact ⟨_, _, _, rfl, rfl, .takes _ hc₁⟩
      · simp only [hlt, if_false, hc.offset_eq, hc₁.offset_eq]
        exact ⟨_, _, _, rfl, rfl, .fails⟩

instance ident : Sheltered ident := by
  unfold Reader.ident
  infer_instance

instance magnitude : Sheltered magnitude := by
  have : Sheltered (Reader.char '0') := .char (by decide)
  have : Sheltered (Reader.oneOf ['x', 'X']) := .oneOf (by decide)
  have : Sheltered (Reader.oneOf ['b', 'B']) := .oneOf (by decide)
  have : Sheltered (Reader.oneOf ['0', '1']) := .oneOf (by decide)
  unfold Reader.magnitude hexadecimal binary decimal many1
  infer_instance

instance literal : Sheltered literal := by
  have : Sheltered (Reader.char '-') := .char (by decide)
  have : Sheltered (Reader.char ':') := .char (by decide)
  unfold Reader.literal bitWidth
  infer_instance

end Sheltered

theorem Sheltered.takes [hp : Sheltered p] (h : p.Takes cs (us ++ ')' :: w) a) :
    p.Takes cs (us ++ ')' :: w') a := by
  intro offset f
  obtain ⟨f', hf⟩ := h offset f
  have hc : Mirrored w w' ⟨cs ++ (us ++ ')' :: w), offset⟩ ⟨cs ++ (us ++ ')' :: w'), offset⟩ :=
    ⟨cs ++ us, by simp, by simp, rfl⟩
  obtain ⟨r, r', f₁, h₁, h₁', hr⟩ := hp.same f hc
  obtain ⟨rfl, rfl⟩ := Prod.mk.inj (h₁.symm.trans hf)
  obtain _ | @⟨_, _, ⟨rest, n⟩, v, hv, rfl, rfl⟩ := hr
  obtain rfl : us = v := List.append_cancel_right hv
  exact ⟨f₁, h₁'⟩

theorem Sheltered.fails [hp : Sheltered p] (h : p.Fails (us ++ ')' :: w)) :
    p.Fails (us ++ ')' :: w') := by
  intro offset f
  obtain ⟨f', hf⟩ := h offset f
  have hc : Mirrored w w' ⟨us ++ ')' :: w, offset⟩ ⟨us ++ ')' :: w', offset⟩ := ⟨us, rfl, rfl, rfl⟩
  obtain ⟨r, r', f₁, h₁, h₁', hr⟩ := hp.same f hc
  obtain ⟨rfl, rfl⟩ := Prod.mk.inj (h₁.symm.trans hf)
  obtain _ | _ := hr
  exact ⟨f₁, h₁'⟩

end Shelter

/-! ## Expressions in front of a closing parenthesis -/

section Enclosed

variable {n : Nat} {e : Expr} {x : App}

/-- What the reader takes of less than `n` characters in front of a closing parenthesis, it takes
whatever stands behind that. -/
def Firm (n : Nat) (p : Reader α) : Prop := ∀ ⦃cs us w w' a⦄, cs.length < n →
  p.Takes cs (us ++ ')' :: w) a → p.Takes cs (us ++ ')' :: w') a

theorem Sheltered.firm [Sheltered p] : Firm n p := fun _ _ _ _ _ _ h => Sheltered.takes h

theorem Firm.bind [Composed p] [∀ a, Composed (k a)] (hp : Firm n p) (hk : ∀ a, Firm n (k a)) :
    Firm n (p >>= k) := by
  intro cs us w w' b hlen h
  obtain ⟨cs₁, cs₂, a, rfl, hpa, hka⟩ := h.of_bind
  rw [List.length_append] at hlen
  rw [← List.append_assoc] at hpa
  have hpa' : p.Takes cs₁ (cs₂ ++ us ++ ')' :: w') a := hp (by omega) hpa
  rw [List.append_assoc] at hpa'
  exact hpa'.bind (hk a (by omega) hka)

theorem Firm.spaced [Composed p] (hp : Firm n p) : Firm n (Reader.spaced p) :=
  Sheltered.firm.bind fun _ => hp.bind fun _ => Sheltered.firm

theorem Firm.takes_many [Composed p] (hp : Firm n p) (hclose : ∀ rest, p.Fails (')' :: rest)) :
    ∀ {as : List α} {cs : List Char}, cs.length < n → p.many.Takes cs (')' :: w) as →
      p.many.Takes cs (')' :: w') as
  | as, cs, hlen, h => by
    rcases h.of_many with ⟨rfl, rfl⟩ | ⟨us, vs, a, as, rfl, hne, rfl, ha, has⟩
    · exact (hclose w').many
    · rw [List.length_append] at hlen
      exact (hp (by omega) ha).many_cons hne (Firm.takes_many hp hclose (by omega) has)

theorem Firm.takes_application (hexpr : Firm n expr) (hlen : cs.length < n)
    (h : (application expr).Takes cs (')' :: w) x) : (application expr).Takes cs (')' :: w') x := by
  obtain ⟨us, vs, op, rfl, hop, h⟩ := h.of_bind
  obtain ⟨args, hargs, rfl⟩ := h.of_bind_pure
  rw [List.length_append] at hlen
  have hclose (rest : List Char) : (Reader.spaced expr).Fails (')' :: rest) :=
    opens_expr.spaced (closing_paren rest)
  have hident : Firm n (Reader.spaced ident) := Sheltered.firm.spaced
  exact (hident (by omega) hop).bind
    ((hexpr.spaced.takes_many hclose (by omega) hargs).bind_pure (App.mk op))

theorem Firm.takes_content (hexpr : Firm n expr) (hlen : cs.length < n)
    (h : (content expr).Takes cs (')' :: w) e) : (content expr).Takes cs (')' :: w') e := by
  rcases takes_content_iff.1 h with ⟨l, hl, rfl⟩ | ⟨x, hx, rfl⟩
  · have hnumber : Firm n (Reader.spaced literal) := Sheltered.firm.spaced
    have hl : (Reader.spaced literal).Takes cs ([] ++ ')' :: w) l := hl
    exact takes_content_iff.2 (.inl ⟨l, hnumber hlen hl, rfl⟩)
  · exact takes_content_iff.2 (.inr ⟨x, hexpr.takes_application hlen hx, rfl⟩)

/-- The induction is on the length of what is taken: what stands between its parentheses is two
characters shorter. -/
theorem firm_expr (n : Nat) : Firm n expr := by
  induction n with
  | zero => exact fun cs _ _ _ _ hlen => absurd hlen (Nat.not_lt_zero _)
  | succ n ih =>
    intro cs us w w' e hlen h
    rw [expr_eq, takes_expression_iff] at h ⊢
    rcases h with ⟨ds, rfl, hds⟩ | ⟨l, hl, rfl⟩ | ⟨x, hfails, hx, rfl⟩
    · simp only [List.length_cons, List.length_append, List.length_nil] at hlen
      exact .inl ⟨ds, rfl, ih.takes_content (by omega) hds⟩
    · exact .inr (.inl ⟨l, Sheltered.takes hl, rfl⟩)
    · rw [← List.append_assoc] at hfails
      have hfails' : literal.Fails (cs ++ us ++ ')' :: w') := Sheltered.fails hfails
      rw [List.append_assoc] at hfails'
      exact .inr (.inr ⟨x, hfails', Sheltered.takes hx, rfl⟩)

/-- A form is taken in front of anything. -/
theorem takes_form_of_takes {rest' : List Char} (h : form.Takes cs rest x) :
    form.Takes cs rest' x := by
  obtain ⟨ds, rfl, hds⟩ := takes_form_iff.1 h
  exact takes_form_iff.2 ⟨ds, rfl, (firm_expr _).takes_application (Nat.lt_succ_self _) hds⟩

end Enclosed

end Reader

end BitSynth
