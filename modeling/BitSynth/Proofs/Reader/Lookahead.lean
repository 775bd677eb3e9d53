import BitSynth.Proofs.Reader.Regular

/-!
# How far a reader looks

As long as the pending failure lies before some place, a reader has looked at no character behind
it: on every text that goes on differently there it does the same (`Composed.blind`). Two exceptions
stand in the statement. White space is skipped in silence, so that what ends it must not be space.
And a width out of range is a failure at its first digit, however many digits were read: so all
widths before that place have to fit.
-/

namespace BitSynth

open Text

namespace Reader

/-! ## Widths that fit -/

/-- The widths in the first characters are in range, read to the end of their digits. -/
def WidthsFit (u w : List Char) : Prop :=
  ∀ x y, u = x ++ ':' :: y → ofDigits 10 ((y ++ w).takeWhile Char.isDigit) < Bits.modulus 32

/-- The widths that begin before the last of the first characters are in range. -/
def WidthsFitBefore (v w : List Char) : Prop := ∀ u c, v = u ++ [c] → WidthsFit u (c :: w)

section WidthsFit

variable {u v w us vs : List Char}

theorem WidthsFit.suffix (h : WidthsFit (us ++ vs) w) : WidthsFit vs w := fun x y hvs =>
  h (us ++ x) y (by rw [hvs, List.append_assoc])

theorem WidthsFit.shorten (h : WidthsFit (us ++ vs) w) : WidthsFit us (vs ++ w) := fun x y hus => by
  rw [← List.append_assoc]
  exact h x (y ++ vs) (by rw [hus, List.append_assoc, List.cons_append])

theorem WidthsFit.before (h : WidthsFit v w) : WidthsFitBefore v w := by
  rintro u c rfl
  exact h.shorten

theorem WidthsFit.snoc {c : Char} (h : WidthsFit u (c :: w)) : WidthsFitBefore (u ++ [c]) w := by
  intro u' c' heq
  obtain ⟨rfl, hc⟩ := List.append_inj' heq rfl
  obtain rfl := List.singleton_inj.1 hc
  exact h

theorem WidthsFitBefore.suffix (h : WidthsFitBefore (us ++ vs) w) : WidthsFitBefore vs w :=
  fun u c hvs => (h (us ++ u) c (by rw [hvs, List.append_assoc])).suffix

end WidthsFit

/-! ## Cursors before different ends of a text -/

theorem exists_append_of_between {c c₁ : Cursor} {cs v w : List Char} (hr : c.rest = v ++ w)
    (hb : c.Between cs c₁) (hle : c₁.offset ≤ c.offset + byteSize v) :
    ∃ us, v = cs ++ us ∧ c₁.rest = us ++ w := by
  rcases List.append_eq_append_iff.1 (hb.rest.symm.trans hr) with ⟨us, hv, hus⟩ | ⟨us, rfl, hw⟩
  · exact ⟨us, hv, hus⟩
  · have hsize := hb.offset
    rw [byteSize_append] at hsize
    obtain rfl : us = [] := eq_nil_of_byteSize (by omega)
    exact ⟨[], by simp, hw.symm⟩

section Alike

variable {w w' : List Char} {n : Nat} {c c' c₁ c₁' : Cursor} {cs : List Char}

/-- The cursors stand at the same place, and the same characters follow up to `n`, where one text
ends in `w` and the other in `w'`. -/
def Alike (w w' : List Char) (n : Nat) (c c' : Cursor) : Prop :=
  ∃ v, c.rest = v ++ w ∧ c'.rest = v ++ w' ∧ c'.offset = c.offset ∧ c.offset + byteSize v = n ∧
    WidthsFitBefore v w

namespace Alike

theorem offset_eq (h : Alike w w' n c c') : c'.offset = c.offset := by
  obtain ⟨v, -, -, ho, -⟩ := h
  exact ho

theorem head? (h : Alike w w' n c c') (hc : c.offset < n) : c'.rest.head? = c.rest.head? := by
  obtain ⟨_ | ⟨d, v⟩, hr, hr', -, hn, -⟩ := h
  · simp only [byteSize, List.foldr_nil] at hn
    omega
  · rw [hr, hr']
    rfl

theorem noSpace (h : Alike w w' n c c') (hspace : NoSpace c.rest) (hw : c.offset = n → NoSpace w') :
    NoSpace c'.rest := by
  by_cases hc : c.offset < n
  · rwa [NoSpace, h.head? hc]
  · obtain ⟨v, -, hr', -, hn, -⟩ := h
    obtain rfl : v = [] := eq_nil_of_byteSize (by omega)
    rw [hr']
    exact hw (by omega)

/-- Over characters that do not go beyond `n`, both cursors move alike. -/
theorem between (h : Alike w w' n c c') (hb : c.Between cs c₁) (hc : c₁.offset ≤ n) :
    ∃ c₁', Alike w w' n c₁ c₁' ∧ c'.Between cs c₁' := by
  obtain ⟨v, hr, hr', ho, hn, hfit⟩ := h
  obtain ⟨us, rfl, hus⟩ := exists_append_of_between hr hb (by omega)
  rw [byteSize_append] at hn
  have hsize := hb.offset
  exact ⟨⟨us ++ w', c₁.offset⟩, ⟨us, hus, rfl, rfl, by omega, hfit.suffix⟩,
    by rw [hr', List.append_assoc], by rw [hb.offset, ho]⟩

theorem still_iff (h : Alike w w' n c c') (h₁ : Alike w w' n c₁ c₁') :
    c₁'.rest.length < c'.rest.length ↔ c₁.rest.length < c.rest.length := by
  obtain ⟨v, hr, hr', -⟩ := h
  obtain ⟨v₁, hr₁, hr₁', -⟩ := h₁
  simp only [hr, hr', hr₁, hr₁', List.length_append]
  omega

/-- The digits of a width that begins before `n` are in range. -/
theorem digits_lt (h : Alike w w' n c c') (hb : c.Between [':'] c₁) (hc : c₁.offset < n) :
    ofDigits 10 (c₁.rest.takeWhile Char.isDigit) < Bits.modulus 32 := by
  obtain ⟨v, hr, -, -, hn, hfit⟩ := h
  have hsize := hb.offset
  obtain _ | ⟨d, v⟩ := v
  · simp only [byteSize, List.foldr_nil, List.foldr_cons] at hn hsize
    omega
  obtain ⟨rfl, hr₁⟩ := List.cons_eq_cons.1 (hb.rest.symm.trans hr)
  obtain rfl | ⟨y, e, rfl⟩ := List.eq_nil_or_concat v
  · simp only [byteSize, List.foldr_nil, List.foldr_cons] at hn hsize
    omega
  · have hdigits := hfit (':' :: y) e (by simp) [] y rfl
    have hr₁ : c₁.rest = y.concat e ++ w := hr₁
    rwa [hr₁, List.concat_eq_append, List.append_assoc]

end Alike

/-! ## Readers that do not look further -/

variable {α β : Type} {p q : Reader α} {k : α → Reader β}

/-- Unless the pending failure gets as far as `n`, the reader does the same whichever way the text
ends there. -/
structure Blind (w w' : List Char) (n : Nat) (p : Reader α) : Prop where
  fails {c c' : Cursor} {f f' : Option Failure} : Alike w w' n c c' →
    p c f = (none, f') → ¬ Reaches n f' → p c' f = (none, f')
  takes {c c' c₁ : Cursor} {f f' : Option Failure} {a : α} : Alike w w' n c c' →
    p c f = (some (a, c₁), f') → ¬ Reaches n f' → c₁.offset ≤ n → (c₁.offset = n → NoSpace w') →
      ∃ c₁', Alike w w' n c₁ c₁' ∧ p c' f = (some (a, c₁'), f')

theorem Regular.offset_le {c c' : Cursor} {f f' : Option Failure} {a : α} (hp : Regular p)
    (h : p c f = (some (a, c'), f')) : c.offset ≤ c'.offset := by
  obtain ⟨cs, hcs, -⟩ := hp.takes h
  rw [hcs.offset]
  omega

namespace Blind

protected theorem pure (a : α) : Blind w w' n (pure a : Reader α) where
  fails _ h := by cases h
  takes hc h _ _ _ := by
    cases h
    exact ⟨_, hc, rfl⟩

theorem bind_fails {c c' : Cursor} {f f' : Option Failure} (hp : Blind w w' n p)
    (hk' : ∀ a, Regular (k a)) (hc : Alike w w' n c c') (h : (p >>= k) c f = (none, f'))
    (hn : ¬ Reaches n f')
    (hk : ∀ {a c₁ c₁' f₁}, Alike w w' n c₁ c₁' → p c f = (some (a, c₁), f₁) →
      k a c₁ f₁ = (none, f') → k a c₁' f₁ = (none, f')) : (p >>= k) c' f = (none, f') := by
  rcases cases_bind h with ⟨hpf, -⟩ | ⟨a, c₁, f₁, hpa, hka⟩
  · exact bind_of_none (hp.fails hc hpf hn)
  · have hf₁ : ¬ Reaches n f₁ := fun h₁ => hn ((hk' a).keeps hka h₁)
    have hlt : c₁.offset < n := Nat.lt_of_not_le fun hle => hn (((hk' a).reports hka).mono hle)
    obtain ⟨c₁', hc₁, hpa'⟩ := hp.takes hc hpa hf₁ (by omega) (by omega)
    rw [bind_of_some hpa']
    exact hk hc₁ hpa hka

theorem bind_takes {c c' c₂ : Cursor} {f f' : Option Failure} {b : β} (hp : Blind w w' n p)
    (hk' : ∀ a, Regular (k a)) (hc : Alike w w' n c c') (h : (p >>= k) c f = (some (b, c₂), f'))
    (hn : ¬ Reaches n f') (hle : c₂.offset ≤ n) (hspace : c₂.offset = n → NoSpace w')
    (hk : ∀ {a c₁ c₁' f₁}, Alike w w' n c₁ c₁' → k a c₁ f₁ = (some (b, c₂), f') →
      ∃ c₂', Alike w w' n c₂ c₂' ∧ k a c₁' f₁ = (some (b, c₂'), f')) :
    ∃ c₂', Alike w w' n c₂ c₂' ∧ (p >>= k) c' f = (some (b, c₂'), f') := by
  rcases cases_bind h with ⟨-, hr⟩ | ⟨a, c₁, f₁, hpa, hka⟩
  · cases hr
  · have hf₁ : ¬ Reaches n f₁ := fun h₁ => hn ((hk' a).keeps hka h₁)
    have hmove := (hk' a).offset_le hka
    obtain ⟨c₁', hc₁, hpa'⟩ := hp.takes hc hpa hf₁ (by omega) fun _ => hspace (by omega)
    rw [bind_of_some hpa']
    exact hk hc₁ hka

protected theorem bind (hp : Blind w w' n p) (hk : ∀ a, Blind w w' n (k a))
    (hk' : ∀ a, Regular (k a)) : Blind w w' n (p >>= k) where
  fails hc h hn := hp.bind_fails hk' hc h hn fun hc₁ _ hka => (hk _).fails hc₁ hka hn
  takes hc h hn hle hspace := hp.bind_takes hk' hc h hn hle hspace fun hc₁ hka =>
    (hk _).takes hc₁ hka hn hle hspace

protected theorem orElse (hp : Blind w w' n p) (hq : Blind w w' n q) (hq' : Regular q) :
    Blind w w' n (p <|> q) where
  fails hc h hn := by
    rcases cases_orElse h with ⟨x, -, hr⟩ | ⟨f₁, hpf, hqf⟩
    · cases hr
    · rw [orElse_of_none (hp.fails hc hpf fun h₁ => hn (hq'.keeps hqf h₁))]
      exact hq.fails hc hqf hn
  takes hc h hn hle hspace := by
    rcases cases_orElse h with ⟨x, hpx, hr⟩ | ⟨f₁, hpf, hqx⟩
    · obtain rfl := Option.some.inj hr
      obtain ⟨c₁', hc₁, hpx'⟩ := hp.takes hc hpx hn hle hspace
      exact ⟨c₁', hc₁, orElse_of_some hpx'⟩
    · rw [orElse_of_none (hp.fails hc hpf fun h₁ => hn (hq'.keeps hqx h₁))]
      exact hq.takes hc hqx hn hle hspace

protected theorem many (hp : Blind w w' n p) (hp' : Regular p) : Blind w w' n p.many where
  fails {c c' f f'} _ h := by
    obtain ⟨as, c₁, f₁, hm⟩ := exists_many p c f
    cases hm.symm.trans h
  takes {c c' c₂ f f' as} hc h hn hle hspace := by
    induction hl : c.rest.length using Nat.strongRecOn generalizing c c' f as with
    | _ l ih =>
      rcases cases_many h with
        ⟨hpf, hr⟩ | ⟨a, c₁, hpa, hstill, hr⟩ | ⟨a, c₁, f₁, bs, c₃, hpa, hlt, hm, hr⟩
      · obtain ⟨⟨rfl, rfl⟩⟩ := hr
        exact ⟨c', hc, many_of_none (hp.fails hc hpf hn)⟩
      · obtain ⟨⟨rfl, rfl⟩⟩ := hr
        obtain ⟨cs, hcs, -⟩ := hp'.takes hpa
        obtain rfl := eq_nil_of_still hcs hstill
        obtain rfl := eq_of_between_nil hcs
        obtain ⟨c₁', hc₁, hpa'⟩ := hp.takes hc hpa hn hle hspace
        exact ⟨c', hc, many_of_still hpa' fun hlt => hstill ((hc.still_iff hc₁).1 hlt)⟩
      · obtain ⟨⟨rfl, rfl⟩⟩ := hr
        have hf₁ : ¬ Reaches n f₁ := fun h₁ => hn (hp'.many.keeps hm h₁)
        have hmove := hp'.many.offset_le hm
        obtain ⟨c₁', hc₁, hpa'⟩ := hp.takes hc hpa hf₁ (by omega) fun _ => hspace (by omega)
        obtain ⟨c₂', hc₂, hm'⟩ := ih _ (hl ▸ hlt) hc₁ hm rfl
        exact ⟨c₂', hc₂, many_of_some hpa' ((hc.still_iff hc₁).2 hlt) hm'⟩

protected theorem single {holds : Char → Bool} {report : Cursor → Option Failure → Failure}
    (hreport : Reports report) : Blind w w' n (single holds report) where
  fails {c c' f f'} hc h hn := by
    rcases cases_single h with ⟨d, -, -, hr, -⟩ | ⟨hmiss, -, rfl⟩
    · cases hr
    · have hlt : c.offset < n := Nat.lt_of_not_le fun hle => hn (hreport.reaches.2 (.inl hle))
      have hhead := hc.head? hlt
      rw [hreport.congr f hc.offset_eq.symm hhead.symm]
      unfold Reader.single
      cases hd : c'.rest.head? with
      | none => rfl
      | some d => simp only [hmiss d (hhead.symm.trans hd), Bool.false_eq_true, if_false]
  takes {c c' c₁ f f' d} hc h hn hle hspace := by
    rcases cases_single h with ⟨d, hd, hholds, hr, rfl⟩ | ⟨-, hr, -⟩
    · obtain ⟨⟨rfl, rfl⟩⟩ := hr
      obtain ⟨c₁', hc₁, hb⟩ := hc.between (Cursor.between_next hd) hle
      have hd' : c'.rest.head? = some d := by
        rw [hb.rest]
        rfl
      obtain rfl := hb.unique (Cursor.between_next hd')
      refine ⟨_, hc₁, ?_⟩
      simp only [Reader.single, hd', hholds, if_true]
    · cases hr

protected theorem space : Blind w w' n space where
  fails _ h := by cases h
  takes {c c' c₁ f f' u} hc h _ hle hspace := by
    obtain ⟨⟨⟨-, rfl⟩⟩, rfl⟩ := Prod.mk.inj h
    obtain ⟨c₁', hc₁, hb⟩ := hc.between (c.between_skip _) hle
    have hstop : NoSpace c₁'.rest := hc₁.noSpace (noSpace_skip c) hspace
    refine ⟨c₁', hc₁, ?_⟩
    obtain ⟨f₁, h₁⟩ := takes_space (blank_takeWhile c.rest) hstop c'.offset f
    rw [← hb.rest, ← hb.offset] at h₁
    obtain rfl : f = f₁ := congrArg Prod.snd h₁
    exact h₁

protected theorem labelled {label : Nat → Failure → Failure} (hlabel : Labels label)
    (hp : Blind w w' n p) : Blind w w' n (labelled label p) where
  fails hc h hn := by
    obtain ⟨g, hpf, rfl⟩ := cases_labelled h
    have hg : ¬ Reaches n g := fun hg => hn (reaches_rejoin.2 (.inl (hlabel.reaches_map.2 hg)))
    simp only [Reader.labelled, hp.fails hc hpf hg, hc.offset_eq]
  takes hc h hn hle hspace := by
    obtain ⟨g, hpa, rfl⟩ := cases_labelled h
    have hg : ¬ Reaches n g := fun hg => hn (reaches_rejoin.2 (.inl (hlabel.reaches_map.2 hg)))
    obtain ⟨c₁', hc₁, hpa'⟩ := hp.takes hc hpa hg hle hspace
    exact ⟨c₁', hc₁, by simp only [Reader.labelled, hpa', hc.offset_eq]⟩

theorem char (d : Char) : Blind w w' n (char d) := by
  unfold Reader.char
  rw [oneOf_eq]
  exact (Blind.single (reports_miss _)).bind (fun _ => .pure ()) fun _ => .pure ()

theorem run1 (k : CharClass) [hk : k.Plain] : Blind w w' n (run1 k) := by
  have hcharOf : Regular (charOf k) := .single hk.reports
  have hblind : Blind w w' n (charOf k) := .single hk.reports
  unfold Reader.run1
  rw [run_eq]
  refine hblind.bind (fun d => (hblind.many hcharOf).bind (fun _ => .pure _) fun _ => .pure _)
    fun d => hcharOf.many.bind fun _ => .pure _

end Blind

theorem eq_takeWhile_of_run1 {k : CharClass} {f f' : Option Failure} {ds : List Char}
    (h : run1 k c f = (some (ds, c₁), f')) : ds = c.rest.takeWhile k.holds := by
  rcases cases_bind h with ⟨-, hr⟩ | ⟨d, c₂, f₁, hd, hrun⟩
  · cases hr
  · rw [charOf_eq] at hd
    rcases cases_single hd with ⟨d, hhead, hholds, hr, -⟩ | ⟨-, hr, -⟩
    · obtain ⟨⟨rfl, rfl⟩⟩ := hr
      obtain ⟨es, hes⟩ := List.head?_eq_some_iff.1 hhead
      obtain ⟨⟨rfl, -⟩⟩ := Prod.mk.inj hrun
      simp only [Cursor.next, hes, List.takeWhile_cons, hholds, if_true]
    · cases hr

/-- A width is read alike where its digits are in range. -/
theorem blind_widthNumber_fails {f f' : Option Failure} (hc : Alike w w' n c c')
    (hfit : c.offset < n → ofDigits 10 (c.rest.takeWhile Char.isDigit) < Bits.modulus 32)
    (h : widthNumber c f = (none, f')) (hn : ¬ Reaches n f') : widthNumber c' f = (none, f') := by
  rcases cases_widthNumber h with ⟨g, hrun, -, rfl⟩ | ⟨ds, c₁, g, hrun, ⟨-, hr, -⟩ | ⟨hlt, -, rfl⟩⟩
  · have hrun' := (Blind.run1 digit).fails hc hrun fun hg => hn (reaches_rejoin.2 (.inl hg))
    simp only [widthNumber, hrun']
  · cases hr
  · -- a width out of range fails at its first digit, which lies before `n`
    have hbefore : c.offset < n := Nat.lt_of_not_le fun hle =>
      hn (Failure.reaches_merge.2 (.inl hle))
    exact absurd (eq_takeWhile_of_run1 hrun ▸ hfit hbefore) hlt

theorem blind_widthNumber_takes {f f' : Option Failure} {m : Nat} (hc : Alike w w' n c c')
    (h : widthNumber c f = (some (m, c₁), f')) (hn : ¬ Reaches n f') (hle : c₁.offset ≤ n)
    (hspace : c₁.offset = n → NoSpace w') :
    ∃ c₁', Alike w w' n c₁ c₁' ∧ widthNumber c' f = (some (m, c₁'), f') := by
  rcases cases_widthNumber h with ⟨g, -, hr, -⟩ | ⟨ds, c₂, g, hrun, ⟨hlt, hr, rfl⟩ | ⟨-, hr, -⟩⟩
  · cases hr
  · obtain ⟨⟨rfl, rfl⟩⟩ := hr
    obtain ⟨c₁', hc₁, hrun'⟩ := (Blind.run1 digit).takes hc hrun
      (fun hg => hn (reaches_rejoin.2 (.inl hg))) hle hspace
    exact ⟨c₁', hc₁, by simp only [widthNumber, hrun', hlt, if_true]⟩
  · cases hr

theorem blind_width : Blind w w' n (do char ':'; widthNumber) where
  fails {c c' f f'} hc h hn := by
    refine (Blind.char ':').bind_fails (fun _ => .widthNumber) hc h hn fun hc₁ hcolon hnumber => ?_
    obtain ⟨_, hb, rfl⟩ := follows_char ':' _ _ _ _ _ hcolon
    exact blind_widthNumber_fails hc₁ (hc.digits_lt hb) hnumber hn
  takes hc h hn hle hspace :=
    (Blind.char ':').bind_takes (fun _ => .widthNumber) hc h hn hle hspace fun hc₁ hnumber =>
      blind_widthNumber_takes hc₁ hnumber hn hle hspace

/-- Two texts are short enough for the same depth. -/
theorem Blind.deepening {q : Nat → Reader α} (hq : ∀ m, Blind w w' n (q m))
    (h : ∀ m, Agree m p (q m)) : Blind w w' n p where
  fails {c c' f f'} hc hpf hn := by
    have hlt : c.rest.length < c.rest.length + c'.rest.length + 1 := by omega
    have hlt' : c'.rest.length < c.rest.length + c'.rest.length + 1 := by omega
    rw [h _ c f hlt] at hpf
    rw [h _ c' f hlt']
    exact (hq _).fails hc hpf hn
  takes {c c' c₁ f f' a} hc hpa hn hle hspace := by
    have hlt : c.rest.length < c.rest.length + c'.rest.length + 1 := by omega
    have hlt' : c'.rest.length < c.rest.length + c'.rest.length + 1 := by omega
    rw [h _ c f hlt] at hpa
    rw [h _ c' f hlt']
    exact (hq _).takes hc hpa hn hle hspace

theorem Composed.blind (hp : Composed p) : Blind w w' n p := by
  induction hp with
  | pure a => exact .pure a
  | bind _ hk ihp ihk => exact ihp.bind ihk fun a => (hk a).regular
  | orElse _ hq ihp ihq => exact ihp.orElse ihq hq.regular
  | many hp ih => exact ih.many hp.regular
  | single _ hreport => exact .single hreport
  | space => exact .space
  | width => exact blind_width
  | labelled hlabel _ ih => exact ih.labelled hlabel
  | deepening q _ h ih => exact .deepening ih h

end Alike

end Reader

end BitSynth
