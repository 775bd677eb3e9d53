import BitSynth.Proofs.Reader.Composed

/-!
# Regular readers

What a composed reader makes of a text depends on the characters alone, not on their place nor on
the failures before. It never takes a pending failure back, and where it fails it leaves one that
begins no earlier than it did itself.
-/

namespace BitSynth

open Text

namespace Reader

variable {α β : Type} {p q : Reader α} {k : α → Reader β} {c : Cursor} {f f' : Option Failure}

/-! ## Steps -/

theorem cases_bind {r : Option (β × Cursor)} (h : (p >>= k) c f = (r, f')) :
    (p c f = (none, f') ∧ r = none) ∨
      ∃ a c₁ f₁, p c f = (some (a, c₁), f₁) ∧ k a c₁ f₁ = (r, f') := by
  rcases hp : p c f with ⟨_ | ⟨a, c₁⟩, f₁⟩
  · rw [bind_of_none hp] at h
    obtain ⟨rfl, rfl⟩ := Prod.mk.inj h
    exact .inl ⟨rfl, rfl⟩
  · rw [bind_of_some hp] at h
    exact .inr ⟨a, c₁, f₁, rfl, h⟩

theorem orElse_of_some {x : α × Cursor} (h : p c f = (some x, f')) :
    (p <|> q) c f = (some x, f') := by
  show Reader.orElse p (fun _ => q) c f = _
  simp only [Reader.orElse, h]

theorem orElse_of_none (h : p c f = (none, f')) : (p <|> q) c f = q c f' := by
  show Reader.orElse p (fun _ => q) c f = _
  simp only [Reader.orElse, h]

theorem cases_orElse {r : Option (α × Cursor)} (h : (p <|> q) c f = (r, f')) :
    (∃ x, p c f = (some x, f') ∧ r = some x) ∨
      ∃ f₁, p c f = (none, f₁) ∧ q c f₁ = (r, f') := by
  rcases hp : p c f with ⟨_ | x, f₁⟩
  · rw [orElse_of_none hp] at h
    exact .inr ⟨f₁, rfl, h⟩
  · rw [orElse_of_some hp] at h
    obtain ⟨rfl, rfl⟩ := Prod.mk.inj h
    exact .inl ⟨x, rfl, rfl⟩

theorem many_of_none (h : p c f = (none, f')) : p.many c f = (some ([], c), f') := by
  rw [Reader.many, h]

theorem many_of_still {a : α} {c' : Cursor} (h : p c f = (some (a, c'), f'))
    (hc : ¬ c'.rest.length < c.rest.length) : p.many c f = (some ([], c), f') := by
  rw [Reader.many, h]
  simp only [hc, if_false]

theorem many_of_some {a : α} {as : List α} {c₁ c₂ : Cursor} {f₁ : Option Failure}
    (h : p c f = (some (a, c₁), f₁)) (hc : c₁.rest.length < c.rest.length)
    (hmany : p.many c₁ f₁ = (some (as, c₂), f')) : p.many c f = (some (a :: as, c₂), f') := by
  rw [Reader.many, h]
  simp only [hc, if_true, hmany]

theorem exists_many (p : Reader α) (c : Cursor) (f : Option Failure) :
    ∃ as c' f', p.many c f = (some (as, c'), f') := by
  induction hl : c.rest.length using Nat.strongRecOn generalizing c f with
  | _ l ih =>
    rcases hp : p c f with ⟨_ | ⟨a, c₁⟩, f₁⟩
    · exact ⟨_, _, _, many_of_none hp⟩
    · by_cases hc : c₁.rest.length < c.rest.length
      · obtain ⟨as, c₂, f₂, hmany⟩ := ih _ (hl ▸ hc) c₁ f₁ rfl
        exact ⟨_, _, _, many_of_some hp hc hmany⟩
      · exact ⟨_, _, _, many_of_still hp hc⟩

theorem cases_many {r : Option (List α × Cursor)} (h : p.many c f = (r, f')) :
    (p c f = (none, f') ∧ r = some ([], c)) ∨
      (∃ a c₁, p c f = (some (a, c₁), f') ∧ ¬ c₁.rest.length < c.rest.length ∧
        r = some ([], c)) ∨
      ∃ a c₁ f₁ as c₂, p c f = (some (a, c₁), f₁) ∧ c₁.rest.length < c.rest.length ∧
        p.many c₁ f₁ = (some (as, c₂), f') ∧ r = some (a :: as, c₂) := by
  rcases hp : p c f with ⟨_ | ⟨a, c₁⟩, f₁⟩
  · obtain ⟨rfl, rfl⟩ := Prod.mk.inj ((many_of_none hp).symm.trans h)
    exact .inl ⟨rfl, rfl⟩
  · by_cases hc : c₁.rest.length < c.rest.length
    · obtain ⟨as, c₂, f₂, hmany⟩ := exists_many p c₁ f₁
      obtain ⟨rfl, rfl⟩ := Prod.mk.inj ((many_of_some hp hc hmany).symm.trans h)
      exact .inr (.inr ⟨a, c₁, f₁, as, c₂, rfl, hc, hmany, rfl⟩)
    · obtain ⟨rfl, rfl⟩ := Prod.mk.inj ((many_of_still hp hc).symm.trans h)
      exact .inr (.inl ⟨a, c₁, rfl, hc, rfl⟩)

theorem cases_single {holds : Char → Bool} {report : Cursor → Option Failure → Failure}
    {r : Option (Char × Cursor)} (h : single holds report c f = (r, f')) :
    (∃ d, c.rest.head? = some d ∧ holds d = true ∧ r = some (d, c.next) ∧ f' = f) ∨
      ((∀ d ∈ c.rest.head?, holds d = false) ∧ r = none ∧ f' = some (report c f)) := by
  unfold single at h
  split at h
  · rename_i d hd
    split_ifs at h with hholds
    · obtain ⟨rfl, rfl⟩ := Prod.mk.inj h
      exact .inl ⟨d, hd, hholds, rfl, rfl⟩
    · obtain ⟨rfl, rfl⟩ := Prod.mk.inj h
      refine .inr ⟨?_, rfl, rfl⟩
      rw [hd]
      rintro _ ⟨⟩
      exact Bool.eq_false_iff.2 hholds
  · rename_i hd
    obtain ⟨rfl, rfl⟩ := Prod.mk.inj h
    refine .inr ⟨?_, rfl, rfl⟩
    rw [hd]
    rintro _ ⟨⟩

theorem cases_labelled {label : Nat → Failure → Failure} {r : Option (α × Cursor)}
    (h : labelled label p c f = (r, f')) :
    ∃ g, p c none = (r, g) ∧ f' = rejoin (g.map (label c.offset)) f := by
  obtain ⟨rfl, rfl⟩ := Prod.mk.inj h
  exact ⟨_, rfl, rfl⟩

theorem cases_widthNumber {r : Option (Nat × Cursor)} (h : widthNumber c f = (r, f')) :
    (∃ g, run1 digit c none = (none, g) ∧ r = none ∧ f' = rejoin g f) ∨
      ∃ ds c' g, run1 digit c none = (some (ds, c'), g) ∧
        ((ofDigits 10 ds < Bits.modulus 32 ∧ r = some (ofDigits 10 ds, c') ∧ f' = rejoin g f) ∨
          (¬ ofDigits 10 ds < Bits.modulus 32 ∧ r = none ∧ f' = some
            (Failure.merge ⟨c.offset, c'.offset, .widthOutOfRange (String.ofList ds)⟩ f))) := by
  unfold widthNumber at h
  rcases hrun : run1 digit c none with ⟨_ | ⟨ds, c'⟩, g⟩
  · rw [hrun] at h
    obtain ⟨rfl, rfl⟩ := Prod.mk.inj h
    exact .inl ⟨g, rfl, rfl, rfl⟩
  · rw [hrun] at h
    simp only at h
    refine .inr ⟨ds, c', g, rfl, ?_⟩
    split_ifs at h with hlt
    · obtain ⟨rfl, rfl⟩ := Prod.mk.inj h
      exact .inl ⟨hlt, rfl, rfl⟩
    · obtain ⟨rfl, rfl⟩ := Prod.mk.inj h
      exact .inr ⟨hlt, rfl, rfl⟩

/-! ## Regularity -/

theorem eq_nil_of_still {c' : Cursor} {cs : List Char} (h : c.Between cs c')
    (hc : ¬ c'.rest.length < c.rest.length) : cs = [] := by
  rw [h.rest, List.length_append] at hc
  exact List.length_eq_zero_iff.1 (by omega)

theorem eq_of_between_nil {c' : Cursor} (h : c.Between [] c') : c' = c := h.unique c.between_self

theorem blank_takeWhile (cs : List Char) :
    ∀ c ∈ cs.takeWhile fun d => decide (d ∈ whiteSpace), c ∈ whiteSpace := fun c hc =>
  of_decide_eq_true (List.all_eq_true.1 List.all_takeWhile c hc)

theorem noSpace_skip (c : Cursor) : NoSpace (c.skip fun d => decide (d ∈ whiteSpace)).rest := by
  intro d hd
  have hstop := List.head?_dropWhile_not (fun e => decide (e ∈ whiteSpace)) c.rest
  rw [show (c.rest.dropWhile _).head? = some d from hd] at hstop
  exact of_decide_eq_false hstop

theorem Takes.many_nil {rest : List Char} {a : α} (h : p.Takes [] rest a) :
    p.many.Takes [] rest [] := by
  intro offset f
  obtain ⟨f₁, h₁⟩ := h offset f
  exact ⟨f₁, many_of_still h₁ (Nat.lt_irrefl _)⟩

structure Regular (p : Reader α) : Prop where
  /-- A value stands for the characters it was read from. -/
  takes {c c' : Cursor} {f f' : Option Failure} {a : α} : p c f = (some (a, c'), f') →
    ∃ cs, c.Between cs c' ∧ p.Takes cs c'.rest a
  /-- Where the reader failed once, it always does. -/
  fails {c : Cursor} {f f' : Option Failure} : p c f = (none, f') → p.Fails c.rest
  /-- The pending failure is replaced by one further into the text, if at all. -/
  keeps {c : Cursor} {f f' : Option Failure} {r : Option (α × Cursor)} {n : Nat} :
    p c f = (r, f') → Reaches n f → Reaches n f'
  /-- No failure is silent. -/
  reports {c : Cursor} {f f' : Option Failure} : p c f = (none, f') → Reaches c.offset f'

namespace Regular

protected theorem pure (a : α) : Regular (pure a : Reader α) where
  takes := by
    rintro c _ f _ _ ⟨⟩
    exact ⟨[], c.between_self, takes_pure a _⟩
  fails := by rintro _ _ _ ⟨⟩
  keeps := by
    rintro _ _ _ _ _ ⟨⟩ h
    exact h
  reports := by rintro _ _ _ ⟨⟩

protected theorem bind (hp : Regular p) (hk : ∀ a, Regular (k a)) : Regular (p >>= k) where
  takes h := by
    rcases cases_bind h with ⟨-, hr⟩ | ⟨a, c₁, f₁, hpa, hka⟩
    · cases hr
    · obtain ⟨cs, hcs, htakes⟩ := hp.takes hpa
      obtain ⟨ds, hds, htakes'⟩ := (hk a).takes hka
      exact ⟨cs ++ ds, hcs.trans hds, (hds.rest ▸ htakes).bind htakes'⟩
  fails h := by
    rcases cases_bind h with ⟨hpf, -⟩ | ⟨a, c₁, f₁, hpa, hka⟩
    · exact (hp.fails hpf).bind
    · obtain ⟨cs, hcs, htakes⟩ := hp.takes hpa
      rw [hcs.rest]
      exact htakes.bind_fails ((hk a).fails hka)
  keeps h hn := by
    rcases cases_bind h with ⟨hpf, -⟩ | ⟨a, c₁, f₁, hpa, hka⟩
    · exact hp.keeps hpf hn
    · exact (hk a).keeps hka (hp.keeps hpa hn)
  reports h := by
    rcases cases_bind h with ⟨hpf, -⟩ | ⟨a, c₁, f₁, hpa, hka⟩
    · exact hp.reports hpf
    · obtain ⟨cs, hcs, -⟩ := hp.takes hpa
      exact ((hk a).reports hka).mono (by rw [hcs.offset]; omega)

protected theorem orElse (hp : Regular p) (hq : Regular q) : Regular (p <|> q) where
  takes h := by
    rcases cases_orElse h with ⟨x, hpx, hr⟩ | ⟨f₁, hpf, hqx⟩
    · obtain rfl := Option.some.inj hr
      obtain ⟨cs, hcs, htakes⟩ := hp.takes hpx
      exact ⟨cs, hcs, htakes.orElse⟩
    · obtain ⟨cs, hcs, htakes⟩ := hq.takes hqx
      exact ⟨cs, hcs, (hcs.rest ▸ hp.fails hpf).orElse_takes htakes⟩
  fails h := by
    rcases cases_orElse h with ⟨x, -, hr⟩ | ⟨f₁, hpf, hqf⟩
    · cases hr
    · exact (hp.fails hpf).orElse (hq.fails hqf)
  keeps h hn := by
    rcases cases_orElse h with ⟨x, hpx, -⟩ | ⟨f₁, hpf, hq'⟩
    · exact hp.keeps hpx hn
    · exact hq.keeps hq' (hp.keeps hpf hn)
  reports h := by
    rcases cases_orElse h with ⟨x, -, hr⟩ | ⟨f₁, -, hqf⟩
    · cases hr
    · exact hq.reports hqf

protected theorem many (hp : Regular p) : Regular p.many where
  takes {c c' f f' as} h := by
    induction hl : c.rest.length using Nat.strongRecOn generalizing c f as with
    | _ l ih =>
      rcases cases_many h with
        ⟨hpf, hr⟩ | ⟨a, c₁, hpa, hc, hr⟩ | ⟨a, c₁, f₁, bs, c₂, hpa, hc, hm, hr⟩
      · obtain ⟨⟨rfl, rfl⟩⟩ := hr
        exact ⟨[], Cursor.between_self _, (hp.fails hpf).many⟩
      · obtain ⟨⟨rfl, rfl⟩⟩ := hr
        obtain ⟨cs, hcs, htakes⟩ := hp.takes hpa
        obtain rfl := eq_nil_of_still hcs hc
        obtain rfl := eq_of_between_nil hcs
        exact ⟨[], Cursor.between_self _, htakes.many_nil⟩
      · obtain ⟨⟨rfl, rfl⟩⟩ := hr
        obtain ⟨cs, hcs, htakes⟩ := hp.takes hpa
        obtain ⟨ds, hds, htakes'⟩ := ih _ (hl ▸ hc) hm rfl
        refine ⟨cs ++ ds, hcs.trans hds, (hds.rest ▸ htakes).many_cons ?_ htakes'⟩
        rintro rfl
        exact absurd hc (by simp [hcs.rest])
  fails {c f f'} h := by
    obtain ⟨as, c', f₁, hm⟩ := exists_many p c f
    cases hm.symm.trans h
  keeps {c f f' r n} h hn := by
    induction hl : c.rest.length using Nat.strongRecOn generalizing c f r with
    | _ l ih =>
      rcases cases_many h with
        ⟨hpf, hr⟩ | ⟨a, c₁, hpa, hc, hr⟩ | ⟨a, c₁, f₁, bs, c₂, hpa, hc, hm, hr⟩
      · exact hp.keeps hpf hn
      · exact hp.keeps hpa hn
      · exact ih _ (hl ▸ hc) hm (hp.keeps hpa hn) rfl
  reports {c f f'} h := by
    obtain ⟨as, c', f₁, hm⟩ := exists_many p c f
    cases hm.symm.trans h

protected theorem single {holds : Char → Bool} {report : Cursor → Option Failure → Failure}
    (hreport : Reports report) : Regular (single holds report) where
  takes {c c' f f' d} h := by
    rcases cases_single h with ⟨d, hd, hholds, hr, -⟩ | ⟨-, hr, -⟩
    · obtain ⟨⟨rfl, rfl⟩⟩ := hr
      exact ⟨[d], Cursor.between_next hd, fun offset f =>
        ⟨f, by simp [Reader.single, hholds, Cursor.next, byteSize]⟩⟩
    · cases hr
  fails {c f f'} h := by
    rcases cases_single h with ⟨d, -, -, hr, -⟩ | ⟨hmiss, -, -⟩
    · cases hr
    · intro offset f
      refine ⟨some (report ⟨c.rest, offset⟩ f), ?_⟩
      unfold Reader.single
      cases hd : c.rest.head? with
      | none => rfl
      | some d => simp only [hmiss d hd, Bool.false_eq_true, if_false]
  keeps h hn := by
    rcases cases_single h with ⟨d, -, -, -, rfl⟩ | ⟨-, -, rfl⟩
    · exact hn
    · exact hreport.reaches.2 (.inr hn)
  reports h := by
    rcases cases_single h with ⟨d, -, -, hr, -⟩ | ⟨-, -, rfl⟩
    · cases hr
    · exact hreport.reaches.2 (.inl (Nat.le_refl _))

protected theorem space : Regular space where
  takes {c c' f f' u} h := by
    obtain ⟨⟨⟨-, rfl⟩⟩, -⟩ := Prod.mk.inj h
    exact ⟨_, c.between_skip _, takes_space (blank_takeWhile c.rest) (noSpace_skip c)⟩
  fails h := by cases (Prod.mk.inj h).1
  keeps h hn := by
    obtain ⟨-, rfl⟩ := Prod.mk.inj h
    exact hn
  reports h := by cases (Prod.mk.inj h).1

protected theorem labelled {label : Nat → Failure → Failure} (hlabel : Labels label)
    (hp : Regular p) : Regular (labelled label p) where
  takes h := by
    obtain ⟨g, hpa, -⟩ := cases_labelled h
    obtain ⟨cs, hcs, htakes⟩ := hp.takes hpa
    refine ⟨cs, hcs, fun offset f => ?_⟩
    obtain ⟨g', hg'⟩ := htakes offset none
    exact ⟨rejoin (g'.map (label offset)) f, by simp only [Reader.labelled, hg']⟩
  fails h := by
    obtain ⟨g, hpf, -⟩ := cases_labelled h
    intro offset f
    obtain ⟨g', hg'⟩ := hp.fails hpf offset none
    exact ⟨rejoin (g'.map (label offset)) f, by simp only [Reader.labelled, hg']⟩
  keeps h hn := by
    obtain ⟨g, -, rfl⟩ := cases_labelled h
    exact reaches_rejoin.2 (.inr hn)
  reports h := by
    obtain ⟨g, hpf, rfl⟩ := cases_labelled h
    exact reaches_rejoin.2 (.inl (hlabel.reaches_map.2 (hp.reports hpf)))

theorem char (d : Char) : Regular (char d) := by
  unfold Reader.char
  rw [oneOf_eq]
  exact (Regular.single (reports_miss _)).bind fun _ => .pure ()

theorem run1 (k : CharClass) [hk : k.Plain] : Regular (run1 k) := by
  have hcharOf : Regular (charOf k) := .single hk.reports
  unfold Reader.run1
  rw [run_eq]
  exact hcharOf.bind fun d => hcharOf.many.bind fun ds => .pure (d :: ds)

theorem widthNumber : Regular widthNumber where
  takes {c c' f f' n} h := by
    rcases cases_widthNumber h with ⟨g, -, hr, -⟩ | ⟨ds, c₁, g, hrun, ⟨hlt, hr, -⟩ | ⟨-, hr, -⟩⟩
    · cases hr
    · obtain ⟨⟨rfl, rfl⟩⟩ := hr
      obtain ⟨cs, hcs, htakes⟩ := (run1 digit).takes hrun
      refine ⟨cs, hcs, fun offset f => ?_⟩
      obtain ⟨g', hg'⟩ := htakes offset none
      refine ⟨rejoin g' f, ?_⟩
      simp only [Reader.widthNumber, hg', hlt, if_true]
    · cases hr
  fails {c f f'} h := by
    intro offset f
    rcases cases_widthNumber h with ⟨g, hrun, -, -⟩ | ⟨ds, c₁, g, hrun, ⟨-, hr, -⟩ | ⟨hlt, -, -⟩⟩
    · obtain ⟨g', hg'⟩ := (run1 digit).fails hrun offset none
      refine ⟨rejoin g' f, ?_⟩
      simp only [Reader.widthNumber, hg']
    · cases hr
    · obtain ⟨cs, hcs, htakes⟩ := (run1 digit).takes hrun
      obtain ⟨g', hg'⟩ := htakes offset none
      rw [hcs.rest]
      simp only [Reader.widthNumber, hg', hlt, if_false]
      exact ⟨_, rfl⟩
  keeps {c f f' r n} h hn := by
    rcases cases_widthNumber h with ⟨g, -, -, rfl⟩ | ⟨ds, c₁, g, -, ⟨-, -, rfl⟩ | ⟨-, -, rfl⟩⟩
    · exact reaches_rejoin.2 (.inr hn)
    · exact reaches_rejoin.2 (.inr hn)
    · exact Failure.reaches_merge.2 (.inr hn)
  reports {c f f'} h := by
    rcases cases_widthNumber h with ⟨g, hrun, -, rfl⟩ | ⟨ds, c₁, g, -, ⟨-, hr, -⟩ | ⟨-, -, rfl⟩⟩
    · exact reaches_rejoin.2 (.inl ((run1 digit).reports hrun))
    · cases hr
    · exact Failure.reaches_merge.2 (.inl (Nat.le_refl _))

/-- What agrees with regular readers, however long the text, is regular. -/
theorem deepening {q : Nat → Reader α} (hq : ∀ n, Regular (q n)) (h : ∀ n, Agree n p (q n)) :
    Regular p where
  takes {c c' f f' a} hpa := by
    rw [h _ c f (Nat.lt_succ_self _)] at hpa
    obtain ⟨cs, hcs, htakes⟩ := (hq _).takes hpa
    refine ⟨cs, hcs, fun offset f => ?_⟩
    obtain ⟨f₁, h₁⟩ := htakes offset f
    exact ⟨f₁, (h _ _ f (by rw [← hcs.rest]; exact Nat.lt_succ_self _)).trans h₁⟩
  fails {c f f'} hpf := by
    rw [h _ c f (Nat.lt_succ_self _)] at hpf
    intro offset f
    obtain ⟨f₁, h₁⟩ := (hq _).fails hpf offset f
    exact ⟨f₁, (h _ ⟨c.rest, offset⟩ f (Nat.lt_succ_self _)).trans h₁⟩
  keeps {c f f' r n} hp hn := by
    rw [h _ c f (Nat.lt_succ_self _)] at hp
    exact (hq _).keeps hp hn
  reports {c f f'} hpf := by
    rw [h _ c f (Nat.lt_succ_self _)] at hpf
    exact (hq _).reports hpf

end Regular

theorem Composed.regular (hp : Composed p) : Regular p := by
  induction hp with
  | pure a => exact .pure a
  | bind _ _ ihp ihk => exact ihp.bind ihk
  | orElse _ _ ihp ihq => exact ihp.orElse ihq
  | many _ ih => exact ih.many
  | single _ hreport => exact .single hreport
  | space => exact .space
  | width => exact .bind (.char _) fun _ => .widthNumber
  | labelled hlabel _ ih => exact ih.labelled hlabel
  | deepening q _ h ih => exact .deepening ih h

end Reader

end BitSynth
