import BitSynth.Proofs.Reader.Lookahead

/-!
# Where readers stop

A reader stops behind the characters `u` if on a text that begins with them the pending failure gets
to the end of `u` while it runs, and neither the failure nor the reader gets further. If a
combination of readers stops there, one of them does, and what went before it goes the same way
whatever follows `u`.
-/

namespace BitSynth

open Text

namespace Reader

variable {α β : Type} {p q : Reader α} {k : α → Reader β} {u cs us : List Char} {a : α} {m : Nat}

/-- On a text shorter than `m` the reader stops behind the characters. -/
inductive StopsAt (m : Nat) (p : Reader α) (u : List Char) : Prop
  | intro {w : List Char} {c : Cursor} {f f' : Option Failure} {r : Option (α × Cursor)}
      (hrest : c.rest = u ++ w) (hshort : c.rest.length < m) (hfit : WidthsFit u w)
      (hrun : p c f = (r, f')) (hbelow : ¬ Reaches (c.offset + byteSize u) f)
      (hhere : Reaches (c.offset + byteSize u) f')
      (hbeyond : ¬ Reaches (c.offset + byteSize u + 1) f')
      (hends : ∀ a c', r = some (a, c') → c'.offset ≤ c.offset + byteSize u)

/-- The reader takes the characters in front of `us`, whatever stands behind. -/
def TakesBefore (p : Reader α) (cs us : List Char) (a : α) : Prop :=
  ∀ rest, (us = [] → NoSpace rest) → p.Takes cs (us ++ rest) a

theorem TakesBefore.follows {R : List Char → α → Prop} (h : p.TakesBefore cs us a)
    (hp : p.Follows R) : R cs a := by
  obtain ⟨f', hf'⟩ := h [] (fun _ => by rintro c ⟨⟩) 0 none
  obtain ⟨cs', hcs', ha⟩ := hp _ _ _ _ _ hf'
  obtain rfl : cs = cs' := List.append_cancel_right hcs'.rest
  exact ha

theorem Regular.takesBefore (hp : Regular p) (hblind : ∀ w w' n, Blind w w' n p) {w : List Char}
    {c c₁ : Cursor} {f f₁ : Option Failure} (hrun : p c f = (some (a, c₁), f₁))
    (hb : c.Between cs c₁) (hrest : c₁.rest = us ++ w) (hfit : WidthsFit (cs ++ us) w)
    (hf₁ : ¬ Reaches (c.offset + byteSize (cs ++ us)) f₁) : p.TakesBefore cs us a := by
  intro rest hspace
  have hsize := hb.offset
  rw [byteSize_append, ← Nat.add_assoc] at hf₁
  have halike : Alike w rest (c.offset + byteSize cs + byteSize us) c
      ⟨cs ++ (us ++ rest), c.offset⟩ :=
    ⟨cs ++ us, by rw [hb.rest, hrest, List.append_assoc], by rw [List.append_assoc], rfl,
      by rw [byteSize_append, Nat.add_assoc], hfit.before⟩
  obtain ⟨c₁', ⟨v, hv, hv', -⟩, hrun'⟩ := (hblind ..).takes halike hrun hf₁ (by omega)
    fun hn => hspace (eq_nil_of_byteSize (by omega))
  obtain rfl : us = v := List.append_cancel_right (hrest.symm.trans hv)
  obtain ⟨cs', hcs', htakes⟩ := hp.takes hrun'
  have hrest' := hcs'.rest
  rw [hv'] at hrest' htakes
  obtain rfl : cs = cs' := List.append_cancel_right hrest'
  exact htakes

namespace StopsAt

theorem mono {m' : Nat} (h : StopsAt m p u) (hle : m ≤ m') : StopsAt m' p u := by
  obtain ⟨hrest, hshort, hfit, hrun, hbelow, hhere, hbeyond, hends⟩ := h
  exact ⟨hrest, by omega, hfit, hrun, hbelow, hhere, hbeyond, hends⟩

theorem of_pure (h : StopsAt m (pure a : Reader α) u) : False := by
  obtain ⟨-, -, -, hrun, hbelow, hhere, -, -⟩ := h
  cases hrun
  exact hbelow hhere

theorem of_space (h : StopsAt m space u) : False := by
  obtain ⟨-, -, -, hrun, hbelow, hhere, -, -⟩ := h
  obtain ⟨-, rfl⟩ := Prod.mk.inj hrun
  exact hbelow hhere

theorem of_bind_regular (hp : Regular p) (hblind : ∀ w w' n, Blind w w' n p)
    (hk : ∀ a, Regular (k a)) (h : StopsAt m (p >>= k) u) :
    StopsAt m p u ∨ ∃ cs us a, u = cs ++ us ∧ p.TakesBefore cs us a ∧
      StopsAt (m - cs.length) (k a) us := by
  obtain @⟨w, c, f, f', r, hrest, hshort, hfit, hrun, hbelow, hhere, hbeyond, hends⟩ := h
  rcases cases_bind hrun with ⟨hpf, -⟩ | ⟨a, c₁, f₁, hpa, hka⟩
  · exact .inl ⟨hrest, hshort, hfit, hpf, hbelow, hhere, hbeyond, by rintro _ _ ⟨⟩⟩
  · -- what follows `p` cannot fail further on, so `p` ends no further either
    have hle : c₁.offset ≤ c.offset + byteSize u := by
      cases r with
      | none => exact Nat.le_of_not_lt fun hlt => hbeyond (((hk a).reports hka).mono hlt)
      | some x => exact Nat.le_trans ((hk a).offset_le hka) (hends _ _ rfl)
    by_cases hf₁ : Reaches (c.offset + byteSize u) f₁
    · refine .inl ⟨hrest, hshort, hfit, hpa, hbelow, hf₁,
        fun h => hbeyond ((hk a).keeps hka h), ?_⟩
      rintro _ _ ⟨⟩
      exact hle
    · obtain ⟨cs, hb, -⟩ := hp.takes hpa
      obtain ⟨us, rfl, hus⟩ := exists_append_of_between hrest hb hle
      have hplace : c₁.offset + byteSize us = c.offset + byteSize (cs ++ us) := by
        rw [hb.offset, byteSize_append, Nat.add_assoc]
      have hlength := congrArg List.length hb.rest
      rw [List.length_append] at hlength
      refine .inr ⟨cs, us, a, rfl, hp.takesBefore hblind hpa hb hus hfit hf₁, ?_⟩
      exact ⟨hus, by omega, hfit.suffix, hka, hplace ▸ hf₁, hplace ▸ hhere, hplace ▸ hbeyond,
        hplace ▸ hends⟩

theorem of_bind [hp : Composed p] [hk : ∀ a, Composed (k a)] (h : StopsAt m (p >>= k) u) :
    StopsAt m p u ∨ ∃ cs us a, u = cs ++ us ∧ p.TakesBefore cs us a ∧
      StopsAt (m - cs.length) (k a) us :=
  h.of_bind_regular hp.regular (fun _ _ _ => hp.blind) fun a => (hk a).regular

theorem of_map [Composed p] {g : α → β} (h : StopsAt m (g <$> p) u) : StopsAt m p u := by
  have h : StopsAt m (p >>= fun a => pure (g a)) u := h
  rcases h.of_bind with h | ⟨_, _, _, -, -, h⟩
  · exact h
  · exact h.of_pure.elim

theorem of_orElse [hp : Composed p] [hq : Composed q] (h : StopsAt m (p <|> q) u) :
    StopsAt m p u ∨ (∀ rest, p.Fails (u ++ rest)) ∧ StopsAt m q u := by
  obtain @⟨w, c, f, f', r, hrest, hshort, hfit, hrun, hbelow, hhere, hbeyond, hends⟩ := h
  rcases cases_orElse hrun with ⟨x, hpx, rfl⟩ | ⟨f₁, hpf, hq'⟩
  · exact .inl ⟨hrest, hshort, hfit, hpx, hbelow, hhere, hbeyond, hends⟩
  · by_cases hf₁ : Reaches (c.offset + byteSize u) f₁
    · exact .inl ⟨hrest, hshort, hfit, hpf, hbelow, hf₁,
        fun h => hbeyond (hq.regular.keeps hq' h), by rintro _ _ ⟨⟩⟩
    · refine .inr ⟨fun rest => ?_, hrest, hshort, hfit, hq', hf₁, hhere, hbeyond, hends⟩
      have halike : Alike w rest (c.offset + byteSize u) c ⟨u ++ rest, c.offset⟩ :=
        ⟨u, hrest, rfl, rfl, rfl, hfit.before⟩
      exact hp.regular.fails (hp.blind.fails halike hpf hf₁)

theorem of_optional [Composed p] (h : StopsAt m p.optional u) : StopsAt m p u := by
  rw [optional_eq] at h
  rcases h.of_orElse with h | ⟨-, h⟩
  · exact h.of_map
  · exact h.of_pure.elim

theorem of_many [hp : Composed p] (h : StopsAt m p.many u) :
    StopsAt m p u ∨ ∃ cs us a, cs ≠ [] ∧ u = cs ++ us ∧ p.TakesBefore cs us a ∧
      StopsAt m p.many us := by
  obtain @⟨w, c, f, f', r, hrest, hshort, hfit, hrun, hbelow, hhere, hbeyond, hends⟩ := h
  rcases cases_many hrun with
    ⟨hpf, -⟩ | ⟨a, c₁, hpa, hstill, rfl⟩ | ⟨a, c₁, f₁, as, c₂, hpa, hlt, hm, rfl⟩
  · exact .inl ⟨hrest, hshort, hfit, hpf, hbelow, hhere, hbeyond, by rintro _ _ ⟨⟩⟩
  · obtain ⟨cs, hb, -⟩ := hp.regular.takes hpa
    obtain rfl := eq_nil_of_still hb hstill
    obtain rfl := eq_of_between_nil hb
    refine .inl ⟨hrest, hshort, hfit, hpa, hbelow, hhere, hbeyond, ?_⟩
    rintro _ _ ⟨⟩
    exact hends _ _ rfl
  · have hle : c₁.offset ≤ c.offset + byteSize u :=
      Nat.le_trans (hp.regular.many.offset_le hm) (hends _ _ rfl)
    by_cases hf₁ : Reaches (c.offset + byteSize u) f₁
    · refine .inl ⟨hrest, hshort, hfit, hpa, hbelow, hf₁,
        fun h => hbeyond (hp.regular.many.keeps hm h), ?_⟩
      rintro _ _ ⟨⟩
      exact hle
    · obtain ⟨cs, hb, -⟩ := hp.regular.takes hpa
      obtain ⟨us, rfl, hus⟩ := exists_append_of_between hrest hb hle
      have hplace : c₁.offset + byteSize us = c.offset + byteSize (cs ++ us) := by
        rw [hb.offset, byteSize_append, Nat.add_assoc]
      have htakes : p.TakesBefore cs us a :=
        hp.regular.takesBefore (fun _ _ _ => hp.blind) hpa hb hus hfit hf₁
      refine .inr ⟨cs, us, a, ?_, rfl, htakes, ?_⟩
      · rintro rfl
        exact Nat.lt_irrefl _ (hb.rest ▸ hlt)
      · refine ⟨hus, by omega, hfit.suffix, hm, hplace ▸ hf₁, hplace ▸ hhere, hplace ▸ hbeyond, ?_⟩
        rintro _ _ ⟨⟩
        exact hplace ▸ hends _ _ rfl

theorem of_single {holds : Char → Bool} {report : Cursor → Option Failure → Failure}
    (hreport : Reports report) (h : StopsAt m (single holds report) u) : u = [] := by
  obtain ⟨-, -, -, hrun, hbelow, hhere, -, -⟩ := h
  rcases cases_single hrun with ⟨d, -, -, -, rfl⟩ | ⟨-, -, rfl⟩
  · exact absurd hhere hbelow
  · rcases hreport.reaches.1 hhere with hle | hhere
    · exact eq_nil_of_byteSize (by omega)
    · exact absurd hhere hbelow

theorem of_labelled {label : Nat → Failure → Failure} (hlabel : Labels label)
    (h : StopsAt m (labelled label p) u) : StopsAt m p u := by
  obtain ⟨hrest, hshort, hfit, hrun, hbelow, hhere, hbeyond, hends⟩ := h
  obtain ⟨g, hp, rfl⟩ := cases_labelled hrun
  refine ⟨hrest, hshort, hfit, hp, not_reaches_none _, ?_, fun hg => ?_, hends⟩
  · exact hlabel.reaches_map.1 ((reaches_rejoin.1 hhere).resolve_right hbelow)
  · exact hbeyond (reaches_rejoin.2 (.inl (hlabel.reaches_map.2 hg)))

theorem of_named {prod : Production} (h : StopsAt m (p.named prod) u) : StopsAt m p u :=
  of_labelled (labels_named prod) h

theorem of_apart (h : StopsAt m p.apart u) : StopsAt m p u := by
  rw [apart_eq] at h
  exact h.of_labelled labels_id

theorem of_oneOf {chars : List Char} (h : StopsAt m (oneOf chars) u) : u = [] := by
  rw [oneOf_eq] at h
  exact h.of_single (reports_miss _)

theorem of_char {d : Char} (h : StopsAt m (char d) u) : u = [] := by
  have hreport := reports_miss ([d].map .char)
  unfold char at h
  rw [oneOf_eq] at h
  rcases h.of_bind_regular (.single hreport) (fun _ _ _ => .single hreport) fun _ => .pure () with
    h | ⟨_, _, _, -, -, h⟩
  · exact h.of_single hreport
  · exact h.of_pure.elim

theorem of_charOf {k : CharClass} [hk : k.Plain] (h : StopsAt m (charOf k) u) : u = [] :=
  of_single hk.reports h

theorem of_spaced [Composed p] (h : StopsAt m (spaced p) u) :
    ∃ ws us, u = ws ++ us ∧ Blank ws ∧ StopsAt m p us := by
  unfold spaced at h
  rcases h.of_bind with h | ⟨ws, us, _, rfl, hws, h⟩
  · exact h.of_space.elim
  · refine ⟨ws, us, rfl, hws.follows follows_space, ?_⟩
    rcases h.of_bind with h | ⟨_, _, _, -, -, h⟩
    · exact h.mono (Nat.sub_le ..)
    · rcases h.of_bind with h | ⟨_, _, _, -, -, h⟩
      · exact h.of_space.elim
      · exact h.of_pure.elim

end StopsAt

end Reader

end BitSynth
