import BitSynth.Proofs.Reader.Completion

/-!
# Errors at the first wrong character

A rejected text is wrong from one character on. If the error tells the character that was found, all
texts that agree up to and including it are rejected with the same error, and some text that agrees
up to it is accepted (`correctPrefix`).
-/

namespace BitSynth

open Text

/-- An error that tells a character stands at the first one that cannot go on: what was read before
it can be completed, and with it no text is read, whatever follows. -/
def CorrectPrefix {α : Type} (read : String → Except LexError α) : Prop :=
  ∀ ⦃text e c⦄, read text = .error e → e.found = some c →
    ∃ u, u ++ [c] <+: text.toList ∧ byteSize u = e.start ∧
      (∀ text', u ++ [c] <+: text'.toList → read text' = .error e) ∧
      ∃ text' a, u <+: text'.toList ∧ read text' = .ok a

namespace Reader

variable {α : Type} {p : Reader α} {c : Cursor} {f f' : Option Failure}

/-! ## The end of the text -/

theorem cases_endOfInput {r : Option (Unit × Cursor)} (h : endOfInput c f = (r, f')) :
    (c.rest = [] ∧ r = some ((), c) ∧ f' = f) ∨
      (c.rest ≠ [] ∧ r = none ∧ f' = some (Failure.miss c [.endOfInput] f)) := by
  unfold endOfInput at h
  split at h
  · rename_i hrest
    obtain ⟨rfl, rfl⟩ := Prod.mk.inj h
    exact .inl ⟨hrest, rfl, rfl⟩
  · rename_i d ds hrest
    obtain ⟨rfl, rfl⟩ := Prod.mk.inj h
    exact .inr ⟨by simp [hrest], rfl, rfl⟩

theorem endOfInput_of_ne_nil (h : c.rest ≠ []) (f : Option Failure) :
    endOfInput c f = (none, some (Failure.miss c [.endOfInput] f)) := by
  obtain ⟨d, ds, hrest⟩ := List.exists_cons_of_ne_nil h
  simp only [endOfInput, hrest]

theorem regular_endOfInput : Regular endOfInput where
  takes h := by
    rcases cases_endOfInput h with ⟨hrest, hr, -⟩ | ⟨-, hr, -⟩
    · obtain ⟨⟨-, rfl⟩⟩ := hr
      exact ⟨[], Cursor.between_self _, hrest ▸ takes_endOfInput⟩
    · cases hr
  fails {c f f'} h offset f := by
    rcases cases_endOfInput h with ⟨-, hr, -⟩ | ⟨hrest, -, -⟩
    · cases hr
    · exact ⟨_, endOfInput_of_ne_nil (c := ⟨c.rest, offset⟩) hrest f⟩
  keeps h hn := by
    rcases cases_endOfInput h with ⟨-, -, rfl⟩ | ⟨-, -, rfl⟩
    · exact hn
    · exact Failure.reaches_miss.2 (.inr hn)
  reports h := by
    rcases cases_endOfInput h with ⟨-, hr, -⟩ | ⟨-, -, rfl⟩
    · cases hr
    · exact Failure.reaches_miss.2 (.inl (Nat.le_refl _))

theorem truthful_endOfInput (t : List Char) : Truthful t endOfInput where
  stays h hc := by
    rcases cases_endOfInput h with ⟨-, hr, -⟩ | ⟨-, hr, -⟩
    · obtain ⟨⟨-, rfl⟩⟩ := hr
      exact hc
    · cases hr
  honest h hc hf := by
    rcases cases_endOfInput h with ⟨-, -, rfl⟩ | ⟨-, -, rfl⟩
    · exact hf
    · exact hc.honest_report (reports_miss _) hf

theorem blind_endOfInput {w w' : List Char} {n : Nat} {c' : Cursor} (hc : Alike w w' n c c')
    (h : endOfInput c f = (none, f')) (hn : ¬ Reaches n f') : endOfInput c' f = (none, f') := by
  rcases cases_endOfInput h with ⟨-, hr, -⟩ | ⟨hrest, -, rfl⟩
  · cases hr
  · have hlt : c.offset < n := Nat.lt_of_not_le fun hle => hn (Failure.reaches_miss.2 (.inl hle))
    have hhead := hc.head? hlt
    have hrest' : c'.rest ≠ [] := by
      rwa [ne_eq, ← List.head?_eq_none_iff, hhead, List.head?_eq_none_iff]
    rw [endOfInput_of_ne_nil hrest', (reports_miss _).congr f hc.offset_eq hhead]

theorem stopsAt_endOfInput {m : Nat} {u : List Char} {a : α}
    (h : StopsAt m (endOfInput >>= fun _ => pure a) u) : u = [] := by
  obtain ⟨-, -, -, hrun, hbelow, hhere, -, -⟩ := h
  rcases cases_bind hrun with ⟨hend, -⟩ | ⟨_, c₁, f₁, hend, hpure⟩
  · rcases cases_endOfInput hend with ⟨-, hr, -⟩ | ⟨-, -, rfl⟩
    · cases hr
    · have hle := (Failure.reaches_miss.1 hhere).resolve_right hbelow
      exact eq_nil_of_byteSize (by omega)
  · rcases cases_endOfInput hend with ⟨-, -, rfl⟩ | ⟨-, hr, -⟩
    · cases hpure
      exact absurd hhere hbelow
    · cases hr

/-! ## Whole texts -/

/-- Reads a text and its end. -/
def whole (p : Reader α) : Reader α := do
  let a ← p
  endOfInput
  return a

variable {text : String} {g : Failure} {e : LexError}

theorem regular_whole (hp : Regular p) : Regular (whole p) :=
  hp.bind fun a => regular_endOfInput.bind fun _ => .pure a

theorem parse_eq (p : Reader α) (text : String) :
    p.parse text = match whole p ⟨text.toList, 0⟩ none with
      | (some (a, _), _) => .ok a
      | (none, some f) => .error (.ofFailure f)
      | (none, none) => .error (.ofFailure (Failure.expected (.ofString text) [])) := rfl

/-- The error is the pending failure: there is one. -/
theorem parse_eq_error_iff (hp : Regular p) : p.parse text = .error e ↔
    ∃ g, whole p ⟨text.toList, 0⟩ none = (none, some g) ∧ LexError.ofFailure g = e := by
  rw [parse_eq]
  rcases hwhole : whole p ⟨text.toList, 0⟩ none with ⟨_ | ⟨a, c⟩, _ | g⟩
  · obtain ⟨g, hg, -⟩ := (regular_whole hp).reports hwhole
    cases hg
  · simp
  · simp
  · simp

section Composed

variable [hp : Composed p] {cs : List Char} {d : Char}

/-- The pending failure of a rejected text describes it. -/
theorem honest_whole (h : whole p ⟨cs, 0⟩ none = (none, some g)) :
    Missed cs g ∨ OutOfRange cs g := by
  have hwhole : Truthful cs (whole p) :=
    hp.truthful.bind fun a => (truthful_endOfInput cs).bind fun _ => .pure a
  exact hwhole.honest h (onText_start cs) (honest_none cs) g rfl

theorem exists_append_of_whole (h : whole p ⟨cs, 0⟩ none = (none, some g))
    (hd : g.reason.found = some d) :
    ∃ u w, cs = u ++ d :: w ∧ byteSize u = g.start ∧ WidthsFit u (d :: w) := by
  rcases honest_whole h with ⟨c, items, ⟨u, hu, hfit⟩, rfl⟩ | ⟨c, c', -, -, -, rfl⟩
  · obtain ⟨w, hw⟩ := List.head?_eq_some_iff.1 hd
    refine ⟨u, w, hw ▸ hu.rest, ?_, hw ▸ hfit⟩
    exact (Nat.zero_add _).symm.trans hu.offset.symm
  · cases hd

theorem whole_append {u w w' : List Char} (h : whole p ⟨u ++ d :: w, 0⟩ none = (none, some g))
    (hu : byteSize u = g.start) (hfit : WidthsFit u (d :: w)) :
    whole p ⟨u ++ d :: w', 0⟩ none = (none, some g) := by
  have halike : Alike w w' (byteSize (u ++ [d])) ⟨u ++ d :: w, 0⟩ ⟨u ++ d :: w', 0⟩ :=
    ⟨u ++ [d], by simp, by simp, rfl, Nat.zero_add _, hfit.snoc⟩
  have hn : ¬ Reaches (byteSize (u ++ [d])) (some g) := fun hn => by
    have hle := reaches_some.1 hn
    have := d.utf8Size_pos
    rw [byteSize_append, byteSize_cons] at hle
    omega
  refine hp.blind.bind_fails (fun a => regular_endOfInput.bind fun _ => .pure a) halike h hn
    fun hc₁ _ hend => ?_
  rcases cases_bind hend with ⟨hend, -⟩ | ⟨_, _, _, -, hpure⟩
  · exact bind_of_none (blind_endOfInput hc₁ hend hn)
  · cases hpure

theorem exists_parse_append {u w : List Char}
    (hstop : ∀ {m}, StopsAt m p u → Completes p u)
    (h : whole p ⟨u ++ w, 0⟩ none = (none, some g)) (hu : byteSize u = g.start)
    (hfit : WidthsFit u w) : ∃ ds a, p.parse (String.ofList (u ++ ds)) = .ok a := by
  have hwhole : StopsAt ((u ++ w).length + 1) (whole p) u :=
    ⟨rfl, Nat.lt_succ_self _, hfit, h, not_reaches_none _, reaches_some.2 (by simp [hu]),
      fun hn => absurd (reaches_some.1 hn) (by simp [hu]), by rintro _ _ ⟨⟩⟩
  have htakes : ∃ ds a, p.Takes (u ++ ds) [] a := by
    rcases hwhole.of_bind_regular hp.regular (fun _ _ _ => hp.blind)
      fun a => regular_endOfInput.bind fun _ => .pure a with hone | ⟨cs, us, a, rfl, hone, hend⟩
    · obtain ⟨ds, a, htakes⟩ := hstop hone
      exact ⟨ds, a, htakes [] closing_nil⟩
    · obtain rfl : us = [] := stopsAt_endOfInput hend
      have htakes := hone [] fun _ => closing_nil.noSpace
      exact ⟨[], a, by rwa [List.append_nil, List.append_nil]⟩
  obtain ⟨ds, a, htakes⟩ := htakes
  exact ⟨ds, a, Takes.parse (by rwa [String.toList_ofList])⟩

theorem correctPrefix_parse (hstop : ∀ {m u}, StopsAt m p u → Completes p u) :
    CorrectPrefix p.parse := by
  intro text e d h hd
  obtain ⟨g, hg, rfl⟩ := (parse_eq_error_iff hp.regular).1 h
  obtain ⟨u, w, htext, hu, hfit⟩ := exists_append_of_whole hg hd
  rw [htext] at hg
  refine ⟨u, ⟨w, by rw [htext, List.append_assoc, List.singleton_append]⟩, hu, ?_, ?_⟩
  · rintro text' ⟨w', htext'⟩
    refine (parse_eq_error_iff hp.regular).2 ⟨g, ?_, rfl⟩
    rw [← htext', List.append_assoc, List.singleton_append]
    exact whole_append hg hu hfit
  · obtain ⟨ds, a, hparse⟩ := exists_parse_append hstop hg hu hfit
    exact ⟨_, a, ⟨ds, String.toList_ofList.symm⟩, hparse⟩

end Composed

end Reader

/-- One place in a text has one text before it. -/
theorem eq_of_byteSize {u v t : List Char} {d : Char} (hu : u ++ [d] <+: t) (hv : v <+: t)
    (h : byteSize u = byteSize v) : u = v := by
  obtain ⟨us, rfl⟩ := (List.prefix_append u [d]).trans hu
  obtain ⟨vs, hvs⟩ := hv
  exact eq_of_append_eq hvs.symm h

open Reader

/-- Wherever the reading of an expression or of forms ends at a character, that character is the
first wrong one. A width out of range in front of it is no exception: such an error tells no
character. -/
theorem correctPrefix : CorrectPrefix Expr.read ∧ CorrectPrefix App.readAll :=
  ⟨correctPrefix_parse (stopsAt_spaced opens_expr (stopsAt_expr _)),
    correctPrefix_parse stopsAt_forms⟩

/-- No argument begins with a number sign, and no form with a name, whatever stands behind it. -/
theorem correctPrefix_numberSign :
    (∃ e, Expr.read "(add x #)" = .error e ∧ e.found = some '#' ∧
      (∀ text, "(add x #".toList <+: text.toList → Expr.read text = .error e) ∧
      ∃ text a, "(add x ".toList <+: text.toList ∧ Expr.read text = .ok a) ∧
    ∃ e, App.readAll "(f x) y" = .error e ∧ e.found = some 'y' ∧
      (∀ text, "(f x) y".toList <+: text.toList → App.readAll text = .error e) ∧
      ∃ text as, "(f x) ".toList <+: text.toList ∧ App.readAll text = .ok as := by
  have hexpr : Expr.read "(add x #)"
      = .error ⟨some '#', 7, 8, "found '#' expected expression, or ')'"⟩ := by decide +kernel
  have hforms : App.readAll "(f x) y"
      = .error ⟨some 'y', 6, 7, "found 'y' expected top-level form, or end of input"⟩ := by
    decide +kernel
  obtain ⟨u, hu, hsize, hrejected, haccepted⟩ := correctPrefix.1 hexpr rfl
  obtain ⟨v, hv, hsize', hrejected', haccepted'⟩ := correctPrefix.2 hforms rfl
  obtain rfl : u = "(add x ".toList := eq_of_byteSize hu (by decide) hsize
  obtain rfl : v = "(f x) ".toList := eq_of_byteSize hv (by decide) hsize'
  exact ⟨⟨_, hexpr, rfl, hrejected, haccepted⟩, ⟨_, hforms, rfl, hrejected', haccepted'⟩⟩

end BitSynth
