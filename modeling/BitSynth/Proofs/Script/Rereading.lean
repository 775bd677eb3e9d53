import BitSynth.Proofs.Expr.Parts
import BitSynth.Proofs.Outcome
import BitSynth.Proofs.Reader.Printing
import BitSynth.Script

/-!
# Expressions of scripts read again

A script has the expressions of its program, written alike except for the bounds of extractions:
those lose their widths. So the text of an expression in a script is that of the expression with bare
bounds (`text_exprTerm`), which is what is read from it (`read_exprTerm`).
-/

namespace BitSynth

/-- The literal without its width. -/
def Literal.bare (l : Literal) : Literal := { l with width := none }

namespace Expr

/-- The arguments of an application, with bare bounds if it is an extraction. -/
def bareArgs (op : Ident) (args : List Expr) : List Expr :=
  match Extraction.ofApp? op args with
  | some x => [.literal x.low.bare, .literal x.high.bare, x.operand]
  | none => args

mutual

/-- The expression with the bounds of all extractions in it bare. -/
def bareBounds : Expr → Expr
  | .ident x => .ident x
  | .literal l => .literal l
  | .app op args => .app op (bareArgs op (bareBoundsAll args))

def bareBoundsAll : List Expr → List Expr
  | [] => []
  | e :: es => bareBounds e :: bareBoundsAll es

end

/-- No bound of an extraction in the expression has a width. -/
def HasBareBounds (e : Expr) : Prop :=
  ∀ a ∈ e.applications, ∀ x ∈ Extraction.ofApp? a.op a.args,
    x.low.width = none ∧ x.high.width = none

/-! ## Bare bounds -/

theorem ofApp?_extraction {op : Ident} (h : op.name = Extraction.operator) (low high : Literal)
    (e : Expr) : Extraction.ofApp? op [literal low, literal high, e] = some ⟨low, high, e⟩ := by
  rw [Extraction.ofApp?, if_pos h, Extraction.ofArgs?]

theorem ofApp?_eq_none {op : Ident} {args : List Expr}
    (h : op.name = Extraction.operator → Extraction.ofArgs? args = none) :
    Extraction.ofApp? op args = none := by
  unfold Extraction.ofApp?
  split_ifs with hop
  · exact h hop
  · rfl

theorem bareBounds_extraction {op : Ident} (h : op.name = Extraction.operator) (low high : Literal)
    (e : Expr) : (app op [literal low, literal high, e]).bareBounds
      = app op [literal low.bare, literal high.bare, e.bareBounds] := by
  simp only [bareBounds, bareBoundsAll, bareArgs, ofApp?_extraction h]

theorem eq_literal_of_bareBounds {l : Literal} : ∀ {e : Expr}, e.bareBounds = literal l →
    e = literal l
  | .literal _, h => h
  | .ident _, h => by cases h
  | .app _ _, h => by cases h

theorem length_bareBoundsAll (es : List Expr) : (bareBoundsAll es).length = es.length := by
  induction es with
  | nil => rfl
  | cons e es ih => rw [bareBoundsAll, List.length_cons, List.length_cons, ih]

theorem ofArgs?_bareBoundsAll {args : List Expr} (h : Extraction.ofArgs? args = none) :
    Extraction.ofArgs? (bareBoundsAll args) = none := by
  rw [Option.eq_none_iff_forall_ne_some] at h ⊢
  intro x hx
  rw [Extraction.ofArgs?_eq_some_iff] at hx
  have hlength : args.length = 3 := by rw [← length_bareBoundsAll, hx]; rfl
  obtain ⟨low, high, e, rfl⟩ := List.length_eq_three.1 hlength
  simp only [bareBoundsAll, List.cons.injEq, and_true] at hx
  obtain ⟨hlow, hhigh, -⟩ := hx
  refine h ⟨x.low, x.high, e⟩ (Extraction.ofArgs?_eq_some_iff.2 ?_)
  rw [eq_literal_of_bareBounds hlow, eq_literal_of_bareBounds hhigh]

theorem bareBounds_app {op : Ident} {args : List Expr}
    (h : op.name = Extraction.operator → Extraction.ofArgs? args = none) :
    (app op args).bareBounds = app op (bareBoundsAll args) := by
  simp only [bareBounds, bareArgs, ofApp?_eq_none fun hop => ofArgs?_bareBoundsAll (h hop)]

theorem bare_eq_self_iff {l : Literal} : l.bare = l ↔ l.width = none := by
  obtain ⟨value, width⟩ := l
  simp [Literal.bare, eq_comm]

theorem hasBareBounds_app_iff {op : Ident} {args : List Expr} : (app op args).HasBareBounds ↔
    (∀ x ∈ Extraction.ofApp? op args, x.low.width = none ∧ x.high.width = none)
      ∧ ∀ e ∈ args, e.HasBareBounds := by
  have hargs (es : List Expr) : (∀ a ∈ applicationsAll es, ∀ x ∈ Extraction.ofApp? a.op a.args,
      x.low.width = none ∧ x.high.width = none) ↔ ∀ e ∈ es, e.HasBareBounds := by
    induction es with
    | nil => simp [applicationsAll]
    | cons e es ih =>
      rw [applicationsAll, List.forall_mem_append, ih, List.forall_mem_cons]
      rfl
  rw [HasBareBounds, applications, List.forall_mem_cons, hargs]

theorem hasBareBounds_literal (l : Literal) : (literal l).HasBareBounds := by
  simp [HasBareBounds, applications]

mutual

/-- Only what has a bound with a width is changed. -/
theorem bareBounds_eq_self_iff : ∀ {e : Expr}, e.bareBounds = e ↔ e.HasBareBounds
  | .ident x => by simp [bareBounds, HasBareBounds, applications]
  | .literal l => by simp [bareBounds, HasBareBounds, applications]
  | .app op args => by
    rw [hasBareBounds_app_iff]
    rcases parts_app_cases op args with ⟨hop, low, high, e, rfl⟩ | ⟨hnone, -⟩
    · rw [bareBounds_extraction hop, ofApp?_extraction hop]
      simp [bare_eq_self_iff, bareBounds_eq_self_iff (e := e), hasBareBounds_literal, and_assoc]
    · rw [bareBounds_app hnone, ofApp?_eq_none hnone, app.injEq, bareBoundsAll_eq_self_iff]
      simp

theorem bareBoundsAll_eq_self_iff : ∀ {es : List Expr},
    bareBoundsAll es = es ↔ ∀ e ∈ es, e.HasBareBounds
  | [] => by simp [bareBoundsAll]
  | e :: es => by
    rw [bareBoundsAll, List.cons.injEq, bareBounds_eq_self_iff, bareBoundsAll_eq_self_iff,
      List.forall_mem_cons]

end

theorem valid_bare (l : Literal) : l.bare.Valid := by
  rintro w ⟨⟩

mutual

theorem Valid.bareBounds : ∀ {e : Expr}, e.Valid → e.bareBounds.Valid
  | .ident x, h => h
  | .literal l, h => h
  | .app op args, h => by
    rcases parts_app_cases op args with ⟨hop, low, high, e, rfl⟩ | ⟨hnone, -⟩
    · rw [bareBounds_extraction hop]
      exact ⟨h.1, valid_bare low, valid_bare high, Valid.bareBounds h.2.2.2.1, trivial⟩
    · rw [bareBounds_app hnone]
      exact ⟨h.1, AllValid.bareBoundsAll h.2⟩

theorem AllValid.bareBoundsAll : ∀ {es : List Expr}, AllValid es → AllValid (bareBoundsAll es)
  | [], _ => trivial
  | _ :: _, h => ⟨Valid.bareBounds h.1, AllValid.bareBoundsAll h.2⟩

end

/-- A valid expression is read back from its own text. -/
theorem Valid.read {e : Expr} (h : e.Valid) : Expr.read e.text = .ok e := by
  have hspells := Reader.spells_text h
  have htakes : Reader.expr.Takes e.text.toList [] e :=
    Reader.takes_expr hspells (.inr (by rintro c ⟨⟩))
  refine Reader.Takes.parse ?_
  have hspaced := Reader.Takes.spaced_nil (List.forall_mem_nil _) (hspells.noSpace [])
    (by rintro c ⟨⟩) htakes
  rwa [List.append_nil] at hspaced

end Expr

namespace Script

/-! ## What a script has for an expression -/

section Applications

variable {op : Ident} {args : List Expr} {t : Term}

theorem exprTerm_extraction_eq_ok_iff (hop : op.name = Extraction.operator) {low high : Literal}
    {e : Expr} : exprTerm (.app op [.literal low, .literal high, e]) = .ok t ↔
      ∃ u, exprTerm e = .ok u
        ∧ t = .app op.name [.atom (toString low.value), .atom (toString high.value), u] := by
  rw [exprTerm, if_pos hop, bind_eq_ok_iff]
  refine exists_congr fun u => and_congr_right fun _ => ⟨fun h => (Except.ok.inj h).symm, ?_⟩
  rintro rfl
  rfl

theorem exprTerm_app_eq_ok_iff
    (hnone : op.name = Extraction.operator → Extraction.ofArgs? args = none) :
    exprTerm (.app op args) = .ok t ↔
      op.name ≠ Extraction.operator ∧ ∃ ts, exprTerms args = .ok ts ∧ t = .app op.name ts := by
  rw [exprTerm.eq_def]
  by_cases hop : op.name = Extraction.operator
  · simp only [if_pos hop]
    split
    · cases hnone hop
    · simp [hop]
  · simp only [if_neg hop, bind_eq_ok_iff]
    refine ⟨?_, ?_⟩
    · rintro ⟨ts, hts, h⟩
      exact ⟨hop, ts, hts, (Except.ok.inj h).symm⟩
    · rintro ⟨-, ts, hts, rfl⟩
      exact ⟨ts, hts, rfl⟩

end Applications

theorem exprTerms_cons_eq_ok_iff {e : Expr} {es : List Expr} {us : List Term} :
    exprTerms (e :: es) = .ok us ↔
      ∃ t ts, exprTerm e = .ok t ∧ exprTerms es = .ok ts ∧ us = t :: ts := by
  simp only [exprTerms, bind_eq_ok_iff]
  refine ⟨?_, ?_⟩
  · rintro ⟨t, ht, ts, hts, h⟩
    exact ⟨t, ts, ht, hts, (Except.ok.inj h).symm⟩
  · rintro ⟨t, ts, ht, hts, rfl⟩
    exact ⟨t, ht, ts, hts, rfl⟩

mutual

/-- A script has the text of the expression with bare bounds. -/
theorem text_exprTerm : ∀ {e : Expr} {t : Term}, exprTerm e = .ok t → t.text = e.bareBounds.text
  | .ident x, _, h => by
    obtain rfl := Except.ok.inj h
    rfl
  | .literal l, _, h => by
    obtain rfl := Except.ok.inj h
    rfl
  | .app op args, t, h => by
    rcases Expr.parts_app_cases op args with ⟨hop, low, high, e, rfl⟩ | ⟨hnone, -⟩
    · obtain ⟨u, hu, rfl⟩ := (exprTerm_extraction_eq_ok_iff hop).1 h
      rw [Expr.bareBounds_extraction hop]
      simp only [Term.app, Term.text, Term.textAfter, Expr.text, Expr.textArgs, text_exprTerm hu,
        Literal.text, Literal.bare]
    · obtain ⟨-, ts, hts, rfl⟩ := (exprTerm_app_eq_ok_iff hnone).1 h
      rw [Expr.bareBounds_app hnone, Expr.text, Term.app, Term.text, textAfter_exprTerms hts]
      rfl

theorem textAfter_exprTerms : ∀ {es : List Expr} {ts : List Term}, exprTerms es = .ok ts →
    Term.textAfter ts = Expr.textArgs (Expr.bareBoundsAll es)
  | [], _, h => by
    obtain rfl := Except.ok.inj h
    rfl
  | e :: es, _, h => by
    obtain ⟨t, ts, ht, hts, rfl⟩ := exprTerms_cons_eq_ok_iff.1 h
    rw [Term.textAfter, Expr.bareBoundsAll, Expr.textArgs, text_exprTerm ht,
      textAfter_exprTerms hts]

end

mutual

/-- A script has the same for the expression with bare bounds. -/
theorem exprTerm_bareBounds : ∀ {e : Expr} {t : Term}, exprTerm e = .ok t →
    exprTerm e.bareBounds = .ok t
  | .ident _, _, h => h
  | .literal _, _, h => h
  | .app op args, t, h => by
    rcases Expr.parts_app_cases op args with ⟨hop, low, high, e, rfl⟩ | ⟨hnone, -⟩
    · obtain ⟨u, hu, rfl⟩ := (exprTerm_extraction_eq_ok_iff hop).1 h
      rw [Expr.bareBounds_extraction hop]
      exact (exprTerm_extraction_eq_ok_iff hop).2 ⟨u, exprTerm_bareBounds hu, rfl⟩
    · obtain ⟨hop, ts, hts, rfl⟩ := (exprTerm_app_eq_ok_iff hnone).1 h
      rw [Expr.bareBounds_app hnone]
      exact (exprTerm_app_eq_ok_iff fun hop' => absurd hop' hop).2
        ⟨hop, ts, exprTerms_bareBoundsAll hts, rfl⟩

theorem exprTerms_bareBoundsAll : ∀ {es : List Expr} {ts : List Term}, exprTerms es = .ok ts →
    exprTerms (Expr.bareBoundsAll es) = .ok ts
  | [], _, h => h
  | e :: es, _, h => by
    obtain ⟨t, ts, ht, hts, rfl⟩ := exprTerms_cons_eq_ok_iff.1 h
    exact exprTerms_cons_eq_ok_iff.2
      ⟨t, ts, exprTerm_bareBounds ht, exprTerms_bareBoundsAll hts, rfl⟩

end

/-- What is read from a script is the expression with bare bounds, for which the script would be the
same. The expression has the text that the script has for it exactly if its bounds are bare. -/
theorem read_exprTerm {e : Expr} {t : Term} (he : e.Valid) (h : exprTerm e = .ok t) :
    Expr.read t.text = .ok e.bareBounds ∧ exprTerm e.bareBounds = .ok t
      ∧ (t.text = e.text ↔ e.HasBareBounds) := by
  have hread : Expr.read t.text = .ok e.bareBounds := by
    rw [text_exprTerm h]
    exact he.bareBounds.read
  refine ⟨hread, exprTerm_bareBounds h, ?_⟩
  rw [← Expr.bareBounds_eq_self_iff]
  constructor
  · intro htext
    rw [htext, he.read] at hread
    exact (Except.ok.inj hread).symm
  · intro hself
    rw [text_exprTerm h, hself]

/-- An extraction from an extraction, beside a function without arguments. -/
def nestedExtraction : Expr :=
  .app ⟨"add"⟩ [.app ⟨"f"⟩ [], .app ⟨"extract"⟩ [.literal ⟨0, some 8⟩, .literal ⟨3, none⟩,
    .app ⟨"extract"⟩ [.literal ⟨-1, some 4⟩, .literal ⟨2, none⟩, .literal ⟨-5, some 8⟩]]]

/-- The bounds lose their widths, and the operand keeps its own. -/
theorem read_exprTerm_nestedExtraction : nestedExtraction.Valid
    ∧ nestedExtraction.text = "(add (f) (extract 0:8 3 (extract -1:4 2 -5:8)))"
    ∧ ∃ t, exprTerm nestedExtraction = .ok t
      ∧ t.text = "(add (f) (extract 0 3 (extract -1 2 -5:8)))"
      ∧ Expr.read t.text = .ok nestedExtraction.bareBounds
      ∧ exprTerm nestedExtraction.bareBounds = .ok t ∧ ¬ nestedExtraction.HasBareBounds := by
  have hvalid : nestedExtraction.Valid := by decide
  have htext : nestedExtraction.text = "(add (f) (extract 0:8 3 (extract -1:4 2 -5:8)))" := by
    decide
  obtain ⟨t, ht, hterm⟩ : ∃ t, exprTerm nestedExtraction = .ok t
      ∧ t.text = "(add (f) (extract 0 3 (extract -1 2 -5:8)))" := ⟨_, rfl, by decide⟩
  obtain ⟨hread, hagain, hbare⟩ := read_exprTerm hvalid ht
  refine ⟨hvalid, htext, t, ht, hterm, hread, hagain, fun h => ?_⟩
  have hsame := hbare.2 h
  rw [hterm, htext] at hsame
  exact absurd hsame (by decide)

end Script

end BitSynth
