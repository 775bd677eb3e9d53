import BitSynth.Proofs.Encoder.BitStrings
import BitSynth.Proofs.Expr.Parts
import BitSynth.Script

/-!
# What is refused

An expression is refused for one of its parts: for an extraction that is malformed, or, by the
encoder alone, for a literal that its width does not take. Each such objection concerns a part by
itself, and the error is that of the first part in the expression that there is an objection to
(`Encoder.failure?_encodeFor`, `Script.failure?_exprTerm`).
-/

namespace BitSynth

open Logged

namespace Encoder

variable (e : Encoder)

/-- What the encoder has against a part of an expression, apart from those of its arguments. -/
def objection? : Expr → Option Error
  | .ident _ => none
  | .literal l =>
    let width := l.width.getD e.bitWidth
    if width = 0 then some (.zeroWidthLiteral l.value)
    else if e.policy = .strict ∧ ¬ Bits.Fits l.value width then some (.literalRange l.value width)
    else none
  | .app op args =>
    if App.IsMalformed ⟨op, args⟩ then some (.malformedExtract ⟨op, args⟩) else none

theorem objection?_literal_eq_none_iff {l : Literal} : e.objection? (.literal l) = none ↔
    l.width.getD e.bitWidth ≠ 0 ∧ (e.policy = .strict →
      -(Bits.modulus (l.width.getD e.bitWidth - 1) : Int) ≤ l.value
        ∧ l.value < Bits.modulus (l.width.getD e.bitWidth)) := by
  by_cases hzero : l.width.getD e.bitWidth = 0
  · simp [objection?, hzero]
  · rw [← Bits.fits_iff (Nat.pos_of_ne_zero hzero)]
    simp [objection?, hzero]

theorem objection?_app_eq_none_iff {op : Ident} {args : List Expr} :
    e.objection? (.app op args) = none ↔ ¬ App.IsMalformed ⟨op, args⟩ := by
  simp [objection?]

theorem failure?_encodeLiteral (l : Literal) :
    failure? (e.encodeLiteral l).result = e.objection? (.literal l) := by
  rw [encodeLiteral, encodeBits, result_bind, failure?_bind (o := none) fun _ => rfl, Option.or_none]
  simp only [objection?]
  by_cases hzero : l.width.getD e.bitWidth = 0
  · rw [checkFit, if_pos hzero, if_pos hzero]
    rfl
  · have hwidth := Nat.pos_of_ne_zero hzero
    rw [if_neg hzero, result_checkFit hwidth]
    split_ifs <;> rfl

mutual

/-- The encoder goes through the parts of an expression in their order. -/
theorem failure?_encodeFor : ∀ (use : Operator.Use) (x : Expr),
    failure? (e.encodeFor use x).result = x.parts.findSome? e.objection?
  | use, .ident x => by
    rw [encodeFor, Expr.parts]
    rfl
  | use, .literal l => by
    rw [encodeFor, result_bind, failure?_bind (o := none) fun _ => rfl, Option.or_none,
      failure?_encodeLiteral, Expr.parts, List.findSome?_singleton]
  | use, .app op args => by
    rcases Expr.parts_app_cases op args with ⟨hop, low, high, x, rfl⟩ | ⟨hnone, hparts⟩
    · have hself : e.objection? (.app op [.literal low, .literal high, x]) = none :=
        e.objection?_app_eq_none_iff.2 (by rintro ⟨-, ⟨⟩⟩)
      rw [Expr.parts_extraction hop, List.findSome?_cons, hself, encodeFor, if_pos hop,
        result_bind, failure?_bind (o := none) fun _ => rfl, Option.or_none]
      exact failure?_encodeFor .value x
    · rw [hparts, List.findSome?_cons]
      by_cases hop : op.name = Extraction.operator
      · rw [objection?, if_pos ⟨hop, hnone hop⟩, encodeFor.eq_def]
        simp only [if_pos hop]
        split
        · cases hnone hop
        · rfl
      · rw [e.objection?_app_eq_none_iff.2 fun h => hop h.1, encodeFor.eq_def]
        simp only [if_neg hop]
        rw [result_bind, failure?_bind (o := none) fun _ => rfl, Option.or_none]
        exact failure?_encodeArgs _ args

theorem failure?_encodeArgs : ∀ (first : Operator.Use) (xs : List Expr),
    failure? (e.encodeArgs first xs).result = (Expr.partsAll xs).findSome? e.objection?
  | first, [] => by
    rw [encodeArgs, Expr.partsAll]
    rfl
  | first, x :: xs => by
    have hrest (t : Term) : failure? (e.encodeArgs .value xs >>= fun ts => pure (t :: ts)).result
        = (Expr.partsAll xs).findSome? e.objection? := by
      rw [result_bind, failure?_bind (o := none) fun _ => rfl, Option.or_none]
      exact failure?_encodeArgs .value xs
    rw [encodeArgs, result_bind, failure?_bind hrest, failure?_encodeFor first x, Expr.partsAll,
      List.findSome?_append]

end

/-- The encoder has nothing against an expression if its extractions are well-formed and the other
literals have widths that take them. -/
theorem forall_parts_iff {x : Expr} : (∀ y ∈ x.parts, e.objection? y = none) ↔
    x.WellBounded ∧ ∀ l, .literal l ∈ x.parts → e.objection? (.literal l) = none := by
  constructor
  · refine fun h => ⟨fun a ha => ?_, fun l hl => h _ hl⟩
    exact e.objection?_app_eq_none_iff.1 (h a.toExpr (Expr.app_mem_parts_iff.2 ha))
  · rintro ⟨hbounds, hliterals⟩ y hy
    cases y with
    | ident x => rfl
    | literal l => exact hliterals l hy
    | app op args =>
      exact e.objection?_app_eq_none_iff.2 (hbounds ⟨op, args⟩ (Expr.app_mem_parts_iff.1 hy))

variable {e}

theorem exists_encodeFor_iff {use : Operator.Use} {x : Expr} :
    (∃ t, (e.encodeFor use x).result = .ok t) ↔
      x.WellBounded ∧ ∀ l, .literal l ∈ x.parts → e.objection? (.literal l) = none := by
  rw [← failure?_eq_none_iff, failure?_encodeFor, List.findSome?_eq_none_iff, forall_parts_iff]

theorem wellBounded_of_encodeFor {use : Operator.Use} {x : Expr} {t : Term}
    (h : (e.encodeFor use x).result = .ok t) : x.WellBounded := (exists_encodeFor_iff.1 ⟨t, h⟩).1

end Encoder

namespace Script

mutual

/-- A script is missing for the first malformed extraction. -/
theorem failure?_exprTerm : ∀ x : Expr, failure? (exprTerm x)
    = (x.applications.find? (·.IsMalformed)).map .malformedExtract
  | .ident x => by
    rw [exprTerm, Expr.applications]
    rfl
  | .literal l => by
    rw [exprTerm, Expr.applications]
    rfl
  | .app op args => by
    rcases Expr.parts_app_cases op args with ⟨hop, low, high, x, rfl⟩ | ⟨hnone, -⟩
    · have hself : ¬ App.IsMalformed ⟨op, [.literal low, .literal high, x]⟩ := by
        rintro ⟨-, ⟨⟩⟩
      rw [Expr.applications, List.find?_cons_of_neg (by simpa using hself), exprTerm, if_pos hop,
        failure?_bind (o := none) fun _ => rfl, Option.or_none]
      simp only [Expr.applicationsAll, Expr.applications, List.nil_append, List.append_nil]
      exact failure?_exprTerm x
    · by_cases hop : op.name = Extraction.operator
      · have hself : App.IsMalformed ⟨op, args⟩ := ⟨hop, hnone hop⟩
        rw [Expr.applications, List.find?_cons_of_pos (by simpa using hself), exprTerm.eq_def]
        simp only [if_pos hop]
        split
        · cases hnone hop
        · rfl
      · have hself : ¬ App.IsMalformed ⟨op, args⟩ := fun h => hop h.1
        rw [Expr.applications, List.find?_cons_of_neg (by simpa using hself), exprTerm.eq_def]
        simp only [if_neg hop]
        rw [failure?_bind (o := none) fun _ => rfl, Option.or_none]
        exact failure?_exprTerms args

theorem failure?_exprTerms : ∀ xs : List Expr, failure? (exprTerms xs)
    = ((Expr.applicationsAll xs).find? (·.IsMalformed)).map .malformedExtract
  | [] => by
    rw [exprTerms, Expr.applicationsAll]
    rfl
  | x :: xs => by
    have hrest (t : Term) : failure? (exprTerms xs >>= fun ts => pure (t :: ts))
        = ((Expr.applicationsAll xs).find? (·.IsMalformed)).map .malformedExtract := by
      rw [failure?_bind (o := none) fun _ => rfl, Option.or_none]
      exact failure?_exprTerms xs
    rw [exprTerms, failure?_bind hrest, failure?_exprTerm x, Expr.applicationsAll,
      List.find?_append]
    cases x.applications.find? (·.IsMalformed) <;> rfl

end

/-- A script is made of an expression exactly if no extraction is malformed. -/
theorem exists_exprTerm_iff {x : Expr} : (∃ t, exprTerm x = .ok t) ↔ x.WellBounded := by
  rw [← failure?_eq_none_iff, failure?_exprTerm, Option.map_eq_none_iff, List.find?_eq_none]
  simp only [decide_eq_true_eq]
  rfl

end Script

/-- The encoder takes an expression exactly if all extractions have two literal bounds and one
operand, and the width of every literal that is no such bound is positive and, for a strict encoder,
holds the literal. Otherwise the error is that of the first part that it objects to. For a script
the extractions alone matter, and the error is that of the first malformed one. -/
theorem Encoder.encode_refusal (e : Encoder) (x : Expr) :
    ((∃ t, (e.encode x).result = .ok t) ↔ x.WellBounded ∧ ∀ l : Literal, .literal l ∈ x.parts →
        l.width.getD e.bitWidth ≠ 0 ∧ (e.policy = .strict →
          -(Bits.modulus (l.width.getD e.bitWidth - 1) : Int) ≤ l.value
            ∧ l.value < Bits.modulus (l.width.getD e.bitWidth)))
      ∧ (∀ err, (e.encode x).result = .error err ↔ ∃ before y after,
          x.parts = before ++ y :: after ∧ e.objection? y = some err
            ∧ ∀ z ∈ before, e.objection? z = none)
      ∧ ((∃ t, Script.exprTerm x = .ok t) ↔ x.WellBounded)
      ∧ ∀ err, Script.exprTerm x = .error err ↔ ∃ before a after,
          x.applications = before ++ a :: after ∧ a.IsMalformed ∧ err = .malformedExtract a
            ∧ ∀ b ∈ before, ¬ b.IsMalformed := by
  refine ⟨?_, fun err => ?_, Script.exists_exprTerm_iff, fun err => ?_⟩
  · rw [encode, exists_encodeFor_iff]
    simp only [objection?_literal_eq_none_iff]
  · rw [← failure?_eq_some_iff, encode, failure?_encodeFor, List.findSome?_eq_some_iff]
  · rw [← failure?_eq_some_iff, Script.failure?_exprTerm, Option.map_eq_some_iff]
    simp only [List.find?_eq_some_iff_append, decide_eq_true_eq, Bool.not_eq_true',
      decide_eq_false_iff_not]
    constructor
    · rintro ⟨a, ⟨ha, before, after, hsplit, hbefore⟩, rfl⟩
      exact ⟨before, a, after, hsplit, ha, rfl, hbefore⟩
    · rintro ⟨before, a, after, hsplit, ha, rfl, hbefore⟩
      exact ⟨a, ⟨ha, before, after, hsplit, hbefore⟩, rfl⟩

end BitSynth
