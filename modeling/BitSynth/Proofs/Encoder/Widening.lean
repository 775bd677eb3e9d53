import BitSynth.Proofs.Encoder.Condition
import BitSynth.Proofs.Solver.Sorts

/-!
# Comparisons as values

The encoder makes a term of an expression part by part: what a part becomes stands in a place of its
own in the term (`Encoder.exists_within`). A comparison becomes a truth value in every place, also
in those where only a word fits. There it would have to be widened, and as it is not, the whole term
is no word (`Encoder.encode_relation_in_value`).
-/

namespace BitSynth

open Logged

/-! ## Truth among words -/

namespace SmtLib

variable {f : String} {ss ss' : List ValueSort} {σ τ : ValueSort} {n : Nat}

theorem commonSort?_eq_some_iff {ss : List ValueSort} :
    commonSort? ss = some σ ↔ 2 ≤ ss.length ∧ ∀ τ ∈ ss, τ = σ := by
  rcases ss with _ | ⟨τ, _ | ⟨υ, ss⟩⟩
  · simp [commonSort?]
  · simp [commonSort?]
  · rw [commonSort?]
    split_ifs with h
    · refine ⟨?_, fun h => congrArg some (h.2 τ (List.mem_cons_self ..))⟩
      rintro ⟨⟩
      exact ⟨by simp, List.forall_mem_cons.2 ⟨rfl, h⟩⟩
    · refine iff_of_false not_false ?_
      rintro ⟨-, hall⟩
      refine h fun φ hφ => ?_
      rw [hall φ (List.mem_cons_of_mem τ hφ), hall τ (List.mem_cons_self ..)]

/-- Only alone can both a word and a truth value be what all operands are. -/
theorem commonSort?_truth_of_word (h : commonSort? (ss ++ .word n :: ss') = some σ) :
    commonSort? (ss ++ .truth :: ss') = none := by
  rw [Option.eq_none_iff_forall_ne_some]
  intro τ h'
  obtain ⟨hlen, hall⟩ := commonSort?_eq_some_iff.1 h
  obtain ⟨-, hall'⟩ := commonSort?_eq_some_iff.1 h'
  simp only [List.forall_mem_append, List.forall_mem_cons] at hall hall'
  obtain ⟨hbefore, rfl, hafter⟩ := hall
  obtain ⟨hbefore', rfl, hafter'⟩ := hall'
  rcases ss with _ | ⟨υ, ss⟩
  · rcases ss' with _ | ⟨υ, ss'⟩
    · simp at hlen
    · cases (hafter υ (List.mem_cons_self ..)).symm.trans (hafter' υ (List.mem_cons_self ..))
  · cases (hbefore υ (List.mem_cons_self ..)).symm.trans (hbefore' υ (List.mem_cons_self ..))

theorem eq_of_resultSort?_ite (h : resultSort? "ite" ss = some σ) : ss = [.truth, σ, σ] := by
  unfold resultSort? at h
  rw [if_pos rfl] at h
  split at h
  · split_ifs at h with heq
    obtain rfl := Option.some.inj h
    rw [heq]
  · cases h

theorem eq_of_resultSort?_concat (h : resultSort? "concat" ss = some σ) :
    ∃ m n, ss = [.word m, .word n] := by
  unfold resultSort? at h
  rw [if_neg (by decide), if_pos rfl] at h
  split at h
  · exact ⟨_, _, rfl⟩
  · cases h

theorem eq_of_resultSort?_unary (hf : f ∈ unaryOperations) (h : resultSort? f ss = some σ) :
    ∃ n, ss = [.word n] := by
  have hne : ∀ f ∈ unaryOperations, f ≠ "ite" ∧ f ≠ "concat" := by decide
  unfold resultSort? at h
  rw [if_neg (hne f hf).1, if_neg (hne f hf).2, if_pos hf] at h
  split at h
  · exact ⟨_, rfl⟩
  · cases h

/-- No operation takes a truth value where it takes a word. -/
theorem resultSort?_truth_of_word (h : resultSort? f (ss ++ .word n :: ss') = some σ) :
    resultSort? f (ss ++ .truth :: ss') = none := by
  by_cases hite : f = "ite"
  · subst hite
    rw [Option.eq_none_iff_forall_ne_some]
    intro τ h'
    have hss := eq_of_resultSort?_ite h
    have hss' := eq_of_resultSort?_ite h'
    rcases ss with _ | ⟨a, _ | ⟨b, _ | ⟨c, ss⟩⟩⟩ <;>
      grind [List.append_eq_nil_iff]
  by_cases hconcat : f = "concat"
  · subst hconcat
    rw [Option.eq_none_iff_forall_ne_some]
    intro τ h'
    obtain ⟨k, m, hss⟩ := eq_of_resultSort?_concat h'
    rcases ss with _ | ⟨a, _ | ⟨b, ss⟩⟩ <;> simp_all
  by_cases hunary : f ∈ unaryOperations
  · rw [Option.eq_none_iff_forall_ne_some]
    intro τ h'
    obtain ⟨k, hss⟩ := eq_of_resultSort?_unary hunary h'
    rcases ss with _ | ⟨a, ss⟩ <;> simp_all
  · unfold resultSort? at h ⊢
    rw [if_neg hite, if_neg hconcat, if_neg hunary] at h ⊢
    obtain ⟨τ, hτ, -⟩ := Option.bind_eq_some_iff.1 h
    rw [commonSort?_truth_of_word hτ, Option.bind_none]

end SmtLib

theorem headSort?_truth_of_word {Γ : Declarations} {head : Term} {ss ss' : List ValueSort}
    {σ : ValueSort} {n : Nat} (h : headSort? Γ head (ss ++ .word n :: ss') = some σ) :
    headSort? Γ head (ss ++ .truth :: ss') = none := by
  cases head with
  | atom f =>
    cases hf : Γ f with
    | none =>
      rw [Term.headSort?_of_none hf] at h ⊢
      exact SmtLib.resultSort?_truth_of_word h
    | some d =>
      obtain ⟨params, τ⟩ := d
      rw [headSort?, hf] at h ⊢
      simp only at h ⊢
      split_ifs at h with hparams
      refine if_neg ?_
      rintro rfl
      simp at hparams
  | list items =>
    rcases ss with _ | ⟨a, ss⟩
    · unfold headSort?
      split <;> simp_all
    · unfold headSort? at h
      split at h <;> simp_all

/-! ## Places -/

/-- An application without one of its operands. -/
structure Expr.Frame where
  op : String
  before : List Expr
  after : List Expr

/-- A list of terms without one that is not its head. -/
structure Term.Frame where
  head : Term
  before : List Term
  after : List Term

namespace Expr

def Frame.fill (F : Frame) (x : Expr) : Expr := .app ⟨F.op⟩ (F.before ++ x :: F.after)

/-- What the missing operand is wanted for. -/
def Frame.use (F : Frame) : Operator.Use :=
  if F.op = Operator.ite ∧ F.before = [] then .condition else .value

/-- The expression within the given frames, the innermost of which is the first. -/
def within : List Frame → Expr → Expr
  | [], x => x
  | F :: Fs, x => within Fs (F.fill x)

theorem Frame.fill_ne_literal (F : Frame) (x : Expr) (l : Literal) : F.fill x ≠ .literal l := by
  rw [Frame.fill]
  exact Expr.noConfusion

def useWithin : List Frame → Operator.Use
  | [] => .value
  | F :: _ => F.use

end Expr

namespace Term

def Frame.fill (F : Frame) (t : Term) : Term := .list (F.head :: (F.before ++ t :: F.after))

def within : List Frame → Term → Term
  | [], t => t
  | F :: Fs, t => within Fs (F.fill t)

/-! ## Sorts -/

section Sorts

variable {Γ : Declarations} {t u : Term} {σ τ : ValueSort}

theorem sort?_fill (F : Frame) (t : Term) : sort? Γ (F.fill t) = (sorts? Γ F.before).bind fun ss =>
    (sort? Γ t).bind fun σ => (sorts? Γ F.after).bind fun ss' =>
      headSort? Γ F.head (ss ++ σ :: ss') := by
  rw [Frame.fill, sort?, sorts?_append, sorts?]
  cases sorts? Γ F.before with
  | none => rfl
  | some ss =>
    cases sort? Γ t with
    | none => rfl
    | some σ => cases sorts? Γ F.after <;> rfl

theorem sort?_within_congr : ∀ (Fs : List Frame) {t u : Term}, sort? Γ t = sort? Γ u →
    sort? Γ (within Fs t) = sort? Γ (within Fs u)
  | [], _, _, h => h
  | F :: Fs, t, u, h => by
    refine sort?_within_congr Fs ?_
    rw [sort?_fill, sort?_fill, h]

theorem sort?_within_eq_none : ∀ (Fs : List Frame) {t : Term}, sort? Γ t = none →
    sort? Γ (within Fs t) = none
  | [], _, h => h
  | F :: Fs, t, h => by
    refine sort?_within_eq_none Fs ?_
    rw [sort?_fill, h]
    cases sorts? Γ F.before <;> rfl

/-- A truth value in the place of a word leaves the term without a sort. -/
theorem sort?_fill_truth {F : Frame} {n : Nat} (ht : sort? Γ t = some (.word n))
    (hu : sort? Γ u = some .truth) (h : sort? Γ (F.fill t) = some σ) :
    sort? Γ (F.fill u) = none := by
  rw [sort?_fill, ht, Option.bind_eq_some_iff] at h
  obtain ⟨ss, hss, h⟩ := h
  rw [Option.bind_some, Option.bind_eq_some_iff] at h
  obtain ⟨ss', hss', h⟩ := h
  rw [sort?_fill, hss, hu, hss']
  exact headSort?_truth_of_word h

theorem sort?_within_truth {Fs : List Frame} {n : Nat} (ht : sort? Γ t = some (.word n))
    (hu : sort? Γ u = some .truth) (h : sort? Γ (within Fs t) = some σ) (width : Nat) :
    sort? Γ (within Fs u) ≠ some (.word width) := by
  cases Fs with
  | nil =>
    rw [within, hu]
    nofun
  | cons F Fs =>
    have hfill : ∃ τ, sort? Γ (F.fill t) = some τ := by
      rw [← Option.ne_none_iff_exists']
      intro hnone
      rw [within, sort?_within_eq_none Fs hnone] at h
      cases h
    obtain ⟨τ, hτ⟩ := hfill
    rw [within, sort?_within_eq_none Fs (sort?_fill_truth ht hu hτ)]
    nofun

end Sorts

end Term

/-! ## Encoding part by part -/

namespace Encoder

variable {e : Encoder} {use : Operator.Use} {x : Expr}

/-- What one operand becomes has a place of its own among the terms for all. -/
theorem exists_encodeArgs_place : ∀ {before : List Expr} {first : Operator.Use} {after : List Expr}
    {ts : List Term}, (e.encodeArgs first (before ++ x :: after)).result = .ok ts →
      ∃ before' t after', ts = before' ++ t :: after'
        ∧ (e.encodeFor (if before = [] then first else .value) x).result = .ok t
        ∧ ∀ y u, (e.encodeFor (if before = [] then first else .value) y).result = .ok u →
          (e.encodeArgs first (before ++ y :: after)).result = .ok (before' ++ u :: after')
  | [], first, after, ts, h => by
    rw [List.nil_append, encodeArgs] at h
    simp only [result_bind_eq_ok_iff, result_pure, Except.ok.injEq] at h
    obtain ⟨t, ht, ts', hts', rfl⟩ := h
    exact ⟨[], t, ts', rfl, ht, fun y u hu => result_encodeArgs_cons hu hts'⟩
  | b :: before, first, after, ts, h => by
    rw [List.cons_append, encodeArgs] at h
    simp only [result_bind_eq_ok_iff, result_pure, Except.ok.injEq] at h
    obtain ⟨b', hb', ts', hts', rfl⟩ := h
    obtain ⟨before', t, after', rfl, ht, hall⟩ := exists_encodeArgs_place hts'
    rw [ite_self] at ht hall
    rw [if_neg (List.cons_ne_nil b before)]
    refine ⟨b' :: before', t, after', rfl, ht, fun y u hu => ?_⟩
    exact result_encodeArgs_cons hb' (hall y u hu)

/-- The bounds of an extraction are literals and no operands. -/
theorem exists_encodeFor_fill {F : Expr.Frame} {t : Term} (hx : ∀ l, x ≠ .literal l)
    (h : (e.encodeFor use (F.fill x)).result = .ok t) :
    ∃ (T : Term.Frame) (u : Term), t = T.fill u ∧ (e.encodeFor F.use x).result = .ok u
      ∧ ∀ y v, (e.encodeFor F.use y).result = .ok v →
        (e.encodeFor use (F.fill y)).result = .ok (T.fill v) := by
  obtain ⟨op, before, after⟩ := F
  by_cases hextract : op = Extraction.operator
  · subst hextract
    have hne : Extraction.operator ≠ Operator.ite := by decide
    have huse : Expr.Frame.use ⟨Extraction.operator, before, after⟩ = .value :=
      if_neg fun h => hne h.1
    rw [Expr.Frame.fill, encodeFor.eq_def] at h
    simp only [if_true] at h
    split at h
    · rename_i low high operand hargs
      obtain ⟨rfl, rfl, rfl⟩ : before = [.literal low, .literal high] ∧ x = operand
          ∧ after = [] := by
        rcases before with _ | ⟨a, _ | ⟨b, _ | ⟨c, before⟩⟩⟩ <;> simp_all
      simp only [result_bind_eq_ok_iff, result_pure, Except.ok.injEq] at h
      obtain ⟨u, hu, rfl⟩ := h
      rw [huse]
      refine ⟨⟨.app "_" [.atom "extract", .atom (toString high.value), .atom (toString low.value)],
        [], []⟩, u, rfl, hu, fun y v hv => ?_⟩
      rw [Expr.Frame.fill, encodeFor.eq_def]
      simp only [if_true, List.cons_append, List.nil_append, result_bind_eq_ok_iff]
      exact ⟨v, hv, rfl⟩
    · cases h
  · rw [Expr.Frame.fill, encodeFor.eq_def] at h
    simp only [if_neg hextract, result_bind_eq_ok_iff, result_pure, Except.ok.injEq] at h
    obtain ⟨ts, hts, rfl⟩ := h
    obtain ⟨before', u, after', rfl, hu, hall⟩ := exists_encodeArgs_place hts
    have huse : Expr.Frame.use ⟨op, before, after⟩
        = if before = [] then if op = Operator.ite then .condition else .value else .value := by
      unfold Expr.Frame.use
      split_ifs <;> simp_all
    rw [huse]
    refine ⟨⟨.atom (Operator.smtName op use), before', after'⟩, u, rfl, hu, fun y v hv => ?_⟩
    rw [Expr.Frame.fill, encodeFor.eq_def]
    simp only [if_neg hextract, result_bind_eq_ok_iff]
    exact ⟨_, hall y v hv, rfl⟩

/-- Whatever stands in a place of an expression, what it becomes stands in one and the same place of
the term. -/
theorem exists_within : ∀ {Fs : List Expr.Frame} {x : Expr} {t : Term}, (∀ l, x ≠ .literal l) →
    (e.encode (Expr.within Fs x)).result = .ok t →
      ∃ (Ts : List Term.Frame) (u : Term), t = Term.within Ts u
        ∧ (e.encodeFor (Expr.useWithin Fs) x).result = .ok u
        ∧ ∀ y v, (e.encodeFor (Expr.useWithin Fs) y).result = .ok v →
          (e.encode (Expr.within Fs y)).result = .ok (Term.within Ts v)
  | [], _, t, _, h => ⟨[], t, rfl, h, fun _ _ hv => hv⟩
  | F :: Fs, x, t, hx, h => by
    rw [Expr.within] at h
    obtain ⟨Ts, u, rfl, hu, hall⟩ := exists_within (F.fill_ne_literal x) h
    obtain ⟨T, v, rfl, hv, hfill⟩ := exists_encodeFor_fill hx hu
    exact ⟨T :: Ts, v, rfl, hv, fun y w hw => hall _ _ (hfill y w hw)⟩

/-! ## Comparisons -/

/-- The expression is encoded to a term of the sort. -/
def HasSort (e : Encoder) (Γ : Declarations) (x : Expr) (σ : ValueSort) : Prop :=
  ∃ t, (e.encode x).result = .ok t ∧ t.sort? Γ = some σ

/-- The word that stands for a truth value, as in the wrappers of comparisons. -/
def widened (width : Nat) (t : Term) : Term :=
  .app "ite" [t, .atom (Bits.binary 1 width), .atom (Bits.zeros width)]

theorem sort?_widened {Γ : Declarations} {width : Nat} {t : Term} (hwidth : 0 < width)
    (hΓ : Γ "ite" = none) (ht : t.sort? Γ = some .truth) :
    (widened width t).sort? Γ = some (.word width) := Term.sort?_choice hΓ hwidth ht

/-- Comparisons have one name for their values and in conditions. -/
theorem result_encodeFor_relation {r : Relation} {a b : Expr} {ta tb : Term}
    (ha : (e.encode a).result = .ok ta) (hb : (e.encode b).result = .ok tb) :
    (e.encodeFor use (.app ⟨r.name⟩ [a, b])).result
      = .ok (.app (Operator.smtName r.name .value) [ta, tb]) := by
  have hnil : (e.encodeArgs .value []).result = .ok [] := by
    rw [encodeArgs]
    rfl
  have hname : Operator.smtName r.name .value = Operator.smtName r.name use := by
    cases use <;> cases r <;> rfl
  rw [hname]
  exact result_encodeFor_app r.name_ne_extract r.name_ne_ite
    (result_encodeArgs_cons ha (result_encodeArgs_cons hb hnil))

theorem sort?_relation {Γ : Declarations} (hΓ : ∀ f ∈ SmtLib.symbols, Γ f = none) (r : Relation)
    {width : Nat} {t u : Term} (ht : t.sort? Γ = some (.word width))
    (hu : u.sort? Γ = some (.word width)) :
    (Term.app (Operator.smtName r.name .value) [t, u]).sort? Γ = some .truth := by
  have hsymbol : Operator.smtName r.name .value ∈ SmtLib.symbols := by cases r <;> decide
  rw [Term.sort?_app, Term.sorts?_pair ht hu, Option.bind_some,
    Term.headSort?_of_none (hΓ _ hsymbol)]
  refine SmtLib.resultSort?_comparison ?_ width
  cases r <;> decide

/-- In a place where an input fits, a comparison of words is encoded as it is. The whole term is
then no word, though it would have its sort if the comparison was widened. -/
theorem encode_relation_in_value {Γ : Declarations} (hwidth : 0 < e.bitWidth)
    (hΓ : ∀ f ∈ SmtLib.symbols, Γ f = none) {input : Ident}
    (hinput : (Term.atom input.name).sort? Γ = some (.word e.bitWidth)) {Fs : List Expr.Frame}
    {σ : ValueSort} (hplace : e.HasSort Γ (Expr.within Fs (.ident input)) σ) (r : Relation)
    {a b : Expr} (ha : e.HasSort Γ a (.word e.bitWidth)) (hb : e.HasSort Γ b (.word e.bitWidth)) :
    ∃ (Ts : List Term.Frame) (ta tb : Term),
      (e.encode a).result = .ok ta ∧ (e.encode b).result = .ok tb
        ∧ (e.encode (Expr.within Fs (.app ⟨r.name⟩ [a, b]))).result
          = .ok (Term.within Ts (.app (Operator.smtName r.name .value) [ta, tb]))
        ∧ (∀ width, (Term.within Ts (.app (Operator.smtName r.name .value) [ta, tb])).sort? Γ
          ≠ some (.word width))
        ∧ (Term.within Ts (widened e.bitWidth
            (.app (Operator.smtName r.name .value) [ta, tb]))).sort? Γ = some σ := by
  obtain ⟨ta, hta, hsa⟩ := ha
  obtain ⟨tb, htb, hsb⟩ := hb
  obtain ⟨t, ht, hσ⟩ := hplace
  obtain ⟨Ts, u, rfl, hu, hall⟩ := exists_within (fun _ h => Expr.noConfusion h) ht
  rw [encodeFor, result_pure, Except.ok.injEq] at hu
  subst hu
  have htruth := sort?_relation hΓ r hsa hsb
  refine ⟨Ts, ta, tb, hta, htb, hall _ _ (result_encodeFor_relation hta htb), ?_, ?_⟩
  · exact Term.sort?_within_truth hinput htruth hσ
  · rw [← hσ]
    refine Term.sort?_within_congr Ts ?_
    rw [sort?_widened hwidth (hΓ "ite" (by decide)) htruth, hinput]

/-- Two inputs of four bits. -/
def fourBits : Declarations := fun f =>
  if f = "x" ∨ f = "y" then some ([], .word 4) else none

def comparisonPlace : List Expr.Frame := [⟨"add", [], [.ident ⟨"x"⟩]⟩]

theorem encode_relation_in_sum : ∃ (Ts : List Term.Frame) (ta tb : Term),
    ((Encoder.mk 4 .truncate).encode (.ident ⟨"x"⟩)).result = .ok ta
      ∧ ((Encoder.mk 4 .truncate).encode (.ident ⟨"y"⟩)).result = .ok tb
      ∧ ((Encoder.mk 4 .truncate).encode (Expr.within comparisonPlace
          (.app ⟨Relation.ult.name⟩ [.ident ⟨"x"⟩, .ident ⟨"y"⟩]))).result
        = .ok (Term.within Ts (.app (Operator.smtName Relation.ult.name .value) [ta, tb]))
      ∧ (∀ width, (Term.within Ts
          (.app (Operator.smtName Relation.ult.name .value) [ta, tb])).sort? fourBits
            ≠ some (.word width))
      ∧ (Term.within Ts (widened 4 (.app (Operator.smtName Relation.ult.name .value)
          [ta, tb]))).sort? fourBits = some (.word 4) := by
  have hx : (Encoder.mk 4 .truncate).HasSort fourBits (.ident ⟨"x"⟩) (.word 4) :=
    ⟨_, rfl, by decide⟩
  have hy : (Encoder.mk 4 .truncate).HasSort fourBits (.ident ⟨"y"⟩) (.word 4) :=
    ⟨_, rfl, by decide⟩
  have hplace : (Encoder.mk 4 .truncate).HasSort fourBits
      (Expr.within comparisonPlace (.ident ⟨"x"⟩)) (.word 4) := ⟨_, rfl, by decide⟩
  have hinput : (Term.atom (Ident.mk "x").name).sort? fourBits = some (.word 4) := by decide
  exact encode_relation_in_value (e := ⟨4, .truncate⟩) (by decide) (by decide) hinput hplace .ult
    hx hy

/-- The comparison is added to a word as a truth value. -/
theorem not_hasSort_comparison : ∃ t, ((Encoder.mk 4 .truncate).encode
      (Expr.within comparisonPlace (.app ⟨"ult"⟩ [.ident ⟨"x"⟩, .ident ⟨"y"⟩]))).result = .ok t
    ∧ t.text = "(bvadd (bvult x y) x)" ∧ t.sort? fourBits = none :=
  ⟨_, rfl, by decide, by decide⟩

end Encoder

end BitSynth
