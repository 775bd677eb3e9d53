import BitSynth.Encoder
import BitSynth.Proofs.Outcome

/-!
# Connectives in conditions

A formula puts comparisons together by connectives. In the condition of an `ite` its outermost
connective stays a connective. All connectives within that one become bit-vector operations
(`Encoder.exists_encodeFor_formula`), though they are applied to truth values. So the condition is a
formula again only if it has at most one connective.
-/

namespace BitSynth

open Logged

inductive Connective where
  | and
  | or
  | xor
deriving DecidableEq, Repr

namespace Connective

def name : Connective → String
  | and => "and"
  | or => "or"
  | xor => "xor"

def operation (c : Connective) : String := "bv" ++ c.name

/-- The heads of the terms for the connectives of a formula, from the outermost inward, when only
the first of a condition stays one. -/
def heads : Operator.Use → List Connective → List String
  | .condition, c :: cs => c.name :: cs.map operation
  | _, cs => cs.map operation

theorem name_ne_extract (c : Connective) : c.name ≠ Extraction.operator := by cases c <;> decide

theorem name_ne_ite (c : Connective) : c.name ≠ Operator.ite := by cases c <;> decide

theorem operation_ne_name (c : Connective) : c.operation ≠ c.name := by cases c <;> decide

theorem heads_cons (use : Operator.Use) (c : Connective) (cs : List Connective) :
    heads use (c :: cs) = Operator.smtName c.name use :: cs.map operation := by
  cases use <;> cases c <;> rfl

/-- A second connective would have to keep its name. -/
theorem heads_condition_eq_iff {cs : List Connective} :
    heads .condition cs = cs.map name ↔ cs.length ≤ 1 := by
  match cs with
  | [] => simp [heads]
  | [c] => simp [heads]
  | c :: d :: cs => simp [heads, operation_ne_name]

end Connective

/-- Comparisons put together by connectives. -/
inductive Formula where
  | relation (r : Relation) (operands : List Expr)
  | connective (c : Connective) (parts : List Formula)

namespace Formula

mutual

def toExpr : Formula → Expr
  | .relation r operands => .app ⟨r.name⟩ operands
  | .connective c parts => .app ⟨c.name⟩ (toExprs parts)

def toExprs : List Formula → List Expr
  | [] => []
  | f :: fs => f.toExpr :: toExprs fs

end

mutual

/-- The operands of all comparisons. -/
def operands : Formula → List Expr
  | .relation _ operands => operands
  | .connective _ parts => operandsAll parts

def operandsAll : List Formula → List Expr
  | [] => []
  | f :: fs => f.operands ++ operandsAll fs

end

mutual

/-- All connectives, each before those in its parts. -/
def connectives : Formula → List Connective
  | .relation _ _ => []
  | .connective c parts => c :: connectivesAll parts

def connectivesAll : List Formula → List Connective
  | [] => []
  | f :: fs => f.connectives ++ connectivesAll fs

end

mutual

/-- The heads that a term has in the places of the formula's connectives. -/
def headsIn : Formula → Term → List String
  | .connective _ parts, .list (.atom head :: ts) => head :: headsInAll parts ts
  | _, _ => []

def headsInAll : List Formula → List Term → List String
  | f :: fs, t :: ts => f.headsIn t ++ headsInAll fs ts
  | _, _ => []

end

end Formula

namespace Relation

theorem name_ne_extract (r : Relation) : r.name ≠ Extraction.operator := by cases r <;> decide

theorem name_ne_ite (r : Relation) : r.name ≠ Operator.ite := by cases r <;> decide

end Relation

namespace Encoder

variable {e : Encoder}

/-- The encoder has a term for the expression. -/
def Encodes (e : Encoder) (x : Expr) : Prop := ∃ t, (e.encode x).result = .ok t

/-! ## Applications -/

theorem result_encodeArgs_cons {first : Operator.Use} {x : Expr} {xs : List Expr} {t : Term}
    {ts : List Term} (h : (e.encodeFor first x).result = .ok t)
    (hs : (e.encodeArgs .value xs).result = .ok ts) :
    (e.encodeArgs first (x :: xs)).result = .ok (t :: ts) := by
  simp only [encodeArgs, result_bind_eq_ok_iff]
  exact ⟨t, h, ts, hs, rfl⟩

theorem exists_encodeArgs : ∀ {xs : List Expr}, (∀ x ∈ xs, e.Encodes x) →
    ∃ ts, (e.encodeArgs .value xs).result = .ok ts
  | [], _ => ⟨[], by rw [encodeArgs]; rfl⟩
  | x :: xs, h => by
    obtain ⟨⟨t, ht⟩, hxs⟩ := List.forall_mem_cons.1 h
    obtain ⟨ts, hts⟩ := exists_encodeArgs hxs
    exact ⟨t :: ts, result_encodeArgs_cons ht hts⟩

theorem result_encodeFor_app {use : Operator.Use} {op : String} {args : List Expr} {ts : List Term}
    (hextract : op ≠ Extraction.operator) (hite : op ≠ Operator.ite)
    (h : (e.encodeArgs .value args).result = .ok ts) :
    (e.encodeFor use (.app ⟨op⟩ args)).result = .ok (.app (Operator.smtName op use) ts) := by
  rw [encodeFor.eq_def]
  simp only [if_neg hextract, if_neg hite, result_bind_eq_ok_iff]
  exact ⟨ts, h, rfl⟩

theorem result_encode_ite {x a b : Expr} {t ta tb : Term}
    (h : (e.encodeFor .condition x).result = .ok t) (ha : (e.encode a).result = .ok ta)
    (hb : (e.encode b).result = .ok tb) :
    (e.encode (.app ⟨Operator.ite⟩ [x, a, b])).result = .ok (.app Operator.ite [t, ta, tb]) := by
  have hnil : (e.encodeArgs .value []).result = .ok [] := by
    rw [encodeArgs]
    rfl
  have hargs := result_encodeArgs_cons h (result_encodeArgs_cons ha (result_encodeArgs_cons hb hnil))
  have hextract : Operator.ite ≠ Extraction.operator := by decide
  rw [encode, encodeFor.eq_def]
  simp only [if_neg hextract, if_true, result_bind_eq_ok_iff]
  exact ⟨_, hargs, rfl⟩

/-! ## Formulas -/

mutual

/-- Only the use of the whole formula matters to its outermost connective, and its parts are encoded
for their values. -/
theorem exists_encodeFor_formula (use : Operator.Use) : ∀ {f : Formula},
    (∀ x ∈ f.operands, e.Encodes x) → ∃ t, (e.encodeFor use f.toExpr).result = .ok t ∧
      f.headsIn t = Connective.heads use f.connectives
  | .relation r operands, h => by
    obtain ⟨ts, hts⟩ := exists_encodeArgs h
    refine ⟨_, result_encodeFor_app r.name_ne_extract r.name_ne_ite hts, ?_⟩
    cases use <;> rfl
  | .connective c parts, h => by
    obtain ⟨ts, hts, hheads⟩ := exists_encodeArgs_formulas h
    refine ⟨_, result_encodeFor_app c.name_ne_extract c.name_ne_ite hts, ?_⟩
    rw [Formula.connectives, Connective.heads_cons, ← hheads]
    rfl

theorem exists_encodeArgs_formulas : ∀ {fs : List Formula},
    (∀ x ∈ Formula.operandsAll fs, e.Encodes x) →
      ∃ ts, (e.encodeArgs .value (Formula.toExprs fs)).result = .ok ts ∧
        Formula.headsInAll fs ts = (Formula.connectivesAll fs).map Connective.operation
  | [], _ => ⟨[], by rw [Formula.toExprs, encodeArgs]; rfl, rfl⟩
  | f :: fs, h => by
    obtain ⟨hf, hfs⟩ := List.forall_mem_append.1 h
    obtain ⟨t, ht, hhead⟩ := exists_encodeFor_formula .value hf
    obtain ⟨ts, hts, hheads⟩ := exists_encodeArgs_formulas hfs
    refine ⟨t :: ts, result_encodeArgs_cons ht hts, ?_⟩
    rw [Formula.headsInAll, Formula.connectivesAll, List.map_append, hhead, hheads]
    rfl

end

/-- In the condition of an `ite` the outermost connective stays one, and all others are bit-vector
operations. They all stay connectives exactly if there is no more than one. -/
theorem heads_ite_condition {f : Formula} {a b : Expr} (hf : ∀ x ∈ f.operands, e.Encodes x)
    (ha : e.Encodes a) (hb : e.Encodes b) : ∃ t ta tb,
      (e.encode (.app ⟨Operator.ite⟩ [f.toExpr, a, b])).result
        = .ok (.app Operator.ite [t, ta, tb]) ∧
      f.headsIn t = Connective.heads .condition f.connectives ∧
      (f.headsIn t = f.connectives.map Connective.name ↔ f.connectives.length ≤ 1) := by
  obtain ⟨t, ht, hheads⟩ := exists_encodeFor_formula .condition hf
  obtain ⟨ta, ha⟩ := ha
  obtain ⟨tb, hb⟩ := hb
  refine ⟨t, ta, tb, result_encode_ite ht ha hb, hheads, ?_⟩
  rw [hheads, Connective.heads_condition_eq_iff]

theorem encodes_ident (x : Ident) : e.Encodes (.ident x) :=
  ⟨.atom x.name, by rw [encode, encodeFor]; rfl⟩

/-- A disjunction within a conjunction. -/
def nested : Formula :=
  .connective .and [
    .connective .or [.relation .ult [.ident ⟨"x"⟩, .ident ⟨"y"⟩],
      .relation .eq [.ident ⟨"x"⟩, .ident ⟨"y"⟩]],
    .relation .ult [.ident ⟨"y"⟩, .ident ⟨"x"⟩]]

theorem heads_ite_nested : ∃ t ta tb, ((Encoder.mk 8 .strict).encode (.app ⟨Operator.ite⟩
      [nested.toExpr, .ident ⟨"x"⟩, .ident ⟨"y"⟩])).result = .ok (.app Operator.ite [t, ta, tb]) ∧
    nested.headsIn t = ["and", "bvor"] ∧ nested.connectives.length = 2 := by
  have hoperands : ∀ x ∈ nested.operands, (Encoder.mk 8 .strict).Encodes x := by
    simp [nested, Formula.operands, Formula.operandsAll, encodes_ident]
  obtain ⟨t, ta, tb, hresult, hheads, -⟩ :=
    heads_ite_condition hoperands (encodes_ident ⟨"x"⟩) (encodes_ident ⟨"y"⟩)
  exact ⟨t, ta, tb, hresult, hheads, rfl⟩

/-- The disjunction becomes a bit-vector operation on two truth values. -/
theorem headsIn_nested_ne : ∃ t, ((Encoder.mk 8 .strict).encode (.app ⟨Operator.ite⟩
      [nested.toExpr, .ident ⟨"x"⟩, .ident ⟨"y"⟩])).result
        = .ok (.app Operator.ite [t, .atom "x", .atom "y"]) ∧
    t.text = "(and (bvor (bvult x y) (= x y)) (bvult y x))" ∧
    nested.headsIn t ≠ nested.connectives.map Connective.name :=
  ⟨.app "and" [
    .app "bvor" [.app "bvult" [.atom "x", .atom "y"], .app "=" [.atom "x", .atom "y"]],
    .app "bvult" [.atom "y", .atom "x"]], rfl, by decide, by decide⟩

end Encoder

end BitSynth
