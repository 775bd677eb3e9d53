import BitSynth.Expr.Basic
import Mathlib.Tactic.Common

/-!
# The parts of expressions

What is checked of an expression is checked at its parts, each before those in its arguments: at its
applications (`Expr.applications`), or at all parts that have a value (`Expr.parts`), which the bounds
of an extraction have not.
-/

namespace BitSynth

/-- An application of `extract` to something else than two literals and an operand. -/
def App.IsMalformed (a : App) : Prop :=
  a.op.name = Extraction.operator ∧ Extraction.ofArgs? a.args = none

instance (a : App) : Decidable a.IsMalformed := inferInstanceAs (Decidable (_ ∧ _))

namespace Extraction

theorem ofArgs?_eq_some_iff {args : List Expr} {x : Extraction} :
    ofArgs? args = some x ↔ args = [.literal x.low, .literal x.high, x.operand] := by
  constructor
  · intro h
    unfold ofArgs? at h
    split at h
    · obtain rfl := Option.some.inj h
      rfl
    · cases h
  · rintro rfl
    rfl

end Extraction

namespace Expr

mutual

/-- All applications in the expression, each before those in its arguments. -/
def applications : Expr → List App
  | .ident _ => []
  | .literal _ => []
  | .app op args => ⟨op, args⟩ :: applicationsAll args

def applicationsAll : List Expr → List App
  | [] => []
  | x :: xs => x.applications ++ applicationsAll xs

end

/-- Every extraction in the expression has two literal bounds and one operand. -/
def WellBounded (x : Expr) : Prop := ∀ a ∈ x.applications, ¬ a.IsMalformed

instance (x : Expr) : Decidable x.WellBounded := inferInstanceAs (Decidable (∀ a ∈ _, _))

mutual

/-- The expression itself, and then the parts of its arguments. The bounds of an extraction are not
among them. -/
def parts : Expr → List Expr
  | .ident x => [.ident x]
  | .literal l => [.literal l]
  | .app op args =>
    .app op args ::
      -- the bounds are literals, each with itself for its only part
      if (Extraction.ofApp? op args).isSome then (partsAll args).drop 2 else partsAll args

def partsAll : List Expr → List Expr
  | [] => []
  | x :: xs => x.parts ++ partsAll xs

end

theorem ofApp?_isSome_iff {op : Ident} {args : List Expr} :
    (Extraction.ofApp? op args).isSome = true ↔ op.name = Extraction.operator
      ∧ ∃ low high x, args = [literal low, literal high, x] := by
  rw [Option.isSome_iff_exists, Extraction.ofApp?]
  split_ifs with hop
  · simp only [Extraction.ofArgs?_eq_some_iff, hop, true_and]
    exact ⟨fun ⟨x, h⟩ => ⟨_, _, _, h⟩, fun ⟨low, high, x, h⟩ => ⟨⟨low, high, x⟩, h⟩⟩
  · simp [hop]

/-- The parts of an extraction are those of its operand. -/
theorem parts_extraction {op : Ident} (h : op.name = Extraction.operator) (low high : Literal)
    (x : Expr) : (app op [literal low, literal high, x]).parts
      = app op [literal low, literal high, x] :: x.parts := by
  rw [parts, if_pos (ofApp?_isSome_iff.2 ⟨h, low, high, x, rfl⟩)]
  simp [partsAll, parts]

theorem parts_app {op : Ident} {args : List Expr}
    (h : op.name = Extraction.operator → Extraction.ofArgs? args = none) :
    (app op args).parts = app op args :: partsAll args := by
  rw [parts, if_neg]
  rw [ofApp?_isSome_iff]
  rintro ⟨hop, low, high, x, rfl⟩
  cases h hop

/-- An application is an extraction, or has all parts of its arguments. -/
theorem parts_app_cases (op : Ident) (args : List Expr) :
    (op.name = Extraction.operator ∧ ∃ low high x, args = [literal low, literal high, x])
      ∨ (op.name = Extraction.operator → Extraction.ofArgs? args = none)
        ∧ (app op args).parts = app op args :: partsAll args := by
  by_cases h : op.name = Extraction.operator ∧ ∃ low high x, args = [literal low, literal high, x]
  · exact .inl h
  · have hnone (hop : op.name = Extraction.operator) : Extraction.ofArgs? args = none := by
      rw [Option.eq_none_iff_forall_ne_some]
      exact fun x hx => h ⟨hop, _, _, _, Extraction.ofArgs?_eq_some_iff.1 hx⟩
    exact .inr ⟨hnone, parts_app hnone⟩

mutual

/-- All applications are among the parts. -/
theorem app_mem_parts_iff {a : App} : ∀ {x : Expr}, a.toExpr ∈ x.parts ↔ a ∈ x.applications
  | .ident x => by simp [parts, applications, App.toExpr]
  | .literal l => by simp [parts, applications, App.toExpr]
  | .app op args => by
    have hself : a.toExpr = app op args ↔ a = ⟨op, args⟩ := by
      cases a
      simp [App.toExpr]
    rw [applications, List.mem_cons, ← hself]
    rcases parts_app_cases op args with ⟨hop, low, high, x, rfl⟩ | ⟨-, hparts⟩
    · rw [parts_extraction hop, List.mem_cons, app_mem_parts_iff (x := x)]
      simp [applicationsAll, applications]
    · rw [hparts, List.mem_cons, app_mem_partsAll_iff]

theorem app_mem_partsAll_iff {a : App} : ∀ {xs : List Expr},
    a.toExpr ∈ partsAll xs ↔ a ∈ applicationsAll xs
  | [] => by simp [partsAll, applicationsAll]
  | x :: xs => by
    rw [partsAll, applicationsAll, List.mem_append, List.mem_append, app_mem_parts_iff,
      app_mem_partsAll_iff]

end

end Expr

end BitSynth
