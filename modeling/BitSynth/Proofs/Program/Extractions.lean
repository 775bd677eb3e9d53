import BitSynth.Proofs.Encoder.Refusal
import BitSynth.Proofs.Grammar.Problem
import BitSynth.Proofs.Library.Entries
import BitSynth.Proofs.Solver.Wrapper
import BitSynth.Translate

/-!
# Malformed extractions

An extraction without two literal bounds and one operand can neither be written for the synthesizer
nor for a solver. A script writes every body of the program, so that it exists exactly if none of
them has such an extraction. A problem writes the body of a function only where it defines a helper
for it: it is missing if one of those bodies is malformed, and the others are never looked at
(`Program.translates_wellBounded`).
-/

namespace BitSynth

open Logged

open BitSynth.Expr

/-! ## Bodies -/

/-- The body of the function, if the entry is one. -/
def LibraryEntry.body? : LibraryEntry → Option Expr
  | .function _ _ body => some body
  | _ => none

/-- The entry is counted as the function is: it is one of the same name, or an operator that is
called like its helper. -/
def LibraryEntry.Precludes (name : Ident) : LibraryEntry → Prop
  | .operator op => op.name = Operator.helperName name.name
  | .constant _ _ => False
  | .function other _ _ => other = name

namespace Program

/-- The function to build and those of the library. -/
def bodies (p : Program) : List Expr := p.spec.body :: p.library.filterMap LibraryEntry.body?

/-- A problem writes the body: it is that of the function to build, or of a function that is
defined, being the first entry counted under its name. -/
inductive Writes (p : Program) : Expr → Prop
  | spec : Writes p p.spec.body
  | function {before after : List LibraryEntry} {name : Ident} {params : List Ident} {body : Expr}
      (hlibrary : p.library = before ++ .function name params body :: after)
      (hfirst : ∀ entry ∈ before, ¬ entry.Precludes name) : Writes p body

end Program

/-! ## Scripts -/

namespace Script

theorem exists_ofEntry_iff {bitWidth : Nat} {entry : LibraryEntry} :
    (∃ i, Item.ofEntry bitWidth entry = .ok i) ↔ ∀ x ∈ entry.body?, x.WellBounded := by
  cases entry with
  | operator name =>
    simp only [Item.ofEntry, LibraryEntry.body?, Option.mem_def, reduceCtorEq, false_implies,
      implies_true, iff_true]
    cases Relation.ofName? name.name with
    | none => exact ⟨_, rfl⟩
    | some r => exact ⟨_, rfl⟩
  | constant width value => simp [Item.ofEntry, LibraryEntry.body?]
  | function name params body =>
    simp only [Item.ofEntry, LibraryEntry.body?, Option.mem_def, Option.some.injEq, forall_eq',
      bind_eq_ok_iff, ← exists_exprTerm_iff]
    exact ⟨fun ⟨_, t, ht, _⟩ => ⟨t, ht⟩, fun ⟨t, ht⟩ => ⟨_, t, ht, rfl⟩⟩

/-- A script writes every body of the program. -/
theorem exists_ofProgram_iff {p : Program} :
    (∃ c, ofProgram p = .ok c) ↔ ∀ x ∈ p.bodies, x.WellBounded := by
  have hlibrary : (∀ x ∈ p.library.filterMap LibraryEntry.body?, x.WellBounded)
      ↔ ∃ is, p.library.mapM (Item.ofEntry p.spec.bitWidth) = .ok is := by
    rw [exists_mapM_eq_ok_iff]
    simp only [exists_ofEntry_iff, List.mem_filterMap, Option.mem_def, forall_exists_index, and_imp]
    exact ⟨fun h entry hentry x hx => h x entry hentry hx,
      fun h x entry hentry hx => h entry hentry x hx⟩
  rw [Program.bodies, List.forall_mem_cons, hlibrary, ← exists_exprTerm_iff]
  simp only [ofProgram, bind_eq_ok_iff]
  exact ⟨fun ⟨_, is, his, t, ht, _⟩ => ⟨⟨t, ht⟩, is, his⟩,
    fun ⟨⟨t, ht⟩, is, his⟩ => ⟨_, is, his, t, ht, rfl⟩⟩

end Script

/-! ## Problems -/

namespace Sygus

namespace Library

variable {e : Encoder} {before after : List LibraryEntry} {name : Ident} {params : List Ident}
  {body : Expr}

/-- Operators and functions are counted as operators, constants under the bit strings they are. Only
functions are defined. -/
theorem contribution?_cases {a : LibraryEntry} {c : Contribution} (h : contribution? e a = some c) :
    ((∃ smtName arity relation, c.form = .operator smtName arity relation)
      ∧ ((∃ op, a = .operator op ∧ c.key = op.name ∧ c.definition = none)
        ∨ ∃ name params body, a = .function name params body
          ∧ c.key = Operator.helperName name.name ∧ c.definition.isSome = true))
      ∨ c.form = .constant c.key ∧ c.key.toList.head? = some '#' ∧ c.definition = none := by
  cases a with
  | operator op =>
    obtain rfl := Option.some.inj h
    exact .inl ⟨⟨_, _, _, rfl⟩, .inl ⟨op, rfl, rfl, rfl⟩⟩
  | constant width value =>
    cases value with
    | none => cases h
    | some literal =>
      obtain ⟨key, hkey, rfl⟩ := Option.map_eq_some_iff.1 h
      obtain ⟨v, -, rfl⟩ := result_encodeConstant_eq_ok (toOption_eq_some_iff.1 hkey)
      exact .inr ⟨rfl, head?_binary _ _, rfl⟩
  | function name params body =>
    obtain rfl := Option.some.inj h
    exact .inl ⟨⟨_, _, _, rfl⟩, .inr ⟨name, params, body, rfl, rfl, rfl⟩⟩

theorem key_ne_helperName {entry : LibraryEntry} {c : Contribution}
    (hc : contribution? e entry = some c) (h : ¬ entry.Precludes name) :
    c.key ≠ Operator.helperName name.name := by
  intro heq
  rcases contribution?_cases hc with
    ⟨-, ⟨op, rfl, hkey, -⟩ | ⟨other, params, body, rfl, hkey, -⟩⟩ | ⟨-, hhead, -⟩
  · exact h (hkey.symm.trans heq)
  · have hname := congrArg String.toList (hkey.symm.trans heq)
    simp only [Operator.helperName, String.toList_append, List.append_cancel_left_eq,
      String.toList_inj] at hname
    exact h (congrArg Ident.mk hname)
  · rw [heq, head?_of_isHelper (isHelper_helperName name.name)] at hhead
    cases hhead

/-- Behind entries that do not preclude it, the function is the first of its key. -/
theorem first?_function (hfirst : ∀ entry ∈ before, ¬ entry.Precludes name) :
    first? e (before ++ .function name params body :: after) (Operator.helperName name.name)
      = contribution? e (.function name params body) := by
  have hnone : first? e before (Operator.helperName name.name) = none := by
    refine List.find?_eq_none.2 fun c hc => ?_
    obtain ⟨entry, hentry, hc⟩ := List.mem_filterMap.1 hc
    exact decide_eq_true_iff.not.2 (key_ne_helperName hc (hfirst entry hentry))
  rw [first?, contributions, List.filterMap_append, List.find?_append, ← contributions, ← first?,
    hnone, Option.none_or]
  exact List.find?_cons_of_pos (decide_eq_true rfl)

/-- A function that is the first of its key is defined by its body. -/
theorem Admitted.wellBounded (h : Admitted e (before ++ .function name params body :: after))
    (hfirst : ∀ entry ∈ before, ¬ entry.Precludes name) : body.WellBounded := by
  have hdefined := h.definitions _ _ (first?_function hfirst)
  cases hbody : (e.encode body).result with
  | error err => exact absurd (by rw [hbody]; rfl) hdefined
  | ok t => exact Encoder.wellBounded_of_encodeFor hbody

end Library

/-- What a problem writes is well formed. -/
theorem Problem.wellBounded_of_writes {p : Program} {s : Settings} {q : Problem} {x : Expr}
    (h : (Problem.ofProgram p s).result = .ok q) (hx : p.Writes x) : x.WellBounded := by
  obtain ⟨-, l, body, hl, hbody, -⟩ := Problem.ofProgram_eq_ok_iff.1 h
  obtain ⟨hfold, -, -⟩ := TaggedLibrary.ofEntries_eq_ok_iff.1 hl
  cases hx with
  | spec => exact Encoder.wellBounded_of_encodeFor hbody
  | function hlibrary hfirst =>
    have hadmitted := Library.admitted_of_foldlM hfold
    rw [hlibrary] at hadmitted
    exact hadmitted.wellBounded hfirst

end Sygus

/-! ## Translations -/

namespace Program

variable {p : Program} {s : Settings}

/-- The program has a text in the form of the target. -/
def Translates (p : Program) (t : Target) (s : Settings) : Prop :=
  ∃ text, (p.translate t s).result = .ok text

theorem translates_script_iff : p.Translates .script s ↔ ∀ x ∈ p.bodies, x.WellBounded := by
  rw [← Script.exists_ofProgram_iff, Translates, translate]
  cases Script.ofProgram p with
  | ok c => simp [Functor.map, Except.map]
  | error e => simp [Functor.map, Except.map]

theorem wellBounded_of_translates_sygus {x : Expr} (h : p.Translates .sygus s) (hx : p.Writes x) :
    x.WellBounded := by
  obtain ⟨text, h⟩ := h
  obtain ⟨q, hq, -⟩ := result_bind_eq_ok_iff.1 h
  exact Sygus.Problem.wellBounded_of_writes hq hx

/-- No malformed extraction gets into a text. A script exists exactly if no body of the program has
one, and a problem only if none of those has one that it writes. So where there is a problem there
is a script too, unless a body that the problem does not write is malformed: that of a function whose
name was there before, or that of one whose helper has the name of an operator before it. -/
theorem translates_wellBounded (p : Program) (s : Settings) :
    (p.Translates .script s ↔ ∀ x ∈ p.bodies, x.WellBounded)
      ∧ (p.Translates .sygus s → (∀ x, p.Writes x → x.WellBounded)
        ∧ (p.Translates .script s ↔ ∀ x ∈ p.bodies, ¬ p.Writes x → x.WellBounded)) := by
  refine ⟨translates_script_iff, fun h => ?_⟩
  have hwrites (x : Expr) (hx : p.Writes x) : x.WellBounded := wellBounded_of_translates_sygus h hx
  refine ⟨hwrites, translates_script_iff.trans ⟨fun hall x hx _ => hall x hx, fun hall x hx => ?_⟩⟩
  by_cases hw : p.Writes x
  · exact hwrites x hw
  · exact hall x hx hw

/-- Two functions of one name, of which only the second has a malformed extraction. -/
def repeated : Program where
  spec := ⟨4, [⟨"x"⟩], .ident ⟨"x"⟩⟩
  library := [.function ⟨"f"⟩ [⟨"a"⟩] (.ident ⟨"a"⟩),
    .function ⟨"f"⟩ [⟨"a"⟩] (.app ⟨"extract"⟩ [.ident ⟨"a"⟩])]

theorem translates_sygus_repeated : repeated.Translates .sygus {} := ⟨_, rfl⟩

/-- The second function of a name is not written. -/
theorem translates_wellBounded_repeated : ¬ repeated.Translates .script {}
    ∧ repeated.Translates .sygus {}
    ∧ ¬ repeated.Writes (.app ⟨"extract"⟩ [.ident ⟨"a"⟩]) := by
  obtain ⟨hscript, hsygus⟩ := translates_wellBounded repeated {}
  obtain ⟨hwrites, -⟩ := hsygus translates_sygus_repeated
  refine ⟨fun h => ?_, translates_sygus_repeated, fun h => ?_⟩
  · exact absurd (hscript.1 h) (by decide)
  · exact absurd (hwrites _ h) (by decide)

/-- A malformed extraction in a function that is not defined keeps no problem from being written. -/
theorem not_forall_not_translates : ¬ ∀ (p : Program) (s : Settings),
    ((∃ x ∈ p.bodies, ¬ x.WellBounded) → ¬ p.Translates .script s ∧ ¬ p.Translates .sygus s)
      ∧ (p.Translates .sygus s → p.Translates .script s) := by
  intro h
  have hbodies : ∃ x ∈ repeated.bodies, ¬ x.WellBounded := by decide
  exact ((h repeated {}).1 hbodies).2 translates_sygus_repeated

end Program

end BitSynth
