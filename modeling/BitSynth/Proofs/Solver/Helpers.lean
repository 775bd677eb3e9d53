import BitSynth.Proofs.Solver.Sorts
import BitSynth.Proofs.Solver.Wrapper

/-!
# What helpers declare

If all operators of a library are standard ones, only functions have keys that helpers can have. Its
helpers then declare what its kinds say: a function has the arity of its kind, and takes words of
the program's width to a word of that width (`Library.Declares`).
-/

namespace BitSynth

namespace Operator

/-- The operators that solvers have: comparisons, negations, choice, joining, and the binary
operations on words. -/
def standard : List String :=
  Relation.all.map Relation.name ++ ["not", "neg", ite, concat] ++ SmtLib.binaryNames

theorem isHelper_of_mem_standard : ∀ name ∈ standard, isHelper name = false := by decide

section Names

variable {name : String}

/-- A name that is not marked as a helper's is none of a helper. -/
theorem ne_of_isHelper {s : String} (hname : isHelper name = true) (hs : isHelper s = false) :
    name ≠ s := by
  rintro rfl
  exact Bool.eq_false_iff.1 hs hname

theorem smtName_of_isHelper (h : isHelper name = true) (use : Use) : smtName name use = name := by
  have hne {s : String} (hs : isHelper s = false) : name ≠ s := ne_of_isHelper h hs
  have hconnective : ¬ ((name = "and" ∨ name = "or" ∨ name = "xor") ∧ use = .condition) := by
    rintro ⟨rfl | rfl | rfl, -⟩ <;> exact absurd h (by decide)
  rw [smtName, if_neg (hne rfl), if_neg (hne rfl), if_neg (not_or.2 ⟨hne rfl, hne rfl⟩),
    if_neg hconnective, if_pos h]

/-- Where a helper is taken for an operator, it has two operands. -/
theorem arity_of_isHelper (h : isHelper name = true) : arity name = 2 := by
  have hne {s : String} (hs : isHelper s = false) : name ≠ s := ne_of_isHelper h hs
  rw [arity, if_neg (hne rfl), if_neg (not_or.2 ⟨hne rfl, hne rfl⟩)]

theorem ofName?_of_isHelper (h : isHelper name = true) : Relation.ofName? name = none := by
  rw [Relation.ofName?, List.find?_eq_none]
  intro r _ hr
  rw [← beq_iff_eq.1 hr] at h
  cases r <;> exact absurd h (by decide)

end Names

end Operator

namespace Sygus

namespace Kind

/-- The arity of the kind with this key. -/
def arityOf? (ks : List Kind) (key : String) : Option Nat :=
  (ks.find? (·.key = key)).map Kind.arity

theorem arityOf?_eq_none {ks : List Kind} {key : String} :
    arityOf? ks key = none ↔ key ∉ ks.map Kind.key := by
  rw [arityOf?, Option.map_eq_none_iff, List.find?_eq_none, List.mem_map]
  simp only [decide_eq_true_eq, not_exists, not_and]

theorem arityOf?_of_mem {k : Kind} {ks : List Kind} (hks : (ks.map Kind.key).Nodup) (hk : k ∈ ks) :
    arityOf? ks k.key = some k.arity := by
  rw [arityOf?, find?_of_mem hks hk, Option.map_some]

/-- The first entry of a kind decides what arity it has. -/
theorem arityOf?_tally (key : String) (form : KindForm) (key' : String) (ks : List Kind) :
    arityOf? (tally key form ks) key' = if key' = key
      then some ((arityOf? ks key).getD (Kind.mk key 1 form).arity) else arityOf? ks key' := by
  unfold arityOf?
  rw [find?_tally]
  by_cases h : key = key'
  · rw [if_pos h, if_pos h.symm]
    cases ks.find? (·.key = key) with
    | none => rfl
    | some k => rfl
  · rw [if_neg h, if_neg (Ne.symm h)]

theorem one_le_count_tally {key : String} {form : KindForm} : ∀ {ks : List Kind},
    (∀ k ∈ ks, 1 ≤ k.count) → ∀ k ∈ tally key form ks, 1 ≤ k.count
  | [], _, k, hk => by
    obtain rfl := List.mem_singleton.1 hk
    exact Nat.le_refl 1
  | j :: ks, h, k, hk => by
    obtain ⟨hj, hks⟩ := List.forall_mem_cons.1 h
    unfold tally at hk
    split_ifs at hk
    · rcases List.mem_cons.1 hk with rfl | hk
      · exact Nat.succ_le_succ (Nat.zero_le _)
      · exact hks k hk
    · rcases List.mem_cons.1 hk with rfl | hk
      · exact hj
      · exact one_le_count_tally hks k hk

end Kind

namespace Library

variable {e : Encoder} {l l' : Library} {bitWidth : Nat}

/-- No kind is without an entry, all operators are standard or functions, and the helpers declare
the functions as their kinds have them. -/
structure Declares (bitWidth : Nat) (l : Library) : Prop where
  counts : ∀ k ∈ l.kinds, 1 ≤ k.count
  keys : ∀ k ∈ l.kinds, k.key ∈ Operator.standard ∨ Operator.isHelper k.key = true
    ∨ ∃ literal, k.form = .constant literal
  helpers : ∀ f, Operator.isHelper f = true → Declarations.ofDefinitions l.helpers f
    = (Kind.arityOf? l.kinds f).map fun n => (List.replicate n (.word bitWidth), .word bitWidth)

/-- Entries that are not functions have no part in what helpers declare. -/
theorem Declares.tally {key : String} {form : KindForm} (h : l.Declares bitWidth)
    (hkey : key ∈ Operator.standard ∨ ∃ literal, form = .constant literal)
    (hhelper : Operator.isHelper key = false) :
    Declares bitWidth { l with kinds := Kind.tally key form l.kinds } := by
  refine ⟨Kind.one_le_count_tally h.counts, fun k hk => ?_, fun f hf => ?_⟩
  · rcases Kind.mem_tally hk with rfl | ⟨j, hj, hkeys, hforms⟩
    · exact hkey.imp_right .inr
    · rw [hkeys, hforms]
      exact h.keys j hj
  · have hne : f ≠ key := by
      rintro rfl
      rw [hhelper] at hf
      cases hf
    rw [Kind.arityOf?_tally, if_neg hne]
    exact h.helpers f hf

theorem Declares.function {name : String} {names : List String} {t : Term} {helpers : List Term}
    (h : l.Declares bitWidth)
    (hhelpers : Operator.helperName name ∈ l.kinds.map Kind.key ∧ helpers = l.helpers
      ∨ Operator.helperName name ∉ l.kinds.map Kind.key
        ∧ helpers = l.helpers ++ [.defineFun (Operator.helperName name) names (.bitVec bitWidth)
          (.bitVec bitWidth) t]) :
    Declares bitWidth { l with
      kinds := Kind.tally (Operator.helperName name)
        (.operator (Operator.helperName name) names.length false) l.kinds
      helpers := helpers } := by
  refine ⟨Kind.one_le_count_tally h.counts, fun k hk => ?_, fun f hf => ?_⟩
  · rcases Kind.mem_tally hk with rfl | ⟨j, hj, hkeys, hforms⟩
    · exact .inr (.inl (isHelper_helperName name))
    · rw [hkeys, hforms]
      exact h.keys j hj
  · rw [Kind.arityOf?_tally]
    rcases hhelpers with ⟨hmem, rfl⟩ | ⟨hnew, rfl⟩
    · rw [h.helpers f hf]
      split_ifs with hname
      · subst hname
        obtain ⟨n, hn⟩ := Option.ne_none_iff_exists'.1 (mt Kind.arityOf?_eq_none.1 (not_not.2 hmem))
        rw [hn, Option.getD_some]
      · rfl
    · rw [Declarations.ofDefinitions_append, h.helpers f hf]
      split_ifs with hname
      · subst hname
        rw [Kind.arityOf?_eq_none.2 hnew]
        rw [Option.map_none, Option.none_or, Declarations.ofDefinitions, List.findSome?_cons,
          Declarations.ofDefinition_defineFun, if_pos rfl]
        rfl
      · have hother : Declarations.ofDefinitions [.defineFun (Operator.helperName name) names
            (.bitVec bitWidth) (.bitVec bitWidth) t] f = none := by
          rw [Declarations.ofDefinitions, List.findSome?_cons,
            Declarations.ofDefinition_of_ne (Ne.symm hname)]
          rfl
        rw [hother, Option.or_none]

theorem Declares.add {entry : LibraryEntry} (hl : l.Declares e.bitWidth)
    (hentry : ∀ name, entry = .operator name → name.name ∈ Operator.standard)
    (h : (add e l entry).result = .ok l') : l'.Declares e.bitWidth := by
  rcases add_cases h with ⟨name, hname, rfl⟩ | ⟨width, -, -, rfl⟩ |
    ⟨width, literal, key, -, hkey, rfl⟩ | ⟨name, params, body, helpers, -, hhelpers, rfl⟩
  · have hstandard := hentry name hname
    exact hl.tally (.inl hstandard) (Operator.isHelper_of_mem_standard _ hstandard)
  · exact ⟨hl.counts, hl.keys, hl.helpers⟩
  · refine hl.tally (.inr ⟨key, rfl⟩) ?_
    obtain ⟨v, -, rfl⟩ := result_encodeConstant_eq_ok hkey
    rw [Bool.eq_false_iff]
    intro hhelper
    have hhead := head?_of_isHelper hhelper
    rw [head?_binary] at hhead
    exact absurd hhead (by decide)
  · rw [← List.length_map (f := Ident.name)]
    rcases hhelpers with hknown | ⟨hnew, t, -, hdef⟩
    · exact hl.function (t := .atom "") (.inl hknown)
    · exact hl.function (.inr ⟨hnew, hdef⟩)

end Library

namespace TaggedLibrary

variable {e : Encoder} {s : Settings} {entries : List LibraryEntry} {l : TaggedLibrary}

theorem declares_of_ofEntries
    (hentries : ∀ name, LibraryEntry.operator name ∈ entries → name.name ∈ Operator.standard)
    (h : (ofEntries entries e s).result = .ok l) : l.toLibrary.Declares e.bitWidth := by
  obtain ⟨hfold, -, -⟩ := ofEntries_eq_ok_iff.1 h
  rw [Logged.result_foldlM] at hfold
  refine foldlM_induction hfold ⟨by simp, by simp, fun f _ => rfl⟩ ?_
  intro entry hmem b b' hb hadd
  refine hb.add (fun name hname => hentries name ?_) hadd
  rw [← hname]
  exact hmem

end TaggedLibrary

end Sygus

end BitSynth
