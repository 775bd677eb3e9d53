import BitSynth.Proofs.Grammar.WellFormed
import BitSynth.Proofs.Program.Extractions
import BitSynth.Proofs.Solver.Helpers

/-!
# Functions and their helpers

A function of the library is to have one helper, and the kind that counts it a wrapper that calls
the helper. Kinds are told apart by their keys alone. An operator may be written with the name of a
helper: if one stands before the first function of the name, its kind is there when the function
comes and nothing is defined. Otherwise the first function of the name is defined
(`TaggedLibrary.defines_function_iff`).
-/

namespace BitSynth

/-- The definitions of the name. -/
def Term.definitionsOf (f : String) (ts : List Term) : List Term :=
  ts.filter (·.definedName? = some f)

theorem Term.mem_definitionsOf_iff {f : String} {ts : List Term} {t : Term} :
    t ∈ definitionsOf f ts ↔ t ∈ ts ∧ t.definedName? = some f := by
  rw [definitionsOf, List.mem_filter, decide_eq_true_iff]

namespace Sygus

/-! ## What a library has under a key -/

/-- A list without repetitions is told by its members, of which there may be at most one. -/
theorem eq_toList_of_nodup {α : Type} {as : List α} {o : Option α} (has : as.Nodup)
    (hmem : ∀ a, a ∈ as ↔ o = some a) : as = o.toList := by
  cases o with
  | none => exact List.eq_nil_iff_forall_not_mem.2 fun a ha => nomatch (hmem a).1 ha
  | some b =>
    refine List.perm_singleton.1 ((List.perm_ext_iff_of_nodup has (List.nodup_singleton b)).2 ?_)
    intro a
    rw [hmem, List.mem_singleton, Option.some.injEq, eq_comm]

namespace Library

variable {e : Encoder} {es before after : List LibraryEntry} {l : Library} {key : String}
  {name : Ident} {params : List Ident} {body : Expr}

theorem Gathers.filter_kinds (h : Gathers e es l) (key : String) :
    l.kinds.filter (·.key = key)
      = ((first? e es key).map fun c => ⟨key, countOf e es key, c.form⟩).toList := by
  refine eq_toList_of_nodup (h.keys.of_map.filter _) fun k => ?_
  rw [List.mem_filter, decide_eq_true_iff]
  constructor
  · rintro ⟨hk, rfl⟩
    exact h.mem_kinds_iff.1 hk
  · intro hk
    obtain ⟨c, -, rfl⟩ := Option.map_eq_some_iff.1 hk
    exact ⟨h.mem_kinds_iff.2 hk, rfl⟩

/-- The first entry with the key tells what is defined under it. -/
theorem Gathers.definitionsOf_helpers (h : Gathers e es l) (key : String) :
    Term.definitionsOf key l.helpers
      = ((first? e es key).bind fun c => c.definition.join).toList := by
  refine eq_toList_of_nodup (h.nodup.filter _) fun t => ?_
  simp only [Term.mem_definitionsOf_iff, h.helpers, Option.bind_eq_some_iff, Option.join_eq_some_iff]
  constructor
  · rintro ⟨⟨key', c, hc, ht⟩, hname⟩
    obtain ⟨names, sort, body, rfl⟩ := definition_eq hc ht
    obtain rfl := Option.some.inj hname
    exact ⟨c, hc, ht⟩
  · rintro ⟨c, hc, ht⟩
    obtain ⟨names, sort, body, rfl⟩ := definition_eq hc ht
    exact ⟨⟨key, c, hc, ht⟩, rfl⟩

/-- No entry precludes the function if none is an operator written with the name of its helper or
another function of the name. -/
theorem forall_not_precludes (hop : .operator ⟨Operator.helperName name.name⟩ ∉ before)
    (hfirst : ∀ params body, .function name params body ∉ before) :
    ∀ entry ∈ before, ¬ entry.Precludes name := by
  intro entry hentry hprecludes
  cases entry with
  | operator op =>
    obtain rfl : op = ⟨Operator.helperName name.name⟩ := congrArg Ident.mk hprecludes
    exact hop hentry
  | constant width value => cases hprecludes
  | function other params body =>
    obtain rfl : other = name := hprecludes
    exact hfirst params body hentry

/-- What an operator written with the name of a helper brings with it. -/
theorem contribution?_helperName {op : Ident} (h : op.name = Operator.helperName name.name) :
    contribution? e (.operator op) = some {
      key := Operator.helperName name.name
      form := .operator (Operator.helperName name.name) 2 false } := by
  have hhelper := isHelper_helperName name.name
  rw [contribution?, h, Operator.smtName_of_isHelper hhelper, Operator.arity_of_isHelper hhelper,
    Operator.ofName?_of_isHelper hhelper, Option.isSome_none]

/-- If no function of the name stands before an operator that is written with the name of its
helper, such an operator is the first of the key. -/
theorem first?_of_mem_operator
    (hop : .operator ⟨Operator.helperName name.name⟩ ∈ before)
    (hfirst : ∀ params body, .function name params body ∉ before) (after : List LibraryEntry) :
    first? e (before ++ after) (Operator.helperName name.name) = some {
      key := Operator.helperName name.name
      form := .operator (Operator.helperName name.name) 2 false } := by
  obtain ⟨c, hc⟩ := exists_first?_of_mem (e := e) hop (contribution?_helperName rfl)
  obtain ⟨entry, hentry, hcontribution⟩ := exists_mem_of_first? hc
  have hprecludes : entry.Precludes name := by
    by_contra hnot
    exact key_ne_helperName hcontribution hnot (key_of_first? hc)
  rw [first?, contributions, List.filterMap_append, List.find?_append, ← contributions, ← first?,
    hc, Option.some_or, ← hcontribution]
  cases entry with
  | operator op => exact contribution?_helperName hprecludes
  | constant width value => cases hprecludes
  | function other params body =>
    obtain rfl : other = name := hprecludes
    exact absurd hentry (hfirst params body)

end Library

namespace TaggedLibrary

variable {e : Encoder} {s : Settings} {l : TaggedLibrary} {before after : List LibraryEntry}
  {name : Ident} {params : List Ident} {body : Expr}

theorem length_operandParts (arity high low : Nat) :
    (operandParts arity high low).length = arity := by
  rw [operandParts, List.length_map, operandNames, List.length_map, List.length_range]

theorem definitionsOf_wrappers {bitWidth i : Nat} (hl : l.toLibrary.Sound bitWidth) {k : Kind}
    {smtName : String} {arity : Nat} {relation : Bool} (hk : l.kinds[i]? = some k)
    (hform : k.form = .operator smtName arity relation) (width : Nat) :
    Term.definitionsOf k.wrapperName (l.wrappers width)
      = [l.wrapper width i k smtName arity relation] := by
  have hnodup := (Grammar.nodup_definedName?_wrappers hl width).of_map
  refine eq_toList_of_nodup (o := some _) (hnodup.filter _) fun t => ?_
  rw [Term.mem_definitionsOf_iff, Option.some.injEq]
  constructor
  · rintro ⟨ht, hname⟩
    exact (Grammar.eq_wrapper_of_definedName? hl hk hform (List.mem_append_right _ ht) hname).symm
  · rintro rfl
    exact ⟨mem_wrappers_iff.2 ⟨i, k, smtName, arity, relation, hk, hform, rfl⟩, rfl⟩

/-- One kind has the key. It counts `f`, taken for a function of so many operands, and its wrapper
applies `f` to as many. -/
structure Calls (l : TaggedLibrary) (bitWidth : Nat) (f : String) (arity : Nat) : Prop where
  kind : (l.kinds.filter (·.key = f)).map Kind.form = [.operator f arity false]
  wrapper : ∃ tag operands, operands.length = arity
    ∧ Term.definitionsOf ("op_" ++ f) (l.wrappers bitWidth) = [
        .defineFun ("op_" ++ f) (operandNames arity) (.bitVec (l.tagWidth + bitWidth))
          (.bitVec (l.tagWidth + bitWidth)) (.concat tag (.call f operands))]

/-- The function is defined once, by the encoding of its body, and called with an operand for each
of its parameters. -/
structure Defines (l : TaggedLibrary) (e : Encoder) (f : String) (params : List Ident)
    (body : Expr) : Prop where
  helper : ∃ t, (e.encode body).result = .ok t ∧ Term.definitionsOf f l.helpers = [
    .defineFun f (params.map Ident.name) (.bitVec e.bitWidth) (.bitVec e.bitWidth) t]
  calls : l.Calls e.bitWidth f params.length

/-- The form of the first entry with the key is that of its kind, which the wrapper applies. -/
theorem calls_of_first? {es : List LibraryEntry} {c : Contribution} {f : String} {arity : Nat}
    (hl : Library.Gathers e es l.toLibrary) (hsound : l.toLibrary.Sound e.bitWidth)
    (hc : Library.first? e es f = some c) (hform : c.form = .operator f arity false) :
    l.Calls e.bitWidth f arity := by
  have hkinds := hl.filter_kinds f
  rw [hc, Option.map_some, Option.toList_some, hform] at hkinds
  have hmem := List.mem_filter.1 (hkinds ▸ List.mem_singleton_self _)
  obtain ⟨i, hi⟩ := List.mem_iff_getElem?.1 hmem.1
  refine ⟨by rw [hkinds, List.map_singleton], l.wrapperTag e.bitWidth i arity,
    operandParts arity (e.bitWidth - 1) 0, length_operandParts .., ?_⟩
  have hwrapper := definitionsOf_wrappers hsound hi rfl e.bitWidth
  rw [wrapper_eq] at hwrapper
  exact hwrapper

section First

variable (h : (ofEntries (before ++ .function name params body :: after) e s).result = .ok l)
  (hfirst : ∀ params' body', .function name params' body' ∉ before)

include h hfirst

/-- Behind an operator written with the name of the helper, the name is called but not defined. -/
theorem undefined_of_mem (hop : .operator ⟨Operator.helperName name.name⟩ ∈ before) :
    Term.definitionsOf (Operator.helperName name.name) l.helpers = []
      ∧ l.Calls e.bitWidth (Operator.helperName name.name) 2 := by
  have hl := Library.gathers_of_foldlM (ofEntries_eq_ok_iff.1 h).1
  have hc := Library.first?_of_mem_operator (e := e) hop hfirst (.function name params body :: after)
  refine ⟨?_, calls_of_first? hl (sound_of_ofEntries h) hc rfl⟩
  rw [hl.definitionsOf_helpers, hc]
  rfl

theorem defines_of_notMem (hop : .operator ⟨Operator.helperName name.name⟩ ∉ before) :
    l.Defines e (Operator.helperName name.name) params body := by
  have hfold := (ofEntries_eq_ok_iff.1 h).1
  have hl := Library.gathers_of_foldlM hfold
  have hc : Library.first? e (before ++ .function name params body :: after)
      (Operator.helperName name.name) = Library.contribution? e (.function name params body) :=
    Library.first?_function (Library.forall_not_precludes hop hfirst)
  refine ⟨?_, calls_of_first? hl (sound_of_ofEntries h) hc rfl⟩
  have hdefined := (Library.admitted_of_foldlM hfold).definitions _ _ hc
  cases hbody : (e.encode body).result with
  | error err => exact absurd (by rw [hbody]; rfl) hdefined
  | ok t =>
    refine ⟨t, rfl, ?_⟩
    rw [hl.definitionsOf_helpers, hc, Library.contribution?, hbody]
    rfl

end First

/-- The first function of its name is defined, exactly if no operator before it is written with the
name of its helper. Behind such an operator there is no definition of the name, and the wrapper
calls it with two operands, whatever the parameters of the function are. -/
theorem defines_function_iff
    (h : (ofEntries (before ++ .function name params body :: after) e s).result = .ok l)
    (hfirst : ∀ params' body', .function name params' body' ∉ before) :
    (l.Defines e (Operator.helperName name.name) params body
        ↔ .operator ⟨Operator.helperName name.name⟩ ∉ before)
      ∧ (.operator ⟨Operator.helperName name.name⟩ ∈ before →
        Term.definitionsOf (Operator.helperName name.name) l.helpers = []
          ∧ l.Calls e.bitWidth (Operator.helperName name.name) 2) := by
  refine ⟨⟨fun hdefines hop => ?_, defines_of_notMem h hfirst⟩, undefined_of_mem h hfirst⟩
  obtain ⟨t, -, hhelper⟩ := hdefines.helper
  rw [(undefined_of_mem h hfirst hop).1] at hhelper
  cases hhelper

/-- The operator may come behind the function. -/
theorem defines_function_before_operator : ∃ l,
    (ofEntries ([.operator ⟨"add"⟩]
        ++ [.function ⟨"f"⟩ [⟨"a"⟩] (.ident ⟨"a"⟩), .operator ⟨"cust_f"⟩]) ⟨4, .truncate⟩ {}).result
        = .ok l
      ∧ (∀ params body, LibraryEntry.function ⟨"f"⟩ params body ∉ [.operator ⟨"add"⟩])
      ∧ l.Defines ⟨4, .truncate⟩ "cust_f" [⟨"a"⟩] (.ident ⟨"a"⟩) := by
  obtain ⟨l, hl⟩ : ∃ l, (ofEntries ([.operator ⟨"add"⟩]
      ++ [.function ⟨"f"⟩ [⟨"a"⟩] (.ident ⟨"a"⟩), .operator ⟨"cust_f"⟩]) ⟨4, .truncate⟩ {}).result
        = .ok l := ⟨_, rfl⟩
  have hfirst (params : List Ident) (body : Expr) :
      LibraryEntry.function ⟨"f"⟩ params body ∉ [.operator ⟨"add"⟩] := by simp
  exact ⟨l, hl, hfirst, (defines_function_iff hl hfirst).1.2 (by decide)⟩

/-- An operator before the function leaves it without a definition. -/
theorem not_forall_defines_function : ¬ ∀ (before after : List LibraryEntry) (name : Ident)
    (params : List Ident) (body : Expr) (e : Encoder) (s : Settings) (l : TaggedLibrary),
    (ofEntries (before ++ .function name params body :: after) e s).result = .ok l →
      (∀ params' body', .function name params' body' ∉ before) →
        l.Defines e (Operator.helperName name.name) params body := by
  intro h
  have hdefines := h [.operator ⟨"cust_f"⟩] [] ⟨"f"⟩ [⟨"a"⟩] (.ident ⟨"a"⟩) ⟨4, .truncate⟩ {} _ rfl
    (by simp)
  obtain ⟨t, -, hhelper⟩ := hdefines.helper
  cases hhelper

end TaggedLibrary

end Sygus

end BitSynth
