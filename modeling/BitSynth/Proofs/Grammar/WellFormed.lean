import BitSynth.Proofs.Grammar.Problem
import BitSynth.Proofs.Solver.Sorts
import BitSynth.Proofs.Solver.Wrapper
import Mathlib.Logic.Relation

/-!
# Well-formed grammars

A problem that comes of a program has a grammar in which nothing is left open. Nonterminals are
distinct, and each production calls nonterminals that are listed, wrappers that are defined once and
take as many operands as they are given, and nothing else but joining. What the nonterminals of
usages produce has the sort of a solution, and a nonterminal calls only those of further usages
(`Problem.ofProgram_wellFormed`).
-/

namespace BitSynth

namespace Term

mutual

/-- The symbols of a term that are no bit strings, each with the number of its operands. The indices
of an extraction are not among them. -/
def calls : Term → List (String × Nat)
  | .atom s => if (Word.ofLiteral? s).isSome then [] else [(s, 0)]
  | .list [] => []
  | .list (.atom f :: args) => (f, args.length) :: callsAll args
  | .list (.list _ :: args) => callsAll args

def callsAll : List Term → List (String × Nat)
  | [] => []
  | t :: ts => calls t ++ callsAll ts

end

theorem mem_callsAll {c : String × Nat} : ∀ {ts : List Term},
    c ∈ callsAll ts ↔ ∃ t ∈ ts, c ∈ t.calls
  | [] => by simp [callsAll]
  | t :: ts => by simp [callsAll, mem_callsAll]

/-- The name that a definition defines. -/
def definedName? : Term → Option String
  | .list [.atom "define-fun", .atom f, _, _, _] => some f
  | _ => none

theorem definedName?_defineFun (f : String) (names : List String) (s t body : Term) :
    (defineFun f names s t body).definedName? = some f := rfl

theorem definedName?_of_ofDefinition {t : Term} {f : String} {d : List ValueSort × ValueSort}
    (h : Declarations.ofDefinition t f = some d) : t.definedName? = some f := by
  unfold Declarations.ofDefinition declaration? at h
  split at h
  · obtain ⟨d', hd', h⟩ := Option.bind_eq_some_iff.1 h
    split_ifs at h with hf
    obtain ⟨ps, -, h⟩ := Option.bind_eq_some_iff.1 hd'
    obtain ⟨σ, -, rfl⟩ := Option.map_eq_some_iff.1 h
    exact congrArg some hf
  · cases h

theorem calls_atom {s : String} (hs : s.toList.head? ≠ some '#') :
    (Term.atom s).calls = [(s, 0)] := by
  rw [calls, Word.ofLiteral?_eq_none hs]
  rfl

theorem calls_call {f : String} (hf : f.toList.head? ≠ some '#') (ts : List Term) :
    (Term.call f ts).calls = (f, ts.length) :: callsAll ts := by
  cases ts with
  | nil => exact calls_atom hf
  | cons t ts => exact calls.eq_3 f (t :: ts)

theorem calls_behind {width : Nat} (hwidth : 0 < width) (t : Term) :
    (Term.concat (.atom (Bits.zeros width)) t).calls = ("concat", 2) :: t.calls := by
  rw [Term.concat, app, calls, callsAll, callsAll, callsAll, calls, Word.ofLiteral?_zeros hwidth,
    List.append_nil]
  rfl

theorem calls_extract (high low : Int) (t : Term) : (Term.extract high low t).calls = t.calls := by
  rw [Term.extract, app, calls, callsAll, callsAll, List.append_nil]

end Term

namespace Sygus

/-- What productions can refer to: nonterminals stand for words of their sorts, and definitions
declare functions. -/
def scope (ns : List Nonterminal) (definitions : List Term) : Declarations := fun f =>
  match ns.find? (·.name = f) with
  | some n => n.sort.sortNamed?.map ([], ·)
  | none => Declarations.ofDefinitions definitions f

/-- The nonterminal has a production with this call. -/
def Nonterminal.Calls (n : Nonterminal) (f : String) (operands : Nat) : Prop :=
  ∃ p ∈ n.productions, ¬ IsClass p ∧ (f, operands) ∈ p.calls

namespace Grammar

variable {l : TaggedLibrary} {bitWidth : Nat} {u : Usage} {p : Term} {f : String} {n : Nat}

/-! ## Calls -/

theorem head?_usageName (u : Usage) : u.name.toList.head? = some 'S' := by
  rw [Usage.toList_name]
  rfl

theorem calls_variableName : (Term.atom variableName).calls = [(variableName, 0)] :=
  Term.calls_atom (by decide)

theorem calls_constantName : (Term.atom constantName).calls = [(constantName, 0)] :=
  Term.calls_atom (by decide)

theorem calls_freeConstant (htag : 0 < l.tagWidth) (width bitWidth : Nat) :
    (freeConstant l.tagWidth width bitWidth).calls = [("concat", 2), (constantName, 0)] := by
  unfold freeConstant
  simp only
  split_ifs
  · rw [Term.calls_behind (by omega), calls_constantName]
  · rw [Term.calls_behind htag, calls_constantName]
  · rw [Term.calls_behind htag, Term.calls_extract, calls_constantName]

/-- A leaf is an input, the free constant if there is one, or a bit string, behind an empty tag. -/
theorem mem_calls_leaf (hl : l.toLibrary.Sound bitWidth) (hwidth : 0 < bitWidth)
    (htag : 0 < l.tagWidth) (hp : p ∈ leaves l bitWidth) (h : (f, n) ∈ p.calls) :
    f = "concat" ∧ n = 2 ∨ f = variableName ∧ n = 0
      ∨ f = constantName ∧ n = 0 ∧ ∃ w, l.freeWidth = some w := by
  simp only [leaves, List.mem_append, List.mem_singleton, Option.mem_toList, Option.map_eq_some_iff,
    List.mem_filterMap] at hp
  rcases hp with (rfl | ⟨w, hw, rfl⟩) | ⟨k, hk, hp⟩
  · rw [Term.calls_behind htag, calls_variableName] at h
    simp only [List.mem_cons, Prod.mk.injEq, List.not_mem_nil, or_false] at h
    exact h.imp_right .inl
  · rw [calls_freeConstant htag] at h
    simp only [List.mem_cons, Prod.mk.injEq, List.not_mem_nil, or_false] at h
    exact h.imp_right fun h => .inr ⟨h.1, h.2, w, hw⟩
  · split at hp
    · rename_i literal hform
      obtain rfl := Option.some.inj hp
      obtain ⟨v, hv, rfl⟩ := (hform ▸ hl.forms k hk).eq_binary
      rw [Term.calls_behind htag, Term.calls, Word.ofLiteral?_binary hwidth hv] at h
      exact .inl (Prod.mk.inj (List.mem_singleton.1 h))
    · cases hp

theorem mem_applications_iff : p ∈ applications l u ↔ ∃ i k smtName arity relation,
    l.kinds[i]? = some k ∧ k.form = .operator smtName arity relation ∧ u.Affords l.budgets i
      ∧ p = .call k.wrapperName (List.replicate arity (.atom (u.spend i).name)) := by
  unfold applications
  simp only [List.mem_filterMap, Prod.exists, List.mem_zipIdx_iff_getElem?]
  constructor
  · rintro ⟨k, i, hk, hp⟩
    split at hp
    · rename_i smtName arity relation hform
      split_ifs at hp with hafford
      exact ⟨i, k, smtName, arity, relation, hk, hform, hafford, (Option.some.inj hp).symm⟩
    · cases hp
  · rintro ⟨i, k, smtName, arity, relation, hk, hform, hafford, rfl⟩
    refine ⟨k, i, hk, ?_⟩
    rw [hform]
    exact if_pos hafford

theorem head?_wrapperName (k : Kind) : k.wrapperName.toList.head? = some 'o' := by
  simp [Kind.wrapperName]

/-- An application calls a wrapper with its operands, and the nonterminal of one more use. -/
theorem mem_calls_application (hp : p ∈ applications l u) (h : (f, n) ∈ p.calls) :
    ∃ i k smtName relation arity, l.kinds[i]? = some k
      ∧ k.form = .operator smtName arity relation ∧ u.Affords l.budgets i
      ∧ (f = k.wrapperName ∧ n = arity ∨ f = (u.spend i).name ∧ n = 0) := by
  obtain ⟨i, k, smtName, arity, relation, hk, hform, hafford, rfl⟩ := mem_applications_iff.1 hp
  refine ⟨i, k, smtName, relation, arity, hk, hform, hafford, ?_⟩
  have hne : k.wrapperName.toList.head? ≠ some '#' := by
    rw [head?_wrapperName]
    decide
  rw [Term.calls_call hne, List.mem_cons, Term.mem_callsAll] at h
  rcases h with h | ⟨t, ht, h⟩
  · obtain ⟨rfl, rfl⟩ := Prod.mk.inj h
    exact .inl ⟨rfl, List.length_replicate⟩
  · have hname : (u.spend i).name.toList.head? ≠ some '#' := by
      rw [head?_usageName]
      decide
    rw [List.eq_of_mem_replicate ht, Term.calls_atom hname] at h
    obtain ⟨rfl, rfl⟩ := Prod.mk.inj (List.mem_singleton.1 h)
    exact .inr ⟨rfl, rfl⟩

/-! ## Definitions -/

/-- What the grammar of a library refers to. -/
def declared (l : TaggedLibrary) (bitWidth : Nat) : Declarations :=
  scope (all l bitWidth) (l.helpers ++ l.wrappers bitWidth)

theorem declared_name {m : Nonterminal} (hm : m ∈ all l bitWidth) :
    declared l bitWidth m.name = m.sort.sortNamed?.map ([], ·) := by
  obtain ⟨m', hfind⟩ : ∃ m', (all l bitWidth).find? (·.name = m.name) = some m' := by
    rw [← Option.isSome_iff_exists, List.find?_isSome]
    exact ⟨m, hm, decide_eq_true rfl⟩
  have hname : m'.name = m.name := by simpa using List.find?_some hfind
  obtain rfl := eq_of_name_eq (List.mem_of_find?_eq_some hfind) hm hname
  rw [declared, scope, hfind]

theorem declared_symbol (hf : IsSymbol f) : declared l bitWidth f
    = Declarations.ofDefinitions (l.helpers ++ l.wrappers bitWidth) f := by
  have hfind : (all l bitWidth).find? (·.name = f) = none := by
    rw [List.find?_eq_none]
    intro m hm
    simpa using name_ne_of_isSymbol hf m hm
  rw [declared, scope, hfind]

theorem ofDefinitions_concat (hl : l.toLibrary.Sound bitWidth) (width : Nat) :
    Declarations.ofDefinitions (l.helpers ++ l.wrappers width) "concat" = none := by
  rw [Declarations.ofDefinitions, List.findSome?_eq_none_iff]
  intro t ht
  rcases List.mem_append.1 ht with ht | ht
  · obtain ⟨function, names, sort, body, rfl⟩ := hl.helpers t ht
    refine Declarations.ofDefinition_of_ne ?_ names sort sort body
    intro h
    have hhelper := isHelper_helperName function
    rw [h] at hhelper
    exact absurd hhelper (by decide)
  · obtain ⟨i, k, smtName, arity, relation, -, -, rfl⟩ := TaggedLibrary.mem_wrappers_iff.1 ht
    rw [TaggedLibrary.wrapper_eq]
    refine Declarations.ofDefinition_of_ne ?_ _ _ _ _
    intro h
    have hhead := head?_wrapperName k
    rw [h] at hhead
    exact absurd hhead (by decide)

/-- A definition of the name of a wrapper is that wrapper. -/
theorem eq_wrapper_of_definedName? (hl : l.toLibrary.Sound bitWidth) {width i : Nat} {k : Kind}
    {smtName : String} {arity : Nat} {relation : Bool} (hk : l.kinds[i]? = some k)
    (hform : k.form = .operator smtName arity relation) {t : Term}
    (ht : t ∈ l.helpers ++ l.wrappers width) (hname : t.definedName? = some k.wrapperName) :
    t = l.wrapper width i k smtName arity relation := by
  rcases List.mem_append.1 ht with ht | ht
  · obtain ⟨function, names, sort, body, rfl⟩ := hl.helpers t ht
    have hnot := isHelper_wrapperName k
    rw [← Option.some.inj hname, isHelper_helperName] at hnot
    cases hnot
  · obtain ⟨j, k', smtName', arity', relation', hk', hform', rfl⟩ :=
      TaggedLibrary.mem_wrappers_iff.1 ht
    obtain rfl := hl.eq_of_wrapperName_eq hk' hk (Option.some.inj hname)
    obtain rfl : k' = k := Option.some.inj (hk'.symm.trans hk)
    rw [hform] at hform'
    cases hform'
    rfl

theorem ofDefinitions_wrapperName (hl : l.toLibrary.Sound bitWidth) {width i : Nat} {k : Kind}
    {smtName : String} {arity : Nat} {relation : Bool} (hk : l.kinds[i]? = some k)
    (hform : k.form = .operator smtName arity relation) :
    Declarations.ofDefinitions (l.helpers ++ l.wrappers width) k.wrapperName
      = some (List.replicate arity (.word (l.tagWidth + width)), .word (l.tagWidth + width)) := by
  have hwrapper : Declarations.ofDefinition (l.wrapper width i k smtName arity relation)
      k.wrapperName
        = some (List.replicate arity (.word (l.tagWidth + width)), .word (l.tagWidth + width)) := by
    rw [TaggedLibrary.wrapper_eq, Declarations.ofDefinition_defineFun, if_pos rfl,
      TaggedLibrary.operandNames, List.length_map, List.length_range]
  refine findSome?_eq_some (List.mem_append_right _ (TaggedLibrary.mem_wrappers_iff.2
    ⟨i, k, smtName, arity, relation, hk, hform, rfl⟩)) hwrapper fun t ht d hd => ?_
  have hname := Term.definedName?_of_ofDefinition hd
  rw [eq_wrapper_of_definedName? hl hk hform ht hname, hwrapper] at hd
  exact (Option.some.inj hd).symm

theorem nodup_definedName?_wrappers (hl : l.toLibrary.Sound bitWidth) (width : Nat) :
    ((l.wrappers width).map Term.definedName?).Nodup := by
  have hkeys : l.kinds.zipIdx.Pairwise fun a b => a.1.key ≠ b.1.key := by
    have h := hl.keys
    rw [← List.zipIdx_map_fst 0 l.kinds, List.map_map] at h
    exact List.pairwise_map.1 h
  rw [List.Nodup, List.pairwise_map, TaggedLibrary.wrappers, List.pairwise_filterMap]
  refine hkeys.imp fun {a b} hkey t ht t' ht' h => hkey ?_
  obtain ⟨k, i⟩ := a
  obtain ⟨k', j⟩ := b
  simp only at ht ht'
  split at ht <;> split at ht' <;> simp only [Option.some.injEq, reduceCtorEq] at ht ht'
  subst ht ht'
  simpa [TaggedLibrary.wrapper_eq, Term.definedName?_defineFun, Kind.wrapperName] using h

/-- Each wrapper is defined once. -/
theorem count_definedName? (hl : l.toLibrary.Sound bitWidth) {width i : Nat} {k : Kind}
    {smtName : String} {arity : Nat} {relation : Bool} (hk : l.kinds[i]? = some k)
    (hform : k.form = .operator smtName arity relation) :
    ((l.helpers ++ l.wrappers width).map Term.definedName?).count (some k.wrapperName) = 1 := by
  have hhelpers : some k.wrapperName ∉ l.helpers.map Term.definedName? := by
    intro h
    obtain ⟨t, ht, hname⟩ := List.mem_map.1 h
    obtain ⟨function, names, sort, body, rfl⟩ := hl.helpers t ht
    have hnot := isHelper_wrapperName k
    rw [← Option.some.inj hname, isHelper_helperName] at hnot
    cases hnot
  have hmem : some k.wrapperName ∈ (l.wrappers width).map Term.definedName? :=
    List.mem_map.2 ⟨l.wrapper width i k smtName arity relation, TaggedLibrary.mem_wrappers_iff.2
      ⟨i, k, smtName, arity, relation, hk, hform, rfl⟩, rfl⟩
  rw [List.map_append, List.count_append, List.count_eq_zero_of_not_mem hhelpers,
    List.count_eq_one_of_mem (nodup_definedName?_wrappers hl width) hmem]

/-! ## Sorts -/

section Productions

variable (hl : l.toLibrary.Sound bitWidth)
include hl

theorem declared_concat : declared l bitWidth "concat" = none := by
  rw [declared_symbol (isSymbol_of_head? (c := 'c') (by simp) (by decide)), ofDefinitions_concat hl]

/-- What stands behind an empty tag fills up the rest of the width. -/
theorem sort?_behind {width k : Nat} {t : Term} (hwidth : 0 < width)
    (ht : t.sort? (declared l bitWidth) = some (.word k)) :
    (Term.concat (.atom (Bits.zeros width)) t).sort? (declared l bitWidth)
      = some (.word (width + k)) :=
  Term.sort?_concat (declared_concat hl) (Term.sort?_zeros hwidth) ht

omit hl in
theorem sort?_name {m : Nonterminal} {width : Nat} (hm : m ∈ all l bitWidth)
    (hsort : m.sort = .bitVec width) :
    (Term.atom m.name).sort? (declared l bitWidth) = some (.word width) := by
  refine Term.sort?_constant ?_ ?_
  · rcases head?_name hm with ⟨h, -⟩ | ⟨h, -⟩ | ⟨h, -⟩ <;> rw [h] <;> decide
  · rw [declared_name hm, hsort, Term.sortNamed?_bitVec, Option.map_some]

/-- The free constant is filled up or cut down to the program's width. -/
theorem sort?_freeConstant (hwidth : 0 < bitWidth) (htag : 0 < l.tagWidth) {width : Nat}
    (hw : l.freeWidth = some width) :
    (freeConstant l.tagWidth width bitWidth).sort? (declared l bitWidth)
      = some (.word (l.tagWidth + bitWidth)) := by
  have hmem : anyOf constantName "Constant" width ∈ all l bitWidth :=
    mem_all_iff.2 (.inr (.inl ⟨width, hw, rfl⟩))
  have hconstant : (Term.atom constantName).sort? (declared l bitWidth) = some (.word width) :=
    sort?_name hmem rfl
  unfold freeConstant
  simp only
  split_ifs with hlt heq
  · rw [sort?_behind hl (by omega) hconstant]
    exact congrArg (some ∘ ValueSort.word) (by omega)
  · rw [sort?_behind hl htag hconstant, heq]
  · have hcut : (Term.extract (bitWidth - 1 : Nat) (0 : Nat) (.atom constantName)).sort?
        (declared l bitWidth) = some (.word (bitWidth - 1 - 0 + 1)) :=
      Term.sort?_extract hconstant (Nat.zero_le _) (by omega)
    rw [show bitWidth - 1 - 0 + 1 = bitWidth by omega] at hcut
    exact sort?_behind hl htag hcut

theorem sort?_leaf (hwidth : 0 < bitWidth) (htag : 0 < l.tagWidth) (hp : p ∈ leaves l bitWidth) :
    p.sort? (declared l bitWidth) = some (.word (l.tagWidth + bitWidth)) := by
  simp only [leaves, List.mem_append, List.mem_singleton, Option.mem_toList, Option.map_eq_some_iff,
    List.mem_filterMap] at hp
  rcases hp with (rfl | ⟨w, hw, rfl⟩) | ⟨k, hk, hp⟩
  · have hmem : anyOf variableName "Variable" bitWidth ∈ all l bitWidth :=
      mem_all_iff.2 (.inr (.inr rfl))
    exact sort?_behind hl htag (sort?_name hmem rfl)
  · exact sort?_freeConstant hl hwidth htag hw
  · split at hp
    · rename_i literal hform
      obtain rfl := Option.some.inj hp
      obtain ⟨v, hv, rfl⟩ := (hform ▸ hl.forms k hk).eq_binary
      exact sort?_behind hl htag (Term.sort?_binary hwidth hv)
    · cases hp

theorem sort?_application (hu : u.Within l.budgets) (hp : p ∈ applications l u) :
    p.sort? (declared l bitWidth) = some (.word (l.tagWidth + bitWidth)) := by
  obtain ⟨i, k, smtName, arity, relation, hk, hform, hafford, rfl⟩ := mem_applications_iff.1 hp
  have hnext : ofUsage l bitWidth (u.spend i) ∈ all l bitWidth :=
    mem_all_iff.2 (.inl ⟨_, hu.spend hafford, rfl⟩)
  have hoperand : (Term.atom (u.spend i).name).sort? (declared l bitWidth)
      = some (.word (l.tagWidth + bitWidth)) := sort?_name hnext rfl
  have hoperands : Term.sorts? (declared l bitWidth)
      (List.replicate arity (.atom (u.spend i).name))
        = some (List.replicate arity (.word (l.tagWidth + bitWidth))) := by
    rw [← List.map_id (List.replicate arity (Term.atom _)),
      Term.sorts?_map fun t ht => (List.eq_of_mem_replicate ht) ▸ hoperand, List.length_replicate]
  have hwrapper : k.wrapperName.toList.head? ≠ some '#' := by
    rw [head?_wrapperName]
    decide
  rw [Term.sort?_call hwrapper, hoperands, Option.bind_some]
  refine Term.headSort?_of_some ?_
  rw [declared_symbol (isSymbol_wrapperName k), ofDefinitions_wrapperName hl hk hform]

end Productions

/-! ## Nonterminals -/

theorem name_eq_of_mem_all {m : Nonterminal} (hm : m ∈ all l bitWidth) (hname : m.name = u.name) :
    u.Within l.budgets ∧ m = ofUsage l bitWidth u := by
  rcases head?_name hm with ⟨-, v, hv, rfl⟩ | ⟨h, -⟩ | ⟨h, -⟩
  · obtain rfl : v = u := Usage.name_inj hname
    exact ⟨hv, rfl⟩
  all_goals
    rw [hname, head?_usageName] at h
    exact absurd h (by decide)

/-- Only nonterminals of usages call anything. -/
theorem eq_ofUsage_of_calls {m : Nonterminal} (hm : m ∈ all l bitWidth) (h : m.Calls f n) :
    ∃ u : Usage, u.Within l.budgets ∧ m = ofUsage l bitWidth u := by
  obtain ⟨p, hp, hclass, -⟩ := h
  rcases mem_all_iff.1 hm with ⟨u, hu, rfl⟩ | ⟨w, -, rfl⟩ | rfl
  · exact ⟨u, hu, rfl⟩
  · obtain rfl := List.mem_singleton.1 hp
    exact absurd (.inr rfl) hclass
  · obtain rfl := List.mem_singleton.1 hp
    exact absurd (.inl rfl) hclass

theorem nodup_names (l : TaggedLibrary) (bitWidth : Nat) :
    ((all l bitWidth).map Nonterminal.name).Nodup := by
  have hstarts : ((Usage.reachable l.budgets).map Usage.name).Nodup :=
    (Usage.nodup_reachable l.budgets).map fun _ _ h => Usage.name_inj h
  have hne {s : String} (hs : s.toList.head? ≠ some 'S') :
      ∀ x ∈ (Usage.reachable l.budgets).map Usage.name, x ≠ s := by
    rintro x hx rfl
    obtain ⟨u, -, rfl⟩ := List.mem_map.1 hx
    exact hs (head?_usageName u)
  have hall : (all l bitWidth).map Nonterminal.name = (Usage.reachable l.budgets).map Usage.name
      ++ ((l.freeWidth.map fun _ => constantName).toList ++ [variableName]) := by
    rw [all, List.map_append, List.map_append, List.map_map, List.append_assoc]
    cases l.freeWidth <;> rfl
  rw [hall, List.nodup_append]
  refine ⟨hstarts, ?_, fun x hx y hy => ?_⟩
  · cases l.freeWidth with
    | none => exact List.nodup_singleton _
    | some w =>
      have hne : constantName ∉ [variableName] := by decide
      exact List.nodup_cons.2 ⟨hne, List.nodup_singleton _⟩
  · have hy : y = constantName ∨ y = variableName := by
      cases hw : l.freeWidth <;> rw [hw] at hy <;> simp_all
    rcases hy with rfl | rfl
    · exact hne (by decide) x hx
    · exact hne (by decide) x hx

end Grammar

/-! ## Problems -/

namespace Usage

/-- The other usage makes no fewer uses of any kind, and is not the same. -/
def StrictlyBelow (u v : Usage) : Prop := u ≠ v ∧ List.Forall₂ (· ≤ ·) u v

theorem forall₂_le_spend : ∀ (u : Usage) (k : Nat), List.Forall₂ (· ≤ ·) u (u.spend k)
  | [], k => by simp [spend]
  | n :: u, 0 => .cons (Nat.le_succ n) (List.forall₂_refl u)
  | n :: u, k + 1 => .cons (Nat.le_refl n) (forall₂_le_spend u k)

theorem strictlyBelow_spend {u : Usage} {k : Nat} (hk : k < u.length) :
    u.StrictlyBelow (u.spend k) := by
  refine ⟨fun h => ?_, forall₂_le_spend u k⟩
  have htotal := total_spend u hk
  rw [← h] at htotal
  omega

theorem total_lt_of_strictlyBelow {u v : Usage} (h : u.StrictlyBelow v) : u.total < v.total := by
  obtain ⟨hne, hle⟩ := h
  induction hle with
  | nil => exact absurd rfl hne
  | @cons m n u v hmn huv ih =>
    rw [total_cons, total_cons]
    by_cases h : u = v
    · subst h
      have hmn' : m ≠ n := fun h => hne (h ▸ rfl)
      omega
    · have := ih h
      omega

end Usage

namespace Problem

/-- One nonterminal calls another. -/
def Mentions (q : Problem) (m n : Nonterminal) : Prop :=
  m ∈ q.nonterminals ∧ n ∈ q.nonterminals ∧ ∃ operands, m.Calls n.name operands

/-- What the grammar of a problem promises to whoever reads it: where to start, that whatever is
called is there and takes the operands that it gets, which sorts things have, and that derivations
come to an end. -/
structure WellFormed (l : TaggedLibrary) (bitWidth : Nat) (q : Problem) : Prop where
  names : (q.nonterminals.map Nonterminal.name).Nodup
  start : ∃ n ∈ q.nonterminals.head?, n.name = (Usage.zero l.kinds.length).name
  calls : ∀ n ∈ q.nonterminals, ∀ f operands, n.Calls f operands →
    f = "concat" ∧ operands = 2
      ∨ operands = 0 ∧ (∃ m ∈ q.nonterminals, m.name = f)
      ∨ (q.definitions.map Term.definedName?).count (some f) = 1
        ∧ ∃ params σ, Declarations.ofDefinitions q.definitions f = some (params, σ)
          ∧ params.length = operands
  sorts : ∀ n ∈ q.nonterminals, ∀ u : Usage, n.name = u.name →
    n.sort = .bitVec (l.tagWidth + bitWidth) ∧ ∀ p ∈ n.productions,
      p.sort? (scope q.nonterminals q.definitions) = some (.word (l.tagWidth + bitWidth))
  above : ∀ n ∈ q.nonterminals, ∀ u v : Usage, n.name = u.name →
    ∀ operands, n.Calls v.name operands → u.StrictlyBelow v
  acyclic : ∀ n, ¬ Relation.TransGen q.Mentions n n

section WellFormed

variable {l : TaggedLibrary} {bitWidth : Nat} {q : Problem}

theorem above_of_calls (hl : l.toLibrary.Sound bitWidth) (hwidth : 0 < bitWidth)
    (htag : 0 < l.tagWidth) {u v : Usage} (hu : u.Within l.budgets) {operands : Nat}
    (h : (Grammar.ofUsage l bitWidth u).Calls v.name operands) : u.StrictlyBelow v := by
  have hhead := Grammar.head?_usageName v
  obtain ⟨p, hp, -, hcall⟩ := h
  rcases List.mem_append.1 hp with hp | hp
  · rcases Grammar.mem_calls_leaf hl hwidth htag hp hcall with ⟨h, -⟩ | ⟨h, -⟩ | ⟨h, -⟩ <;>
      rw [h] at hhead <;> exact absurd hhead (by decide)
  · obtain ⟨i, k, smtName, relation, arity, -, -, hafford, ⟨h, -⟩ | ⟨h, -⟩⟩ :=
      Grammar.mem_calls_application hp hcall
    · rw [h, Grammar.head?_wrapperName] at hhead
      exact absurd hhead (by decide)
    · rw [Usage.name_inj h]
      exact Usage.strictlyBelow_spend (hu.1 ▸ Usage.lt_length_of_affords hafford)

theorem calls_listed (hl : l.toLibrary.Sound bitWidth) (hwidth : 0 < bitWidth)
    (htag : 0 < l.tagWidth) {u : Usage} (hu : u.Within l.budgets) {f : String} {operands : Nat}
    (h : (Grammar.ofUsage l bitWidth u).Calls f operands) :
    f = "concat" ∧ operands = 2
      ∨ operands = 0 ∧ (∃ m ∈ Grammar.all l bitWidth, m.name = f)
      ∨ ((l.helpers ++ l.wrappers bitWidth).map Term.definedName?).count (some f) = 1
        ∧ ∃ params σ, Declarations.ofDefinitions (l.helpers ++ l.wrappers bitWidth) f
            = some (params, σ) ∧ params.length = operands := by
  obtain ⟨p, hp, -, hcall⟩ := h
  rcases List.mem_append.1 hp with hp | hp
  · rcases Grammar.mem_calls_leaf hl hwidth htag hp hcall with h | ⟨rfl, rfl⟩ | ⟨rfl, rfl, w, hw⟩
    · exact .inl h
    · exact .inr (.inl ⟨rfl, _, Grammar.mem_all_iff.2 (.inr (.inr rfl)), rfl⟩)
    · exact .inr (.inl ⟨rfl, _, Grammar.mem_all_iff.2 (.inr (.inl ⟨w, hw, rfl⟩)), rfl⟩)
  · obtain ⟨i, k, smtName, relation, arity, hk, hform, hafford, ⟨rfl, rfl⟩ | ⟨rfl, rfl⟩⟩ :=
      Grammar.mem_calls_application hp hcall
    · exact .inr (.inr ⟨Grammar.count_definedName? hl hk hform, _, _,
        Grammar.ofDefinitions_wrapperName hl hk hform, List.length_replicate⟩)
    · exact .inr (.inl ⟨rfl, _,
        Grammar.mem_all_iff.2 (.inl ⟨_, hu.spend hafford, rfl⟩), rfl⟩)

/-- Along calls the usages grow. -/
theorem total_lt_of_transGen (hl : l.toLibrary.Sound bitWidth) (hwidth : 0 < bitWidth)
    (htag : 0 < l.tagWidth) (hns : q.nonterminals = Grammar.all l bitWidth) {m n : Nonterminal}
    (h : Relation.TransGen q.Mentions m n) : ∃ u : Usage, m.name = u.name
      ∧ ∀ v : Usage, n.name = v.name → u.total < v.total := by
  have hstep {m n : Nonterminal} (h : q.Mentions m n) : ∃ u : Usage, m.name = u.name
      ∧ ∀ v : Usage, n.name = v.name → u.total < v.total := by
    obtain ⟨hm, -, operands, hcalls⟩ := h
    rw [hns] at hm
    obtain ⟨u, hu, rfl⟩ := Grammar.eq_ofUsage_of_calls hm hcalls
    refine ⟨u, rfl, fun v hv => Usage.total_lt_of_strictlyBelow ?_⟩
    exact above_of_calls hl hwidth htag hu (hv ▸ hcalls)
  induction h with
  | single h => exact hstep h
  | tail _ h ih =>
    obtain ⟨u, hu, hlt⟩ := ih
    obtain ⟨v, hv, hlt'⟩ := hstep h
    exact ⟨u, hu, fun w hw => Nat.lt_trans (hlt v hv) (hlt' w hw)⟩

theorem wellFormed_of_sound (hl : l.toLibrary.Sound bitWidth) (hwidth : 0 < bitWidth)
    (htag : 0 < l.tagWidth) (hns : q.nonterminals = Grammar.all l bitWidth)
    (hdefinitions : q.definitions = l.helpers ++ l.wrappers bitWidth) :
    q.WellFormed l bitWidth where
  names := hns ▸ Grammar.nodup_names l bitWidth
  start := by
    refine ⟨Grammar.ofUsage l bitWidth (Usage.zero l.budgets.length), ?_, ?_⟩
    · rw [hns, Grammar.all, List.append_assoc, List.head?_append, List.head?_map,
        Usage.head?_reachable]
      rfl
    · rw [Grammar.ofUsage, l.toLibrary.length_budgets]
  calls n hn f operands hcalls := by
    rw [hns] at hn ⊢
    rw [hdefinitions]
    obtain ⟨u, hu, rfl⟩ := Grammar.eq_ofUsage_of_calls hn hcalls
    exact calls_listed hl hwidth htag hu hcalls
  sorts n hn u hname := by
    rw [hns] at hn ⊢
    rw [hdefinitions]
    obtain ⟨hu, rfl⟩ := Grammar.name_eq_of_mem_all hn hname
    refine ⟨rfl, fun p hp => ?_⟩
    rcases List.mem_append.1 hp with hp | hp
    · exact Grammar.sort?_leaf hl hwidth htag hp
    · exact Grammar.sort?_application hl hu hp
  above n hn u v hname operands hcalls := by
    rw [hns] at hn
    obtain ⟨hu, rfl⟩ := Grammar.name_eq_of_mem_all hn hname
    exact above_of_calls hl hwidth htag hu hcalls
  acyclic n h := by
    obtain ⟨u, hu, hlt⟩ := total_lt_of_transGen hl hwidth htag hns h
    exact absurd (hlt u hu) (Nat.lt_irrefl _)

end WellFormed

variable {p : Program} {s : Settings} {q : Problem}

/-- The grammar of a problem that comes of a program is well-formed. -/
theorem ofProgram_wellFormed (h : (ofProgram p s).result = .ok q) (hwidth : 0 < p.spec.bitWidth) :
    ∃ l, (TaggedLibrary.ofEntries p.library (encoder p s) s).result = .ok l
      ∧ q.WellFormed l p.spec.bitWidth := by
  obtain ⟨hs, l, body, hl, -, rfl⟩ := ofProgram_eq_ok_iff.1 h
  obtain ⟨-, -, htag⟩ := TaggedLibrary.ofEntries_eq_ok_iff.1 hl
  have hbits : 0 < l.tagWidth := TaggedLibrary.tagWidth_pos (htag ▸ hs.1)
  have hsound : l.toLibrary.Sound p.spec.bitWidth := TaggedLibrary.sound_of_ofEntries hl
  exact ⟨l, hl, wellFormed_of_sound hsound hwidth hbits rfl rfl⟩

theorem wellFormed_sums : 0 < sums.spec.bitWidth
    ∧ ∃ q, (ofProgram sums {}).result = .ok q ∧ q.WellFormed sumsLibrary 4 := by
  refine ⟨by decide, _, rfl, ?_⟩
  obtain ⟨l, hl, hq⟩ := ofProgram_wellFormed (p := sums) (s := {}) rfl (by decide)
  obtain rfl : sumsLibrary = l := Except.ok.inj (ofEntries_sums.symm.trans hl)
  exact hq

end Problem

end Sygus

end BitSynth
