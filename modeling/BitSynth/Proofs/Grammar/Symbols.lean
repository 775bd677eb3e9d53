import BitSynth.Proofs.Grammar.Commands
import BitSynth.Proofs.Library.Functions
import BitSynth.Proofs.Program.RoundTrip
import BitSynth.Proofs.Solver.Solution

/-!
# The symbols of a problem

A problem introduces the symbols of its definitions, of its inputs and of its solution. Those it
makes up are distinct, as helpers and wrappers have marks in front of them. The names of inputs are
taken as they are: one that comes twice or is reserved is introduced twice, and one that a
nonterminal has stands for a parameter as well (`Problem.ofProgram_symbols`).
-/

namespace BitSynth

/-- The symbol that a command introduces. -/
def Term.introduced? : Term → Option String
  | .list [.atom "declare-var", .atom x, _] => some x
  | .list (.atom "synth-fun" :: .atom f :: _) => some f
  | t => t.definedName?

/-- The names that a problem takes for itself: those of the function to build and of the solution,
of the wrapper of each operator and each function of the library, and of the helper of a function,
which it has unless an operator before it is written with that name. -/
inductive Program.Reserves (p : Program) : String → Prop
  | spec : Reserves p "spec"
  | solution : Reserves p "res"
  | operator {op : Ident} (h : .operator op ∈ p.library) : Reserves p ("op_" ++ op.name)
  | function {name : Ident} {params : List Ident} {body : Expr}
      (h : .function name params body ∈ p.library) :
      Reserves p ("op_" ++ Operator.helperName name.name)
  | helper {before after : List LibraryEntry} {name : Ident} {params : List Ident} {body : Expr}
      (hlibrary : p.library = before ++ .function name params body :: after)
      (hop : .operator ⟨Operator.helperName name.name⟩ ∉ before) :
      Reserves p (Operator.helperName name.name)

namespace Sygus

namespace Problem

/-- The symbols that the commands introduce, in their order. -/
def symbols (q : Problem) : List String := q.commands.filterMap Term.introduced?

/-- The symbols that are not those of inputs. -/
def ownSymbols (q : Problem) : List String := ({ q with declarations := [] } : Problem).symbols

end Problem

/-! ## The names of kinds -/

namespace Library

variable {e : Encoder} {es before after : List LibraryEntry} {l : Library} {c : Contribution}
  {a : LibraryEntry} {key : String} {name : Ident} {params : List Ident} {body : Expr}

/-- If an entry has a key that is no bit string, an operator stands under the key. -/
theorem exists_operator_of_mem (ha : a ∈ es) (hc : contribution? e a = some c)
    (hkey : c.key.toList.head? ≠ some '#') : ∃ c' smtName arity relation,
      first? e es c.key = some c' ∧ c'.form = .operator smtName arity relation := by
  obtain ⟨c', hc'⟩ := exists_first?_of_mem ha hc
  obtain ⟨b, -, hb⟩ := exists_mem_of_first? hc'
  rcases contribution?_cases hb with ⟨⟨smtName, arity, relation, hform⟩, -⟩ | ⟨-, hhead, -⟩
  · exact ⟨c', smtName, arity, relation, hc', hform⟩
  · rw [key_of_first? hc'] at hhead
    exact absurd hhead hkey

/-- Where an entry is the first of its key, no entry before it has the key. -/
theorem exists_split_of_first? (h : first? e es key = some c) : ∃ before a after,
    es = before ++ a :: after ∧ contribution? e a = some c ∧ first? e before key = none := by
  obtain ⟨-, firsts, rest, hsplit, hnone⟩ := List.find?_eq_some_iff_append.1 h
  obtain ⟨es₁, es₂, rfl, hfirsts, hrest⟩ := List.filterMap_eq_append_iff.1 hsplit
  obtain ⟨es₃, a, after, rfl, hskipped, ha, -⟩ := List.filterMap_eq_cons_iff.1 hrest
  refine ⟨es₁ ++ es₃, a, after, (List.append_assoc ..).symm, ha, ?_⟩
  rw [first?, contributions, List.filterMap_append, hfirsts,
    List.filterMap_eq_nil_iff.2 hskipped, List.append_nil]
  exact List.find?_eq_none.2 fun b hb => by simpa using hnone b hb

/-- A function has a helper if no operator before it is written with the name of that, though it
need not be the helper of this function. -/
theorem Admitted.exists_definition (h : Admitted e (before ++ .function name params body :: after))
    (hop : .operator ⟨Operator.helperName name.name⟩ ∉ before) : ∃ c t,
      first? e (before ++ .function name params body :: after) (Operator.helperName name.name)
          = some c ∧ c.definition = some (some t) := by
  obtain ⟨c, hc, d, hd⟩ : ∃ c, first? e (before ++ .function name params body :: after)
      (Operator.helperName name.name) = some c ∧ ∃ d, c.definition = some d := by
    rw [first?, contributions, List.filterMap_append, List.find?_append, ← contributions, ← first?]
    cases hc : first? e before (Operator.helperName name.name) with
    | none =>
      rw [Option.none_or]
      exact ⟨_, List.find?_cons_of_pos (decide_eq_true rfl), _, rfl⟩
    | some c =>
      obtain ⟨a, ha, hca⟩ := exists_mem_of_first? hc
      refine ⟨c, rfl, ?_⟩
      have hkey := key_of_first? hc
      rcases contribution?_cases hca with
        ⟨-, ⟨op, rfl, hname, -⟩ | ⟨other, params, body, -, -, hsome⟩⟩ | ⟨-, hhead, -⟩
      · obtain rfl : op = ⟨Operator.helperName name.name⟩ :=
          congrArg Ident.mk (hname.symm.trans hkey)
        exact absurd ha hop
      · exact Option.isSome_iff_exists.1 hsome
      · rw [hkey, head?_of_isHelper (isHelper_helperName name.name)] at hhead
        cases hhead
  cases d with
  | none => exact absurd hd (h.definitions _ c hc)
  | some t => exact ⟨c, t, hc, hd⟩

end Library

namespace TaggedLibrary

variable {e : Encoder} {s : Settings} {es : List LibraryEntry} {l : TaggedLibrary} {bitWidth : Nat}
  {x : String}

/-! ## The names of definitions -/

def helperNames (l : TaggedLibrary) : List String := l.helpers.filterMap Term.introduced?

def wrapperNames (l : TaggedLibrary) (bitWidth : Nat) : List String :=
  (l.wrappers bitWidth).filterMap Term.introduced?

theorem mem_wrapperNames_iff_kind : x ∈ l.wrapperNames bitWidth ↔ ∃ k ∈ l.kinds,
    (∃ smtName arity relation, k.form = .operator smtName arity relation) ∧ k.wrapperName = x := by
  simp only [wrapperNames, List.mem_filterMap, mem_wrappers_iff]
  constructor
  · rintro ⟨_, ⟨i, k, smtName, arity, relation, hk, hform, rfl⟩, hname⟩
    exact ⟨k, List.mem_of_getElem? hk, ⟨smtName, arity, relation, hform⟩, Option.some.inj hname⟩
  · rintro ⟨k, hk, ⟨smtName, arity, relation, hform⟩, rfl⟩
    obtain ⟨i, hi⟩ := List.mem_iff_getElem?.1 hk
    exact ⟨_, ⟨i, k, smtName, arity, relation, hi, hform, rfl⟩, rfl⟩

theorem head?_of_mem_wrapperNames (hx : x ∈ l.wrapperNames bitWidth) :
    x.toList.head? = some 'o' := by
  obtain ⟨k, -, -, rfl⟩ := mem_wrapperNames_iff_kind.1 hx
  exact Grammar.head?_wrapperName k

section Gathered

variable (hl : Library.Gathers e es l.toLibrary)
include hl

theorem mem_wrapperNames_iff : x ∈ l.wrapperNames bitWidth ↔
    ∃ key c smtName arity relation, Library.first? e es key = some c
      ∧ c.form = .operator smtName arity relation ∧ x = "op_" ++ key := by
  simp only [mem_wrapperNames_iff_kind, hl.mem_kinds_iff]
  constructor
  · rintro ⟨k, hk, ⟨smtName, arity, relation, hform⟩, rfl⟩
    obtain ⟨c, hc, heq⟩ := Option.map_eq_some_iff.1 hk
    rw [← heq] at hform
    exact ⟨k.key, c, smtName, arity, relation, hc, hform, rfl⟩
  · rintro ⟨key, c, smtName, arity, relation, hc, hform, rfl⟩
    exact ⟨⟨key, Library.countOf e es key, c.form⟩, by rw [hc]; rfl,
      ⟨smtName, arity, relation, hform⟩, rfl⟩

theorem mem_wrapperNames_of_mem {a : LibraryEntry} {c : Contribution} (ha : a ∈ es)
    (hc : Library.contribution? e a = some c) (hkey : c.key.toList.head? ≠ some '#') :
    "op_" ++ c.key ∈ l.wrapperNames bitWidth := by
  obtain ⟨c', smtName, arity, relation, hc', hform⟩ := Library.exists_operator_of_mem ha hc hkey
  exact (mem_wrapperNames_iff hl).2 ⟨c.key, c', smtName, arity, relation, hc', hform, rfl⟩

theorem mem_helperNames_iff : x ∈ l.helperNames ↔
    ∃ c t, Library.first? e es x = some c ∧ c.definition = some (some t) := by
  simp only [helperNames, List.mem_filterMap, hl.helpers]
  constructor
  · rintro ⟨t, ⟨key, c, hc, ht⟩, hname⟩
    obtain ⟨names, sort, body, rfl⟩ := Library.definition_eq hc ht
    obtain rfl := Option.some.inj hname
    exact ⟨c, _, hc, ht⟩
  · rintro ⟨c, t, hc, ht⟩
    refine ⟨t, ⟨x, c, hc, ht⟩, ?_⟩
    obtain ⟨names, sort, body, rfl⟩ := Library.definition_eq hc ht
    rfl

theorem nodup_helperNames : l.helperNames.Nodup := by
  refine List.pairwise_filterMap.2 (hl.nodup.imp_of_mem fun {t t'} ht ht' hne x hx y hy => ?_)
  rintro rfl
  obtain ⟨key, c, hc, hdefinition⟩ := (hl.helpers t).1 ht
  obtain ⟨key', c', hc', hdefinition'⟩ := (hl.helpers t').1 ht'
  obtain ⟨names, sort, body, rfl⟩ := Library.definition_eq hc hdefinition
  obtain ⟨names', sort', body', rfl⟩ := Library.definition_eq hc' hdefinition'
  obtain rfl : key = key' := Option.some.inj (hx.trans hy.symm)
  obtain rfl : c = c' := Option.some.inj (hc.symm.trans hc')
  exact hne (Option.some.inj (Option.some.inj (hdefinition.symm.trans hdefinition')))

end Gathered

section Sound

variable (hl : l.toLibrary.Sound bitWidth)
include hl

theorem nodup_wrapperNames (width : Nat) : (l.wrapperNames width).Nodup := by
  have hnames := List.pairwise_map.1 (Grammar.nodup_definedName?_wrappers hl width)
  refine List.pairwise_filterMap.2 (hnames.imp_of_mem fun {t t'} ht ht' hne x hx y hy => ?_)
  rintro rfl
  obtain ⟨i, k, smtName, arity, relation, -, -, rfl⟩ := mem_wrappers_iff.1 ht
  obtain ⟨i', k', smtName', arity', relation', -, -, rfl⟩ := mem_wrappers_iff.1 ht'
  exact hne (hx.trans hy.symm)

theorem isHelper_of_mem_helperNames (hx : x ∈ l.helperNames) : Operator.isHelper x = true := by
  obtain ⟨t, ht, hname⟩ := List.mem_filterMap.1 hx
  obtain ⟨function, names, sort, body, rfl⟩ := hl.helpers t ht
  obtain rfl := Option.some.inj hname
  exact isHelper_helperName function

end Sound

/-- The names that a problem makes up are distinct: each sort of them begins in its own way. -/
theorem nodup_ownNames (hl : Library.Gathers e es l.toLibrary)
    (hsound : l.toLibrary.Sound bitWidth) (width : Nat) :
    (l.helperNames ++ l.wrapperNames width ++ ["spec", "res"]).Nodup := by
  have hhelper : ∀ x ∈ l.helperNames, x.toList.head? = some 'c' := fun x hx =>
    head?_of_isHelper (isHelper_of_mem_helperNames hsound hx)
  have hwrapper : ∀ x ∈ l.wrapperNames width, x.toList.head? = some 'o' := fun x hx =>
    head?_of_mem_wrapperNames hx
  have hrest : ∀ x ∈ ["spec", "res"], x.toList.head? = some 's' ∨ x.toList.head? = some 'r' := by
    decide
  refine ((nodup_helperNames hl).append (nodup_wrapperNames hsound width) ?_).append (by decide) ?_
  · intro x hx hx'
    exact absurd ((hhelper x hx).symm.trans (hwrapper x hx')) (by decide)
  · intro x hx hx'
    rcases List.mem_append.1 hx with hx | hx
    · rcases hrest x hx' with h | h <;> exact absurd ((hhelper x hx).symm.trans h) (by decide)
    · rcases hrest x hx' with h | h <;> exact absurd ((hwrapper x hx).symm.trans h) (by decide)

end TaggedLibrary

namespace Problem

variable {p : Program} {s : Settings} {q : Problem} {l : TaggedLibrary} {x : String}

theorem reserves_of_mem_helperNames {e : Encoder} (hl : Library.Gathers e p.library l.toLibrary)
    (hx : x ∈ l.helperNames) : p.Reserves x := by
  obtain ⟨c, t, hc, ht⟩ := (TaggedLibrary.mem_helperNames_iff hl).1 hx
  obtain ⟨before, a, after, hsplit, ha, hnone⟩ := Library.exists_split_of_first? hc
  rcases Library.contribution?_cases ha with
    ⟨-, ⟨op, -, -, h⟩ | ⟨name, params, body, rfl, hkey, -⟩⟩ | ⟨-, -, h⟩
  · cases ht.symm.trans h
  · obtain rfl : x = Operator.helperName name.name := (Library.key_of_first? hc).symm.trans hkey
    refine .helper hsplit fun hop => ?_
    -- the operator would be an earlier entry under the same key
    obtain ⟨c', hc'⟩ := Library.exists_first?_of_mem hop (Library.contribution?_helperName rfl)
    cases hnone.symm.trans hc'
  · cases ht.symm.trans h

theorem reserves_of_mem_wrapperNames {e : Encoder} {bitWidth : Nat}
    (hl : Library.Gathers e p.library l.toLibrary) (hx : x ∈ l.wrapperNames bitWidth) :
    p.Reserves x := by
  obtain ⟨key, c, smtName, arity, relation, hc, hform, rfl⟩ :=
    (TaggedLibrary.mem_wrapperNames_iff hl).1 hx
  obtain ⟨a, ha, hca⟩ := Library.exists_mem_of_first? hc
  obtain rfl := Library.key_of_first? hc
  rcases Library.contribution?_cases hca with
    ⟨-, ⟨op, rfl, hkey, -⟩ | ⟨name, params, body, rfl, hkey, -⟩⟩ | ⟨h, -, -⟩
  · exact hkey ▸ .operator ha
  · exact hkey ▸ .function ha
  · cases hform.symm.trans h

/-- The names that a problem makes up are the reserved ones. -/
theorem reserves_iff (hp : ∀ entry ∈ p.library, entry.WellFormed)
    (hl : (TaggedLibrary.ofEntries p.library (encoder p s) s).result = .ok l) (bitWidth : Nat) :
    p.Reserves x ↔ x ∈ l.helperNames ++ l.wrapperNames bitWidth ++ ["spec", "res"] := by
  obtain ⟨hfold, -, -⟩ := TaggedLibrary.ofEntries_eq_ok_iff.1 hl
  have hgathers := Library.gathers_of_foldlM hfold
  have hadmitted := Library.admitted_of_foldlM hfold
  have hhelper (function : String) : (Operator.helperName function).toList.head? ≠ some '#' := by
    rw [head?_of_isHelper (isHelper_helperName function)]
    decide
  simp only [List.mem_append]
  constructor
  · rintro (_ | _ | ⟨h⟩ | ⟨h⟩ | ⟨hlibrary, hop⟩)
    · exact .inr (by decide)
    · exact .inr (by decide)
    · exact .inl (.inr (TaggedLibrary.mem_wrapperNames_of_mem hgathers h rfl
        (head?_of_valid (hp _ h))))
    · exact .inl (.inr (TaggedLibrary.mem_wrapperNames_of_mem hgathers h rfl (hhelper _)))
    · rw [hlibrary] at hadmitted hgathers
      exact .inl (.inl ((TaggedLibrary.mem_helperNames_iff hgathers).2
        (hadmitted.exists_definition hop)))
  · rintro ((hx | hx) | hx)
    · exact reserves_of_mem_helperNames hgathers hx
    · exact reserves_of_mem_wrapperNames hgathers hx
    · rcases List.mem_cons.1 hx with rfl | hx
      · exact .spec
      · obtain rfl := List.mem_singleton.1 hx
        exact .solution

/-! ## The symbols of a problem -/

theorem symbols_eq (q : Problem) : q.symbols = q.definitions.filterMap Term.introduced?
    ++ (q.spec.introduced?.toList ++ (q.declarations.filterMap Term.introduced?
      ++ "res" :: q.constraint.introduced?.toList)) := by
  have hlogic : (Term.app "set-logic" [.atom q.logic]).introduced? = none := rfl
  have hsynth : (Term.app "synth-fun" [.atom "res", q.params, q.sort,
    .list (q.nonterminals.map Nonterminal.term)]).introduced? = some "res" := rfl
  have hcheck : (Term.app "check-synth" []).introduced? = none := rfl
  simp only [symbols, commands, List.cons_append, List.append_assoc, List.filterMap_cons,
    List.filterMap_append, List.filterMap_nil, hlogic, hsynth, hcheck]
  cases q.spec.introduced? <;> cases q.constraint.introduced? <;> rfl

theorem filterMap_introduced?_declarations (names : List String) (sort : Term) :
    (names.map fun x => Term.app "declare-var" [.atom x, sort]).filterMap Term.introduced?
      = names := by
  rw [List.filterMap_map]
  exact List.filterMap_some

section Problems

variable (h : (ofProgram p s).result = .ok q)
include h

theorem symbols_perm : q.symbols.Perm (q.ownSymbols ++ inputNames p) := by
  obtain ⟨-, l', body, hl', -, rfl⟩ := ofProgram_eq_ok_iff.1 h
  rw [ownSymbols, symbols_eq, symbols_eq, filterMap_introduced?_declarations]
  simp only [List.append_assoc]
  refine List.Perm.append_left _ (List.Perm.append_left _ ?_)
  exact List.perm_append_comm

variable (hl : (TaggedLibrary.ofEntries p.library (encoder p s) s).result = .ok l)
include hl

theorem ownSymbols_eq : q.ownSymbols
    = l.helperNames ++ l.wrapperNames p.spec.bitWidth ++ ["spec", "res"] := by
  obtain ⟨-, l', body, hl', -, rfl⟩ := ofProgram_eq_ok_iff.1 h
  obtain rfl : l' = l := Except.ok.inj (hl'.symm.trans hl)
  rw [ownSymbols, symbols_eq]
  simp only [List.filterMap_append]
  rfl

theorem forall_nonterminals_iff :
    (∀ n ∈ q.nonterminals, n.name ∉ q.parameters.map Prod.fst)
      ↔ Grammar.variableName ∉ inputNames p
        ∧ (∀ width, .constant width none ∈ p.library → Grammar.constantName ∉ inputNames p)
        ∧ ∀ u : Usage, u.Within l.budgets → u.name ∉ inputNames p := by
  obtain ⟨-, l', body, hl', -, rfl⟩ := ofProgram_eq_ok_iff.1 h
  obtain rfl : l' = l := Except.ok.inj (hl'.symm.trans hl)
  have hgathers := Library.gathers_of_foldlM (TaggedLibrary.ofEntries_eq_ok_iff.1 hl).1
  rw [map_fst_parameters rfl]
  simp only [Grammar.mem_all_iff, hgathers.freeWidth]
  constructor
  · intro hall
    refine ⟨hall _ (.inr (.inr rfl)), fun width hwidth => ?_, fun u hu => ?_⟩
    · exact hall _ (.inr (.inl ⟨width, hwidth, rfl⟩))
    · exact hall _ (.inl ⟨u, hu, rfl⟩)
  · rintro ⟨hvariable, hconstant, husages⟩ n (⟨u, hu, rfl⟩ | ⟨width, hwidth, rfl⟩ | rfl)
    · exact husages u hu
    · exact hconstant width hwidth
    · exact hvariable

end Problems

/-- The symbols that a problem makes up are distinct, and are the reserved ones. So all symbols are
distinct exactly if the inputs are, and none of them has a reserved name. Nonterminals and
parameters have no name in common exactly if no input has the name of the inputs' nonterminal, nor
that of the constants' if there is a free constant, nor that of a usage within the budgets. -/
theorem ofProgram_symbols {text : String} (hp : (Program.read text).result = .ok p)
    (h : (ofProgram p s).result = .ok q) :
    q.ownSymbols.Nodup ∧ (∀ x, x ∈ q.ownSymbols ↔ p.Reserves x)
      ∧ (q.symbols.Nodup ↔ (inputNames p).Nodup ∧ ∀ x ∈ inputNames p, ¬ p.Reserves x)
      ∧ ∃ l, (TaggedLibrary.ofEntries p.library (encoder p s) s).result = .ok l
        ∧ ((∀ n ∈ q.nonterminals, n.name ∉ q.parameters.map Prod.fst)
          ↔ Grammar.variableName ∉ inputNames p
            ∧ (∀ width, .constant width none ∈ p.library → Grammar.constantName ∉ inputNames p)
            ∧ ∀ u : Usage, u.Within l.budgets → u.name ∉ inputNames p) := by
  obtain ⟨-, l, body, hl, -, -⟩ := ofProgram_eq_ok_iff.1 h
  have hgathers := Library.gathers_of_foldlM (TaggedLibrary.ofEntries_eq_ok_iff.1 hl).1
  have hnodup : q.ownSymbols.Nodup := by
    rw [ownSymbols_eq h hl]
    exact TaggedLibrary.nodup_ownNames hgathers (TaggedLibrary.sound_of_ofEntries hl) _
  have hreserves (x : String) : x ∈ q.ownSymbols ↔ p.Reserves x := by
    rw [ownSymbols_eq h hl, reserves_iff (Program.wellFormed_of_read hp).entries hl]
  refine ⟨hnodup, hreserves, ?_, l, hl, forall_nonterminals_iff h hl⟩
  rw [(symbols_perm h).nodup_iff, List.nodup_append]
  simp only [hnodup, true_and, ← hreserves]
  refine and_congr_right fun _ => ⟨fun hdisjoint x hx hown => hdisjoint x hown x hx rfl, ?_⟩
  rintro hdisjoint x hown y hy rfl
  exact hdisjoint x hy hown

/-- Without a free constant its nonterminal is not there, and an input may have the name. -/
theorem ofProgram_symbols_constantName : ∃ p q,
    (Program.read "(spec 2 4 x Const (add x Const)) (lib add (fun f a a))").result = .ok p
      ∧ (ofProgram p {}).result = .ok q ∧ q.symbols.Nodup
      ∧ ¬ p.Reserves "x" ∧ ¬ p.Reserves "Const" := by
  let p : Program := ⟨⟨4, [⟨"x"⟩, ⟨"Const"⟩], .app ⟨"add"⟩ [.ident ⟨"x"⟩, .ident ⟨"Const"⟩]⟩,
    [.operator ⟨"add"⟩, .function ⟨"f"⟩ [⟨"a"⟩] (.ident ⟨"a"⟩)]⟩
  have hp : (Program.read "(spec 2 4 x Const (add x Const)) (lib add (fun f a a))").result
      = .ok p := by
    decide +kernel
  have hown : (ofProgram p {}).result.toOption.any
      (fun q => "x" ∉ q.ownSymbols ∧ "Const" ∉ q.ownSymbols) = true := by
    decide +kernel
  obtain ⟨q, hq, hown⟩ := (Option.any_eq_true ..).1 hown
  have hq := toOption_eq_some_iff.1 hq
  obtain ⟨-, hreserves, hsymbols, -⟩ := ofProgram_symbols hp hq
  simp only [hreserves, decide_eq_true_eq] at hown
  refine ⟨p, q, hp, hq, hsymbols.2 ⟨by decide, ?_⟩, hown⟩
  exact List.forall_mem_cons.2 ⟨hown.1, List.forall_mem_singleton.2 hown.2⟩

theorem exists_ofProgram (h : (ofProgram p s).result.toOption.isSome = true) :
    ∃ q, (ofProgram p s).result = .ok q := by
  obtain ⟨q, hq⟩ := Option.isSome_iff_exists.1 h
  exact ⟨q, toOption_eq_some_iff.1 hq⟩

/-- An input that comes twice is declared twice, and one may have the name of the nonterminal of
inputs. -/
theorem not_forall_ofProgram_symbols :
    (¬ ∀ (text : String) (p : Program) (s : Settings) (q : Problem),
      (Program.read text).result = .ok p → (ofProgram p s).result = .ok q → q.symbols.Nodup)
    ∧ ¬ ∀ (text : String) (p : Program) (s : Settings) (q : Problem),
      (Program.read text).result = .ok p → (ofProgram p s).result = .ok q →
        ∀ n ∈ q.nonterminals, n.name ∉ q.parameters.map Prod.fst := by
  constructor
  · intro h
    let p : Program := ⟨⟨4, [⟨"x"⟩, ⟨"x"⟩], .ident ⟨"x"⟩⟩, [.operator ⟨"add"⟩]⟩
    have hp : (Program.read "(spec 2 4 x x x) (lib add)").result = .ok p := by decide +kernel
    obtain ⟨q, hq⟩ := exists_ofProgram (p := p) (s := {}) (by decide +kernel)
    have hnodup := (symbols_perm hq).nodup_iff.1 (h _ p {} q hp hq)
    exact absurd (List.nodup_append.1 hnodup).2.1 (by decide)
  · intro h
    let p : Program := ⟨⟨4, [⟨"Var"⟩], .ident ⟨"Var"⟩⟩, [.operator ⟨"add"⟩]⟩
    have hp : (Program.read "(spec 1 4 Var Var) (lib add)").result = .ok p := by decide +kernel
    obtain ⟨q, hq⟩ := exists_ofProgram (p := p) (s := {}) (by decide +kernel)
    obtain ⟨-, l, body, hl, -, -⟩ := ofProgram_eq_ok_iff.1 hq
    have hvariable := ((forall_nonterminals_iff hq hl).1 (h _ p {} q hp hq)).1
    exact absurd hvariable (by decide)

end Problem

end Sygus

end BitSynth
