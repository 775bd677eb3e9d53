import BitSynth.Proofs.Grammar.Names
import BitSynth.Proofs.Library.Kinds
import BitSynth.Proofs.Usage.Tree

/-!
# The language of the grammar

A solution is a tree whose leaves are inputs and constants and whose nodes are kinds of the library,
each with as many operands as it takes. The grammar derives such a tree from the nonterminal of a
usage exactly if the tree keeps the budgets from there on (`derives_candidate_iff`), and it derives
nothing else (`exists_tree_of_derives`).
-/

namespace BitSynth.Sygus

/-- What stands at a leaf of a solution: an input, a constant that the solution picks, or a constant
of the library. -/
inductive Leaf where
  | input (name : String)
  | free (width : Nat) (value : BitVec width)
  | fixed (literal : String)

namespace Leaf

/-- The leaf is one of the inputs, or a constant that the library has. -/
inductive Of (l : TaggedLibrary) (inputs : List String) : Leaf → Prop
  | input {x : String} (hx : x ∈ inputs) : Of l inputs (.input x)
  | free {width : Nat} (hw : l.freeWidth = some width) (v : BitVec width) :
      Of l inputs (.free width v)
  | fixed {k : Kind} {literal : String} (hk : k ∈ l.kinds) (hform : k.form = .constant literal) :
      Of l inputs (.fixed literal)

/-- The leaf as a term, behind an empty tag. A free constant is filled up with zeros or keeps its
low bits. -/
def candidate (l : TaggedLibrary) (bitWidth : Nat) : Leaf → Candidate
  | .input x => .behind l.tagWidth (.input x)
  | .free width v =>
    if width < bitWidth then .behind (l.tagWidth + bitWidth - width) (.constant width v)
    else if width = bitWidth then .behind l.tagWidth (.constant width v)
    else .behind l.tagWidth (.lowBits (bitWidth - 1) (.constant width v))
  | .fixed literal => .behind l.tagWidth (.symbol literal)

end Leaf

namespace Tree

/-- A tree over the library: its leaves are inputs and constants, its nodes operator kinds with as
many operands as they take. -/
inductive Over (l : TaggedLibrary) (inputs : List String) : Tree Leaf → Prop
  | leaf {a : Leaf} (ha : a.Of l inputs) : Over l inputs (.leaf a)
  | node {i : Nat} {ts : List (Tree Leaf)} {k : Kind} {smtName : String} {arity : Nat}
      {relation : Bool} (hk : l.kinds[i]? = some k)
      (hform : k.form = .operator smtName arity relation) (hlen : ts.length = arity)
      (hts : ∀ t ∈ ts, Over l inputs t) : Over l inputs (.node i ts)

def wrapperName (l : TaggedLibrary) (i : Nat) : String := (l.kinds[i]?.map Kind.wrapperName).getD ""

mutual

/-- The tree as a term over the functions that apply the kinds. -/
def candidate (l : TaggedLibrary) (bitWidth : Nat) : Tree Leaf → Candidate
  | .leaf a => a.candidate l bitWidth
  | .node i ts => .call (wrapperName l i) (candidates l bitWidth ts)

def candidates (l : TaggedLibrary) (bitWidth : Nat) : List (Tree Leaf) → List Candidate
  | [] => []
  | t :: ts => candidate l bitWidth t :: candidates l bitWidth ts

end

theorem candidates_eq_map (l : TaggedLibrary) (bitWidth : Nat) : ∀ ts : List (Tree Leaf),
    candidates l bitWidth ts = ts.map (candidate l bitWidth)
  | [] => rfl
  | t :: ts => by rw [candidates, List.map_cons, candidates_eq_map l bitWidth ts]

end Tree

namespace Grammar

variable {l : TaggedLibrary} {bitWidth : Nat} {inputs : List String} {c : Candidate}

def inputSorts (inputs : List String) (bitWidth : Nat) : List (String × Term) :=
  inputs.map fun x => (x, .bitVec bitWidth)

abbrev DerivesFrom (l : TaggedLibrary) (bitWidth : Nat) (inputs : List String) :
    Term → Candidate → Prop :=
  Derives (inputSorts inputs bitWidth) (all l bitWidth)

/-! ## Leaves -/

theorem derives_atom_iff {s : String} (hs : IsSymbol s) :
    DerivesFrom l bitWidth inputs (.atom s) c ↔ c = .symbol s :=
  derives_symbol_iff (name_ne_of_isSymbol hs)

theorem derives_behind_iff {zeros : Nat} {t : Term} :
    DerivesFrom l bitWidth inputs (.concat (.atom (Bits.zeros zeros)) t) c ↔
      ∃ d, DerivesFrom l bitWidth inputs t d ∧ .behind zeros d = c := by
  have hconcat : IsSymbol "concat" := isSymbol_of_head? (c := 'c') (by simp) (by decide)
  refine (derives_app_iff (name_ne_of_isSymbol hconcat) (by decide)).trans ?_
  simp only [forall₂_pair_iff, Candidate.behind]
  constructor
  · rintro ⟨_, ⟨_, d, hz, hd, rfl⟩, rfl⟩
    obtain rfl := (derives_atom_iff (isSymbol_zeros _)).1 hz
    exact ⟨d, hd, rfl⟩
  · rintro ⟨d, hd, rfl⟩
    exact ⟨_, ⟨_, d, (derives_atom_iff (isSymbol_zeros _)).2 rfl, hd, rfl⟩, rfl⟩

theorem derives_variableName_iff :
    DerivesFrom l bitWidth inputs (.atom variableName) c ↔ ∃ x ∈ inputs, .input x = c := by
  have hn : anyOf variableName "Variable" bitWidth ∈ all l bitWidth :=
    mem_all_iff.2 (.inr (.inr rfl))
  refine (derives_nonterminal_iff hn fun m hm h => eq_of_name_eq hm hn h).trans ?_
  simp only [anyOf, List.mem_singleton, exists_eq_left, derives_variable_iff, inputSorts,
    List.mem_map, Prod.mk.injEq, and_true, exists_eq_right, eq_comm (a := c)]

theorem derives_constantName_iff {width : Nat} (hw : l.freeWidth = some width) :
    DerivesFrom l bitWidth inputs (.atom constantName) c ↔
      ∃ v : BitVec width, .constant width v = c := by
  have hn : anyOf constantName "Constant" width ∈ all l bitWidth :=
    mem_all_iff.2 (.inr (.inl ⟨width, hw, rfl⟩))
  refine (derives_nonterminal_iff hn fun m hm h => eq_of_name_eq hm hn h).trans ?_
  simp only [anyOf, List.mem_singleton, exists_eq_left, derives_constant_iff, eq_comm (a := c)]

theorem derives_lowBits_iff {high : Nat} {t : Term} :
    DerivesFrom l bitWidth inputs (.extract high 0 t) c ↔
      ∃ d, DerivesFrom l bitWidth inputs t d ∧ .lowBits high d = c := by
  refine (derives_extract_iff fun s hs => name_ne_of_isSymbol ?_).trans ?_
  · simp only [List.mem_cons, List.not_mem_nil, or_false] at hs
    rcases hs with rfl | rfl | rfl | rfl
    · exact isSymbol_of_head? (c := '_') (by simp) (by decide)
    · exact isSymbol_of_head? (c := 'e') (by simp) (by decide)
    · exact isSymbol_toString_nat high
    · exact isSymbol_toString_nat 0
  · exact exists_congr fun d => and_congr_right fun _ => eq_comm

/-- The production for free constants derives one leaf for each value of the constant. -/
theorem derives_freeConstant_iff {width : Nat} (hw : l.freeWidth = some width) :
    DerivesFrom l bitWidth inputs (freeConstant l.tagWidth width bitWidth) c ↔
      ∃ v : BitVec width, (Leaf.free width v).candidate l bitWidth = c := by
  simp only [Leaf.candidate, freeConstant]
  split_ifs
  · rw [derives_behind_iff]
    simp only [derives_constantName_iff hw, exists_exists_eq_and]
  · rw [derives_behind_iff]
    simp only [derives_constantName_iff hw, exists_exists_eq_and]
  · rw [derives_behind_iff]
    simp only [derives_lowBits_iff, derives_constantName_iff hw, exists_exists_eq_and]

theorem exists_mem_leaves_iff (hl : l.toLibrary.Sound bitWidth) :
    (∃ p ∈ leaves l bitWidth, DerivesFrom l bitWidth inputs p c) ↔
      ∃ a : Leaf, a.Of l inputs ∧ a.candidate l bitWidth = c := by
  have hliteral {k : Kind} {literal : String} (hk : k ∈ l.kinds)
      (hform : k.form = .constant literal) : IsSymbol literal := by
    obtain ⟨v, -, rfl⟩ := (hform ▸ hl.forms k hk).eq_binary
    exact isSymbol_binary v bitWidth
  simp only [leaves, List.mem_append, List.mem_singleton, Option.mem_toList, Option.map_eq_some_iff,
    List.mem_filterMap]
  constructor
  · rintro ⟨p, (rfl | ⟨w, hw, rfl⟩) | ⟨k, hk, hp⟩, hc⟩
    · obtain ⟨_, hd, rfl⟩ := derives_behind_iff.1 hc
      obtain ⟨x, hx, rfl⟩ := derives_variableName_iff.1 hd
      exact ⟨.input x, .input hx, rfl⟩
    · obtain ⟨v, rfl⟩ := (derives_freeConstant_iff hw).1 hc
      exact ⟨.free w v, .free hw v, rfl⟩
    · split at hp
      · rename_i literal hform
        obtain rfl := Option.some.inj hp
        obtain ⟨_, hd, rfl⟩ := derives_behind_iff.1 hc
        obtain rfl := (derives_atom_iff (hliteral hk hform)).1 hd
        exact ⟨.fixed literal, .fixed hk hform, rfl⟩
      · cases hp
  · rintro ⟨a, ha, rfl⟩
    cases ha with
    | input hx =>
      exact ⟨_, .inl (.inl rfl), derives_behind_iff.2 ⟨_, derives_variableName_iff.2 ⟨_, hx, rfl⟩,
        rfl⟩⟩
    | free hw v =>
      exact ⟨_, .inl (.inr ⟨_, hw, rfl⟩), (derives_freeConstant_iff hw).2 ⟨v, rfl⟩⟩
    | @fixed k literal hk hform =>
      refine ⟨.concat (.atom (Bits.zeros l.tagWidth)) (.atom literal), .inr ⟨k, hk, ?_⟩, ?_⟩
      · rw [hform]
      · exact derives_behind_iff.2 ⟨_, (derives_atom_iff (hliteral hk hform)).2 rfl, rfl⟩

/-! ## Applications -/

variable {u : Usage}

theorem forall₂_replicate_iff {α β : Type} {R : α → β → Prop} {a : α} : ∀ {n : Nat} {bs : List β},
    List.Forall₂ R (List.replicate n a) bs ↔ bs.length = n ∧ ∀ b ∈ bs, R a b
  | 0, bs => by
    rw [List.replicate_zero, List.forall₂_nil_left_iff, List.length_eq_zero_iff]
    exact ⟨fun h => ⟨h, by simp [h]⟩, And.left⟩
  | n + 1, [] => by simp [List.replicate_succ]
  | n + 1, b :: bs => by
    simp only [List.replicate_succ, List.forall₂_cons, forall₂_replicate_iff, List.length_cons,
      Nat.add_right_cancel_iff, List.forall_mem_cons]
    exact and_left_comm

theorem exists_mem_applications_iff :
    (∃ p ∈ applications l u, DerivesFrom l bitWidth inputs p c) ↔
      ∃ i k smtName arity relation cs, l.kinds[i]? = some k
        ∧ k.form = .operator smtName arity relation ∧ u.Affords l.budgets i
        ∧ cs.length = arity ∧ (∀ d ∈ cs, DerivesFrom l bitWidth inputs (.atom (u.spend i).name) d)
        ∧ c = .call k.wrapperName cs := by
  have hcall (k : Kind) (ts : List Term) :
      DerivesFrom l bitWidth inputs (.call k.wrapperName ts) c ↔ ∃ cs,
        List.Forall₂ (DerivesFrom l bitWidth inputs) ts cs ∧ c = .call k.wrapperName cs := by
    refine derives_call_iff (name_ne_of_isSymbol (isSymbol_wrapperName k)) ?_
    constructor <;> intro h <;>
      simpa [Kind.wrapperName] using congrArg (fun s => s.toList.head?) h
  simp only [applications, List.mem_filterMap, List.mem_zipIdx_iff_getElem?, Prod.exists]
  constructor
  · rintro ⟨p, ⟨k, i, hk, hp⟩, hc⟩
    split at hp
    · rename_i smtName arity relation hform
      split_ifs at hp with hafford
      obtain rfl := Option.some.inj hp
      obtain ⟨cs, hcs, rfl⟩ := (hcall k _).1 hc
      obtain ⟨hlen, hcs⟩ := forall₂_replicate_iff.1 hcs
      exact ⟨i, k, smtName, arity, relation, cs, hk, hform, hafford, hlen, hcs, rfl⟩
    · cases hp
  · rintro ⟨i, k, smtName, arity, relation, cs, hk, hform, hafford, hlen, hcs, rfl⟩
    refine ⟨_, ⟨k, i, hk, ?_⟩, (hcall k _).2 ⟨cs, forall₂_replicate_iff.2 ⟨hlen, hcs⟩, rfl⟩⟩
    rw [hform]
    exact if_pos hafford

/-- A nonterminal derives the leaves and the applications that its usage affords. -/
theorem derives_name_iff (hl : l.toLibrary.Sound bitWidth) (hu : u.Within l.budgets) :
    DerivesFrom l bitWidth inputs (.atom u.name) c ↔
      (∃ a : Leaf, a.Of l inputs ∧ a.candidate l bitWidth = c)
        ∨ ∃ i k smtName arity relation cs, l.kinds[i]? = some k
          ∧ k.form = .operator smtName arity relation ∧ u.Affords l.budgets i
          ∧ cs.length = arity
          ∧ (∀ d ∈ cs, DerivesFrom l bitWidth inputs (.atom (u.spend i).name) d)
          ∧ c = .call k.wrapperName cs := by
  have hn : ofUsage l bitWidth u ∈ all l bitWidth := mem_all_iff.2 (.inl ⟨u, hu, rfl⟩)
  refine (derives_nonterminal_iff hn fun m hm h => eq_of_name_eq hm hn h).trans ?_
  rw [← exists_mem_leaves_iff hl, ← exists_mem_applications_iff]
  simp only [ofUsage, List.mem_append, or_and_right, exists_or]

end Grammar

namespace Leaf

theorem candidate_ne_call (l : TaggedLibrary) (bitWidth : Nat) (a : Leaf) (k : Kind)
    (cs : List Candidate) : a.candidate l bitWidth ≠ .call k.wrapperName cs := by
  have hconcat : "concat" ≠ k.wrapperName := fun h => by
    simpa [Kind.wrapperName] using congrArg (fun s => s.toList.head?) h
  have hbehind (n : Nat) (c : Candidate) : Candidate.behind n c ≠ .call k.wrapperName cs := by
    cases cs <;> simp [Candidate.behind, Candidate.call, hconcat]
  cases a <;> simp only [candidate]
  · exact hbehind _ _
  · split_ifs <;> exact hbehind _ _
  · exact hbehind _ _

end Leaf

section Language

variable {l : TaggedLibrary} {bitWidth : Nat} {inputs : List String} {u : Usage}

theorem wrapperName_of_getElem? {i : Nat} {k : Kind} (h : l.kinds[i]? = some k) :
    Tree.wrapperName l i = k.wrapperName := by
  simp [Tree.wrapperName, h]

theorem Library.Sound.eq_of_wrapperName_eq (hl : l.toLibrary.Sound bitWidth) {i j : Nat}
    {k k' : Kind} (hk : l.kinds[i]? = some k) (hk' : l.kinds[j]? = some k')
    (h : k.wrapperName = k'.wrapperName) : i = j := by
  have hkey : k.key = k'.key := by simpa [Kind.wrapperName] using h
  obtain ⟨hi, rfl⟩ := List.getElem?_eq_some_iff.1 hk
  refine (List.getElem?_inj (by simpa using hi) hl.keys).1 ?_
  rw [List.getElem?_map, List.getElem?_map, hk, hk', Option.map_some, Option.map_some, hkey]

/-- From the nonterminal of a usage a tree is derived exactly if its paths keep within what the
budgets have left. -/
theorem derives_candidate_iff (hl : l.toLibrary.Sound bitWidth) {t : Tree Leaf}
    (ht : t.Over l inputs) (hu : u.Within l.budgets) :
    Grammar.DerivesFrom l bitWidth inputs (.atom u.name) (t.candidate l bitWidth) ↔
      t.Keeps l.budgets u := by
  induction ht generalizing u with
  | @leaf a ha =>
    refine iff_of_true ?_ (Tree.keeps_leaf hu a)
    exact (Grammar.derives_name_iff hl hu).2 (.inl ⟨a, ha, rfl⟩)
  | @node i ts k smtName arity relation hk hform hlen hts ih =>
    rw [Grammar.derives_name_iff hl hu, Tree.keeps_node_iff hu, Tree.candidate,
      wrapperName_of_getElem? hk, Tree.candidates_eq_map]
    constructor
    · rintro (⟨a, -, ha⟩ | ⟨j, k', _, _, _, cs, hk', -, hafford, -, hcs, hc⟩)
      · exact absurd ha (Leaf.candidate_ne_call l bitWidth a k _)
      · obtain ⟨hname, rfl⟩ := Candidate.call_inj hc
        obtain rfl := hl.eq_of_wrapperName_eq hk hk' hname
        exact ⟨hafford, fun t ht => (ih t ht (hu.spend hafford)).1
          (hcs _ (List.mem_map_of_mem ht))⟩
    · rintro ⟨hafford, hops⟩
      refine .inr ⟨i, k, smtName, arity, relation, _, hk, hform, hafford, by simpa using hlen, ?_,
        rfl⟩
      intro d hd
      obtain ⟨t, ht, rfl⟩ := List.mem_map.1 hd
      exact (ih t ht (hu.spend hafford)).2 (hops t ht)

theorem exists_trees {cs : List Candidate}
    (h : ∀ c ∈ cs, ∃ t : Tree Leaf, t.Over l inputs ∧ t.candidate l bitWidth = c) :
    ∃ ts : List (Tree Leaf), (∀ t ∈ ts, t.Over l inputs) ∧
      ts.map (Tree.candidate l bitWidth) = cs := by
  induction cs with
  | nil => exact ⟨[], by simp, rfl⟩
  | cons c cs ih =>
    obtain ⟨t, ht, rfl⟩ := h c (List.mem_cons_self ..)
    obtain ⟨ts, hts, rfl⟩ := ih fun d hd => h d (List.mem_cons_of_mem _ hd)
    exact ⟨t :: ts, List.forall_mem_cons.2 ⟨ht, hts⟩, rfl⟩

/-- Whatever the nonterminal of a usage derives is a tree over the library. -/
theorem exists_tree_of_derives (hl : l.toLibrary.Sound bitWidth) (hu : u.Within l.budgets)
    {c : Candidate} (h : Grammar.DerivesFrom l bitWidth inputs (.atom u.name) c) :
    ∃ t : Tree Leaf, t.Over l inputs ∧ t.candidate l bitWidth = c := by
  -- by the uses that the budgets leave
  induction hd : Usage.total l.budgets - u.total using Nat.strongRecOn generalizing u c with
  | _ d ih =>
    rcases (Grammar.derives_name_iff hl hu).1 h with
      ⟨a, ha, rfl⟩ | ⟨i, k, smtName, arity, relation, cs, hk, hform, hafford, hlen, hcs, rfl⟩
    · exact ⟨.leaf a, .leaf ha, rfl⟩
    · have hspend := hu.spend hafford
      have htotal := Usage.total_spend u (hu.1 ▸ Usage.lt_length_of_affords hafford)
      have hle := hspend.total_le
      have hop : ∀ c ∈ cs, ∃ t : Tree Leaf, t.Over l inputs ∧ t.candidate l bitWidth = c :=
        fun c hc => ih _ (by omega) hspend (hcs c hc) rfl
      obtain ⟨ts, hts, rfl⟩ := exists_trees hop
      refine ⟨.node i ts, .node hk hform (by simpa using hlen) hts, ?_⟩
      rw [Tree.candidate, wrapperName_of_getElem? hk, Tree.candidates_eq_map]
end Language

end BitSynth.Sygus
