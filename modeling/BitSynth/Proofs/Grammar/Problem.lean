import BitSynth.Proofs.Grammar.Language

/-!
# The grammar of a problem

A problem that comes of a program has the grammar of the program's library over its inputs, and its
solutions start from no use at all (`generates_iff`). So the language of the problem is that of the
trees that keep the budgets, and every tree that uses the library up is one of them.
-/

namespace BitSynth.Sygus

namespace Problem

variable {p : Program} {s : Settings} {q : Problem}

def inputNames (p : Program) : List String := p.spec.inputs.map Ident.name

def encoder (p : Program) (s : Settings) : Encoder := ⟨p.spec.bitWidth, s.policy⟩

/-- A problem comes of a program exactly when the settings are valid, the library can be partitioned
and the body be encoded, and these are its parts. -/
theorem ofProgram_eq_ok_iff : (ofProgram p s).result = .ok q ↔
    s.Valid ∧ ∃ l body, (TaggedLibrary.ofEntries p.library (encoder p s) s).result = .ok l
      ∧ ((encoder p s).encode p.spec.body).result = .ok body
      ∧ q = {
          logic := "BV"
          definitions := l.helpers ++ l.wrappers p.spec.bitWidth
          spec := .defineFun "spec" (inputNames p) (.bitVec p.spec.bitWidth)
            (.bitVec p.spec.bitWidth) body
          declarations := (inputNames p).map fun x =>
            .app "declare-var" [.atom x, .bitVec p.spec.bitWidth]
          params := .params (inputNames p) (.bitVec p.spec.bitWidth)
          sort := .bitVec (l.tagWidth + p.spec.bitWidth)
          nonterminals := Grammar.all l p.spec.bitWidth
          constraint := .app "constraint" [.app "="
            [.concat (.atom l.target) (.call "spec" ((inputNames p).map Term.atom)),
              .call "res" ((inputNames p).map Term.atom)]] } := by
  simp only [ofProgram, Logged.result_bind_eq_ok_iff, Logged.result_ofExcept, Logged.result_emit,
    Logged.result_pure, Grammar.result_nonterminals, Except.ok.injEq,
    Settings.validate_eq_ok_iff]
  constructor
  · rintro ⟨_, hs, l, hl, _, -, body, hbody, _, rfl, rfl⟩
    exact ⟨hs, l, body, hl, hbody, rfl⟩
  · rintro ⟨hs, l, body, hl, hbody, rfl⟩
    exact ⟨(), hs, l, hl, (), trivial, body, hbody, _, rfl, rfl⟩

theorem parameters_of_params {names : List String} {bitWidth : Nat}
    (h : q.params = .params names (.bitVec bitWidth)) :
    q.parameters = Grammar.inputSorts names bitWidth := by
  rw [parameters, h, Term.parameters_params]
  rfl

/-- The solutions of a problem start from no use of any kind. -/
theorem generates_iff {l : TaggedLibrary} {names : List String} {bitWidth : Nat} {c : Candidate}
    (hparams : q.params = .params names (.bitVec bitWidth))
    (hns : q.nonterminals = Grammar.all l bitWidth) :
    q.Generates c ↔ Grammar.DerivesFrom l bitWidth names
      (.atom (Usage.zero l.budgets.length).name) c := by
  have hhead : q.nonterminals.head?
      = some (Grammar.ofUsage l bitWidth (Usage.zero l.budgets.length)) := by
    rw [hns, Grammar.all, List.append_assoc, List.head?_append, List.head?_map,
      Usage.head?_reachable]
    rfl
  rw [Generates, hhead, parameters_of_params hparams, hns]
  simp only [Option.mem_def, Option.some.injEq, exists_eq_left']
  rfl

/-- A tree over the library solves the problem exactly if its paths keep the budgets. -/
theorem generates_candidate_iff {l : TaggedLibrary} (h : (ofProgram p s).result = .ok q)
    (hl : (TaggedLibrary.ofEntries p.library (encoder p s) s).result = .ok l) {t : Tree Leaf}
    (ht : t.Over l (inputNames p)) :
    q.Generates (t.candidate l p.spec.bitWidth) ↔
      ∀ π, t.Path π → ∀ k, π.count k ≤ l.budgets.getD k 0 := by
  obtain ⟨-, l', body, hl', -, rfl⟩ := ofProgram_eq_ok_iff.1 h
  obtain rfl : l' = l := Except.ok.inj (hl'.symm.trans hl)
  have hsound : l'.toLibrary.Sound p.spec.bitWidth := TaggedLibrary.sound_of_ofEntries hl
  rw [generates_iff rfl rfl, derives_candidate_iff hsound ht (Usage.within_zero l'.budgets),
    Tree.keeps_zero_iff]

theorem exists_tree_of_generates {l : TaggedLibrary} (h : (ofProgram p s).result = .ok q)
    (hl : (TaggedLibrary.ofEntries p.library (encoder p s) s).result = .ok l) {c : Candidate}
    (hc : q.Generates c) :
    ∃ t : Tree Leaf, t.Over l (inputNames p) ∧ t.candidate l p.spec.bitWidth = c := by
  obtain ⟨-, l', body, hl', -, rfl⟩ := ofProgram_eq_ok_iff.1 h
  obtain rfl : l' = l := Except.ok.inj (hl'.symm.trans hl)
  exact exists_tree_of_derives (TaggedLibrary.sound_of_ofEntries hl)
    (Usage.within_zero l'.budgets) ((generates_iff rfl rfl).1 hc)

/-- The problem's grammar derives trees over the library and nothing else. Of these it derives
exactly the ones in which no path from the root to the end of a branch uses a kind more often than
its budget, and so each one that uses every kind just as often as its budget. -/
theorem exists_library_generates_iff (h : (ofProgram p s).result = .ok q) :
    ∃ l, (TaggedLibrary.ofEntries p.library (encoder p s) s).result = .ok l
      ∧ (∀ t : Tree Leaf, t.Over l (inputNames p) →
          (q.Generates (t.candidate l p.spec.bitWidth) ↔
            ∀ π, t.Path π → ∀ k, π.count k ≤ l.budgets.getD k 0)
          ∧ ((∀ k, t.uses k = l.budgets.getD k 0) →
            q.Generates (t.candidate l p.spec.bitWidth)))
      ∧ ∀ c, q.Generates c →
          ∃ t : Tree Leaf, t.Over l (inputNames p) ∧ t.candidate l p.spec.bitWidth = c := by
  obtain ⟨-, l, body, hl, -, -⟩ := ofProgram_eq_ok_iff.1 h
  refine ⟨l, hl, fun t ht => ⟨generates_candidate_iff h hl ht, fun huses => ?_⟩, fun c hc => ?_⟩
  · exact (generates_candidate_iff h hl ht).2 (Tree.count_le_of_uses_eq huses)
  · exact exists_tree_of_generates h hl hc

/-- Two sums and a comparison, with a free constant and the constant three. -/
def sums : Program where
  spec := ⟨4, [⟨"x"⟩], .app ⟨"add"⟩ [.ident ⟨"x"⟩, .ident ⟨"x"⟩]⟩
  library := [.operator ⟨"add"⟩, .operator ⟨"ult"⟩, .constant 4 none, .operator ⟨"add"⟩,
    .constant 4 (some ⟨3, none⟩)]

def sumsLibrary : TaggedLibrary where
  kinds := [⟨"add", 2, .operator "bvadd" 2 false⟩, ⟨"ult", 1, .operator "bvult" 2 true⟩,
    ⟨"#b0011", 1, .constant "#b0011"⟩]
  freeWidth := some 4
  tagBits := 4

theorem ofEntries_sums :
    (TaggedLibrary.ofEntries sums.library (encoder sums {}) {}).result = .ok sumsLibrary := rfl

theorem of_sums_input : (Leaf.input "x").Of sumsLibrary (inputNames sums) := .input (by decide)

theorem of_sums_three : (Leaf.fixed "#b0011").Of sumsLibrary (inputNames sums) :=
  .fixed (k := ⟨"#b0011", 1, .constant "#b0011"⟩) (by decide) rfl

theorem of_sums_five : (Leaf.free 4 5).Of sumsLibrary (inputNames sums) := .free rfl 5

/-- A sum of a sum of the input and three, and the free constant five. -/
def sumOfSum : Tree Leaf :=
  .node 0 [.node 0 [.leaf (.input "x"), .leaf (.fixed "#b0011")], .leaf (.free 4 5)]

theorem sumOfSum_over : sumOfSum.Over sumsLibrary (inputNames sums) := by
  refine .node rfl rfl rfl (List.forall_mem_cons.2 ⟨.node rfl rfl rfl ?_, ?_⟩)
  · exact List.forall_mem_cons.2
      ⟨.leaf of_sums_input, List.forall_mem_cons.2 ⟨.leaf of_sums_three, by simp⟩⟩
  · exact List.forall_mem_cons.2 ⟨.leaf of_sums_five, by simp⟩

/-- Two sums above one another keep the budget of two, and a third one above them does not. -/
theorem exists_generates_sumOfSum : ∃ q, (ofProgram sums {}).result = .ok q
    ∧ q.Generates (sumOfSum.candidate sumsLibrary 4)
    ∧ ¬ q.Generates ((Tree.node 0 [sumOfSum, sumOfSum]).candidate sumsLibrary 4) := by
  obtain ⟨q, hq⟩ : ∃ q, (ofProgram sums {}).result = .ok q := ⟨_, rfl⟩
  obtain ⟨l, hl, hgenerates, -⟩ := exists_library_generates_iff hq
  obtain rfl : sumsLibrary = l := Except.ok.inj (ofEntries_sums.symm.trans hl)
  have hover : (Tree.node 0 [sumOfSum, sumOfSum]).Over sumsLibrary (inputNames sums) :=
    .node rfl rfl rfl (by simp [sumOfSum_over])
  refine ⟨q, hq, (hgenerates _ sumOfSum_over).1.2 fun π hπ k => ?_, fun h => ?_⟩
  · have hcount := Tree.count_le_uses hπ k
    match k with
    | 0 => exact hcount
    | 1 => exact Nat.le_trans hcount (by decide)
    | k + 2 => exact Nat.le_trans hcount (by simp [sumOfSum, Tree.uses, Tree.usesAll])
  · have hpath : (Tree.node 0 [sumOfSum, sumOfSum]).Path [0, 0, 0] :=
      .step (List.mem_cons_self ..) (.step (List.mem_cons_self ..) (.step (List.mem_cons_self ..)
        (.leaf _)))
    exact absurd ((hgenerates _ hover).1.1 h _ hpath 0) (by decide)

end Problem

end BitSynth.Sygus
