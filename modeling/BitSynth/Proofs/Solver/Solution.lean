import BitSynth.Proofs.Grammar.Problem
import BitSynth.Proofs.Solver.Resizing
import BitSynth.Proofs.Solver.Wrapper
import BitSynth.Proofs.Text.Classes

/-!
# What solutions are worth

A candidate is worth a tag and a value. The value is that of the plain tree, and as no count comes
near the end of its slot, the tag holds the number of uses of each kind. So the constraint asks for
the value of the function to meet and for every kind being used as often as the library has it.
-/

namespace BitSynth.Sygus

/-! ## Plain values -/

/-- The value of a leaf at an input. A free constant is filled up with zeros or keeps its low
bits. -/
def Leaf.value {width : Nat} (env : String → BitVec width) : Leaf → BitVec width
  | .input x => env x
  | .free _ v => v.setWidth width
  | .fixed literal => ((Word.ofLiteral? literal).map fun a => a.bits.setWidth width).getD 0

namespace Tree

variable {width : Nat}

mutual

/-- The value of a tree at an input, when an interpretation tells what the kinds do. -/
def value (l : TaggedLibrary) (I : Interpretation width) (env : String → BitVec width) :
    Tree Leaf → BitVec width
  | .leaf a => a.value env
  | .node i ts => (l.kinds[i]?.map fun k => I.apply k (values l I env ts)).getD 0

def values (l : TaggedLibrary) (I : Interpretation width) (env : String → BitVec width) :
    List (Tree Leaf) → List (BitVec width)
  | [] => []
  | t :: ts => value l I env t :: values l I env ts

end

theorem values_eq_map (l : TaggedLibrary) (I : Interpretation width) (env : String → BitVec width) :
    ∀ ts : List (Tree Leaf), values l I env ts = ts.map (value l I env)
  | [] => rfl
  | t :: ts => by rw [values, List.map_cons, values_eq_map l I env ts]

theorem Over.ofArity {l : TaggedLibrary} {inputs : List String} {t : Tree Leaf}
    (ht : t.Over l inputs) : t.OfArity (l.kinds.map Kind.arity) := by
  induction ht with
  | leaf ha => exact .leaf _
  | @node i ts k smtName arity relation hk hform hlen hts ih =>
    refine .node ?_ ih
    rw [hlen, List.getD_eq_getElem?_getD, List.getElem?_map, hk, Option.map_some, Option.getD_some,
      Kind.arity, hform]

theorem Over.uses_constant {l : TaggedLibrary} {inputs : List String} {t : Tree Leaf}
    (ht : t.Over l inputs) {i : Nat} {k : Kind} {literal : String} (hk : l.kinds[i]? = some k)
    (hform : k.form = .constant literal) : t.uses i = 0 := by
  induction ht with
  | leaf ha => rfl
  | @node j ts k' smtName arity relation hk' hform' hlen hts ih =>
    have hij : i ≠ j := by
      rintro rfl
      obtain rfl : k = k' := Option.some.inj (hk.symm.trans hk')
      rw [hform] at hform'
      cases hform'
    have hall : usesAll i ts ≤ ts.length * 0 := usesAll_le fun t ht => Nat.le_of_eq (ih t ht)
    rw [uses, if_neg hij]
    omega

end Tree

/-! ## Values of candidates -/

section Values

variable {q : Problem} {l : TaggedLibrary} {bitWidth : Nat} {inputs : List String}
  {I : Interpretation bitWidth} {σ : String → Option Value} {env : String → BitVec bitWidth}

/-- A wrapper adds up tags and applies its kind to values. -/
theorem meaning_wrapperName (hq : q.definitions = l.helpers ++ l.wrappers bitWidth)
    (hl : l.toLibrary.Sound bitWidth) (htag : 1 ≤ l.tagBits) (hwidth : 0 < bitWidth) {i : Nat}
    {k : Kind} {smtName : String} {arity : Nat} {relation : Bool} (hk : l.kinds[i]? = some k)
    (hform : k.form = .operator smtName arity relation) (ps : List (Nat × BitVec bitWidth))
    (hlen : ps.length = arity) :
    q.meaning I k.wrapperName (ps.map fun p => .word (.tagged l.tagWidth p.1 p.2))
      = some (.word (.tagged l.tagWidth
          (Bits.modulus (i * l.tagBits) + Usage.total (ps.map Prod.fst))
          (I.apply k (ps.map Prod.snd)))) := by
  have hi : i < l.kinds.length := (List.getElem?_eq_some_iff.1 hk).1
  have hof : k.form.Of bitWidth k.key := hl.forms k (List.mem_of_getElem? hk)
  obtain ⟨g, rfl⟩ : ∃ g : String → Nat × BitVec bitWidth,
      (TaggedLibrary.operandNames arity).map g = ps :=
    exists_map_eq (nodup_operandNames arity) (by simp [TaggedLibrary.operandNames, hlen])
  have htagValue := @value_wrapperTag l bitWidth arity g htag i hi
  have hvalue := value_wrapperValue (l := l) (g := g) I hwidth hform hof
  simp only [List.map_map, Function.comp_def]
  unfold Problem.meaning
  rw [hq, findSome?_definitions hl hk hform]
  show ((Candidate.ofTerm _ _).value _ (assign _ (operands l arity g))).bind _ = _
  rw [htagValue, Option.bind_some]
  show ((Candidate.ofTerm _ _).value _ (assign _ (operands l arity g))).bind _ = _
  rw [hvalue, Option.bind_some]
  rfl

theorem meaning_concat (hq : q.definitions = l.helpers ++ l.wrappers bitWidth)
    (hl : l.toLibrary.Sound bitWidth) (vs : List Value) :
    q.meaning I "concat" vs = smtLib "concat" vs := by
  unfold Problem.meaning
  rw [hq, findSome?_definitions_eq_none hl (by decide)]
  intro k h
  simpa [Kind.wrapperName] using congrArg (fun s => s.toList.head?) h

theorem value_leaf (hq : q.definitions = l.helpers ++ l.wrappers bitWidth)
    (hl : l.toLibrary.Sound bitWidth) (htag : 1 ≤ l.tagBits) (hwidth : 0 < bitWidth)
    (hσ : ∀ x ∈ inputs, σ x = some (.word ⟨bitWidth, env x⟩)) {a : Leaf} (ha : a.Of l inputs) :
    (a.candidate l bitWidth).value (q.meaning I) σ
      = some (.word (.tagged l.tagWidth 0 (a.value env))) := by
  have hpos := l.tagWidth_pos htag
  -- words of the full width stand behind the zeros of an empty tag
  have hfull {c : Candidate} {v : BitVec bitWidth}
      (hc : c.value (q.meaning I) σ = some (.word ⟨bitWidth, v⟩)) :
      (Candidate.behind l.tagWidth c).value (q.meaning I) σ
        = some (.word (.tagged l.tagWidth 0 v)) :=
    Candidate.value_behind_full (meaning_concat hq hl) hpos hc
  cases ha with
  | @input x hx =>
    refine hfull ?_
    rw [Candidate.value]
    exact hσ x hx
  | @free k hk v =>
    refine Candidate.value_resized (meaning_concat hq hl) hpos hwidth ?_
    rw [Candidate.value]
  | @fixed k literal hk hform =>
    obtain ⟨v, hv, rfl⟩ := (hform ▸ hl.forms k hk).eq_binary
    have hliteral := Word.ofLiteral?_binary hwidth hv
    refine hfull ?_
    rw [Candidate.value, hliteral, Leaf.value, hliteral]
    simp

/-- A tree is worth its value behind a tag with the number of its uses of each kind. -/
theorem value_candidate (hq : q.definitions = l.helpers ++ l.wrappers bitWidth)
    (hl : l.toLibrary.Sound bitWidth) (htag : 1 ≤ l.tagBits) (hwidth : 0 < bitWidth)
    (hσ : ∀ x ∈ inputs, σ x = some (.word ⟨bitWidth, env x⟩)) {t : Tree Leaf}
    (ht : t.Over l inputs) :
    (t.candidate l bitWidth).value (q.meaning I) σ
      = some (.word (.tagged l.tagWidth (pack l.tagBits (fun i => t.uses i) l.kinds.length)
          (t.value l I env))) := by
  induction ht with
  | @leaf a ha =>
    rw [Tree.candidate, value_leaf hq hl htag hwidth hσ ha]
    simp only [Tree.uses, pack_zero, Tree.value]
  | @node i ts k smtName arity relation hk hform hlen hts ih =>
    have hi : i < l.kinds.length := (List.getElem?_eq_some_iff.1 hk).1
    have hname : k.wrapperName.toList.head? ≠ some '#' := by simp [Kind.wrapperName]
    have hoperands := Candidate.values_map ih
    have hmeaning := meaning_wrapperName (I := I) hq hl htag hwidth hk hform
      (ts.map fun t => (pack l.tagBits (fun i => t.uses i) l.kinds.length, t.value l I env))
      (by rw [List.length_map, hlen])
    simp only [List.map_map, Function.comp_def] at hmeaning
    rw [Tree.candidate, wrapperName_of_getElem? hk, Tree.candidates_eq_map,
      Candidate.value_call hname, hoperands, Option.bind_some, hmeaning, Tree.pack_uses_node hi,
      Tree.value, hk, Option.map_some, Option.getD_some, Tree.values_eq_map]

end Values

theorem head?_of_valid {x : Ident} (hx : x.Valid) : x.name.toList.head? ≠ some '#' := by
  obtain ⟨c, cs, hcs, hc⟩ := Text.exists_cons_of_isSpelling hx
  rw [hcs]
  rintro ⟨⟩
  exact absurd hc (by decide)

namespace Problem

/-! ## The constraint -/

section Constraint

variable {q : Problem} {l : TaggedLibrary} {bitWidth : Nat} {inputs : List String}
  {I : Interpretation bitWidth} {env : String → BitVec bitWidth}
  {spec : List (BitVec bitWidth) → BitVec bitWidth}

theorem declared_eq {sort : Term}
    (h : q.declarations = inputs.map fun x => .app "declare-var" [.atom x, sort]) :
    q.declared = inputs := by
  unfold declared
  rw [h, List.filterMap_map]
  exact List.filterMap_some

theorem mapM_bits?_inputs :
    (inputs.map fun x => Value.word ⟨bitWidth, env x⟩).mapM (Value.bits? bitWidth)
      = some (inputs.map env) :=
  mapM_map fun x _ => Value.bits?_word (env x)

theorem value_call_inputs {F : Meaning} {f : String} (hf : f.toList.head? ≠ some '#') :
    (Candidate.ofTerm inputs (.call f (inputs.map Term.atom))).value F
        (fun x => some (.word ⟨bitWidth, env x⟩))
      = F f (inputs.map fun x => .word ⟨bitWidth, env x⟩) := by
  have hempty : inputs.map Term.atom = [] → f ∉ inputs := by
    intro h
    rw [List.map_eq_nil_iff.1 h]
    exact List.not_mem_nil
  rw [Candidate.ofTerm_call _ hempty, Candidate.value_call hf, List.map_map,
    Candidate.values_map (v := fun x => .word ⟨bitWidth, env x⟩), Option.bind_some]
  intro x hx
  rw [Function.comp_apply, Candidate.ofTerm_of_mem hx, Candidate.value]

/-- The constraint compares the function to meet, behind the target, with the candidate. -/
theorem holds_iff {c : Candidate} {a : Word} (hpos : 0 < l.tagWidth)
    (htarget : l.targetValue < Bits.modulus l.tagWidth) (hnot : l.target ∉ inputs)
    (hdeclared : q.declared = inputs) (hparams : q.parameters.map Prod.fst = inputs)
    (hconstraint : q.constraint = .app "constraint" [.app "="
      [.concat (.atom l.target) (.call "spec" (inputs.map Term.atom)),
        .call "res" (inputs.map Term.atom)]])
    (hc : c.value (q.meaning I) (assign inputs (inputs.map fun x => .word ⟨bitWidth, env x⟩))
      = some (.word a)) :
    q.Holds I spec c env ↔ Word.tagged l.tagWidth l.targetValue (spec (inputs.map env)) = a := by
  have hliteral : Word.ofLiteral? l.target
      = some ⟨l.tagWidth, BitVec.ofNat l.tagWidth l.targetValue⟩ :=
    Word.ofLiteral?_binary hpos htarget
  have hspec : q.constraintMeaning I spec c "spec" (inputs.map fun x => .word ⟨bitWidth, env x⟩)
      = some (.word ⟨bitWidth, spec (inputs.map env)⟩) := by
    rw [constraintMeaning, mapM_bits?_inputs, Option.map_some]
  have hres : q.constraintMeaning I spec c "res" (inputs.map fun x => .word ⟨bitWidth, env x⟩)
      = some (.word a) := by
    rw [constraintMeaning, hparams, hc]
  unfold Holds
  rw [hconstraint, hdeclared]
  simp only [Term.app, Term.list.injEq, List.cons.injEq, true_and, and_true, exists_eq_left']
  rw [← Term.app, Candidate.ofTerm_app, List.map_cons, List.map_singleton, Term.concat,
    Candidate.ofTerm_app, List.map_cons, List.map_singleton, Candidate.ofTerm_of_notMem hnot,
    Candidate.value, Candidate.values, Candidate.value, Candidate.values, Candidate.value, hliteral,
    Candidate.values, value_call_inputs (by decide), hspec, Candidate.values, Candidate.values,
    value_call_inputs (by decide), hres]
  show some (Value.truth (Value.word (Word.tagged _ _ _) == Value.word a)) = _ ↔ _
  simp

end Constraint

/-! ## Solutions -/

/-- The counts of a tree that keeps the budgets can be read off its tag. -/
theorem toNat_pack_slots {l : TaggedLibrary} {f : Nat → Nat}
    (hf : ∀ i < l.kinds.length, f i < Bits.modulus l.tagBits) :
    (BitVec.ofNat l.tagWidth (pack l.tagBits f l.kinds.length)).toNat
        = pack l.tagBits f l.kinds.length
      ∧ ∀ i < l.kinds.length,
          ((BitVec.ofNat l.tagWidth (pack l.tagBits f l.kinds.length)).extractLsb'
            (i * l.tagBits) l.tagBits).toNat = f i := by
  have hnat : (BitVec.ofNat l.tagWidth (pack l.tagBits f l.kinds.length)).toNat
      = pack l.tagBits f l.kinds.length := by
    rw [BitVec.toNat_ofNat]
    exact Nat.mod_eq_of_lt (l.pack_lt_tag hf)
  refine ⟨hnat, fun i hi => ?_⟩
  rw [BitVec.extractLsb'_toNat, hnat, Nat.shiftRight_eq_div_pow]
  exact pack_slot hf hi

/-- The uses are the budgets when every operator is used as often as the library has it. -/
theorem forall_uses_eq_iff {l : TaggedLibrary} {inputs : List String} {t : Tree Leaf}
    (ht : t.Over l inputs) :
    (∀ i < l.kinds.length, l.budgets.getD i 0 = t.uses i) ↔
      ∀ i k smtName arity relation, l.kinds[i]? = some k →
        k.form = .operator smtName arity relation → t.uses i = k.count := by
  have hbudget {i : Nat} {k : Kind} (hk : l.kinds[i]? = some k) :
      l.budgets.getD i 0 = k.budget := by
    rw [List.getD_eq_getElem?_getD, Library.budgets, List.getElem?_map, hk]
    rfl
  refine ⟨fun h i k smtName arity relation hk hform => ?_, fun h i hi => ?_⟩
  · rw [← h i (List.getElem?_eq_some_iff.1 hk).1, hbudget hk, Kind.budget, hform]
  · have hk : l.kinds[i]? = some l.kinds[i] := List.getElem?_eq_getElem hi
    rw [hbudget hk, Kind.budget]
    cases hform : l.kinds[i].form with
    | operator smtName arity relation => exact (h i _ smtName arity relation hk hform).symm
    | constant literal => exact (ht.uses_constant hk hform).symm

theorem map_fst_parameters {p : Program} {q : Problem}
    (h : q.params = .params (inputNames p) (.bitVec p.spec.bitWidth)) :
    q.parameters.map Prod.fst = inputNames p := by
  rw [parameters_of_params h, Grammar.inputSorts, List.map_map]
  exact List.map_id' _

/-- The target is a bit string and no name of an input. -/
theorem target_notMem_inputNames {p : Program} (l : TaggedLibrary)
    (h : ∀ x ∈ p.spec.inputs, x.Valid) : l.target ∉ inputNames p := by
  intro hmem
  obtain ⟨x, hx, hname⟩ := List.mem_map.1 hmem
  exact absurd (head?_binary _ _) (hname ▸ head?_of_valid (h x hx))

/-- Whatever the operators of the library do to bit vectors, a solution is worth the value of its
tree behind a tag in which each slot holds the number of uses of its kind. It meets the constraint
at all inputs exactly when every operator is used as often as the library has it and the tree has
the values of the function to meet. A program that was read has a width and inputs as they are asked
for here. -/
theorem exists_library_value {p : Program} {s : Settings} {q : Problem}
    (h : (ofProgram p s).result = .ok q) (hwidth : 0 < p.spec.bitWidth)
    (hinputs : ∀ x ∈ p.spec.inputs, x.Valid) :
    ∃ l, (TaggedLibrary.ofEntries p.library (encoder p s) s).result = .ok l
      ∧ (∀ c, q.Generates c →
          ∃ t : Tree Leaf, t.Over l (inputNames p) ∧ t.candidate l p.spec.bitWidth = c)
      ∧ ∀ (I : Interpretation p.spec.bitWidth) (t : Tree Leaf), t.Over l (inputNames p) →
          q.Generates (t.candidate l p.spec.bitWidth) →
          (∃ tag : BitVec l.tagWidth,
            (∀ env, q.evaluate I env (t.candidate l p.spec.bitWidth)
              = some (.word ⟨l.tagWidth + p.spec.bitWidth, tag ++ t.value l I env⟩))
            ∧ tag.toNat = pack l.tagBits (fun i => t.uses i) l.kinds.length
            ∧ ∀ i < l.kinds.length, (tag.extractLsb' (i * l.tagBits) l.tagBits).toNat = t.uses i)
          ∧ ∀ spec : List (BitVec p.spec.bitWidth) → BitVec p.spec.bitWidth,
              (∀ env, q.Holds I spec (t.candidate l p.spec.bitWidth) env) ↔
                (∀ i k smtName arity relation, l.kinds[i]? = some k →
                  k.form = .operator smtName arity relation → t.uses i = k.count)
                ∧ ∀ env, t.value l I env = spec ((inputNames p).map env) := by
  obtain ⟨hvalid, l, body, hl, -, hq⟩ := ofProgram_eq_ok_iff.1 h
  have hsound : l.toLibrary.Sound p.spec.bitWidth := TaggedLibrary.sound_of_ofEntries hl
  obtain ⟨-, hcheck, htagBits⟩ := TaggedLibrary.ofEntries_eq_ok_iff.1 hl
  rw [← htagBits] at hcheck
  have htag : 1 ≤ l.tagBits := htagBits ▸ hvalid.1
  have hmax : l.tagBits ≤ maxTagBits := htagBits ▸ hvalid.2
  have hdefinitions := congrArg Problem.definitions hq
  refine ⟨l, hl, fun c hc => exists_tree_of_generates h hl hc, fun I t ht hc => ?_⟩
  have hkeeps : t.Keeps l.budgets (Usage.zero l.budgets.length) :=
    Tree.keeps_zero_iff.2 ((generates_candidate_iff h hl ht).1 hc)
  have huses : ∀ i < l.kinds.length, t.uses i < Bits.modulus l.tagBits := fun i hi =>
    Library.uses_lt_modulus hcheck hmax ht.ofArity hkeeps hi
  have hbudgets : ∀ i < l.kinds.length, l.budgets.getD i 0 < Bits.modulus l.tagBits := fun i _ =>
    Library.budget_lt_modulus hcheck i
  refine ⟨⟨_, fun env => value_candidate hdefinitions hsound htag hwidth (fun x _ => rfl) ht,
    toNat_pack_slots huses⟩, fun spec => ?_⟩
  have hnames : q.parameters.map Prod.fst = inputNames p :=
    map_fst_parameters (congrArg Problem.params hq)
  have hnot : l.target ∉ inputNames p := target_notMem_inputNames l hinputs
  have hholds (env : String → BitVec p.spec.bitWidth) :
      q.Holds I spec (t.candidate l p.spec.bitWidth) env ↔
        (∀ i < l.kinds.length, l.budgets.getD i 0 = t.uses i)
          ∧ spec ((inputNames p).map env) = t.value l I env := by
    have hvalue := value_candidate (I := I) hdefinitions hsound htag hwidth
      (fun x hx => assign_map (fun x => .word ⟨_, env x⟩) hx) ht
    have hpos := l.tagWidth_pos htag
    have htarget := l.targetValue_lt hbudgets
    have hdeclared := declared_eq (congrArg Problem.declarations hq)
    rw [holds_iff hpos htarget hnot hdeclared hnames (congrArg Problem.constraint hq) hvalue,
      Word.tagged_inj hpos hwidth htarget (l.pack_lt_tag huses), l.targetValue_eq_pack]
    exact and_congr_left' ⟨pack_inj hbudgets huses, pack_congr⟩
  simp only [hholds, forall_and, forall_const, forall_uses_eq_iff ht, eq_comm]

/-- A sum of a sum and a comparison, which uses the library of `sums` up. -/
def sumAndComparison : Tree Leaf :=
  .node 0 [.node 0 [.leaf (.input "x"), .leaf (.fixed "#b0011")],
    .node 1 [.leaf (.input "x"), .leaf (.free 4 5)]]

theorem sumAndComparison_over : sumAndComparison.Over sumsLibrary (inputNames sums) := by
  refine .node rfl rfl rfl (List.forall_mem_cons.2 ⟨.node rfl rfl rfl ?_, ?_⟩)
  · exact List.forall_mem_cons.2
      ⟨.leaf of_sums_input, List.forall_mem_cons.2 ⟨.leaf of_sums_three, by simp⟩⟩
  · refine List.forall_mem_cons.2 ⟨.node rfl rfl rfl ?_, by simp⟩
    exact List.forall_mem_cons.2
      ⟨.leaf of_sums_input, List.forall_mem_cons.2 ⟨.leaf of_sums_five, by simp⟩⟩

/-- Two sums and a comparison make the tag of the target, so the constraint asks for the value
alone. -/
theorem exists_value_sumAndComparison : ∃ q, (ofProgram sums {}).result = .ok q
    ∧ ∀ I : Interpretation 4, (∃ tag : BitVec 12, tag.toNat = 18
        ∧ ∀ env, q.evaluate I env (sumAndComparison.candidate sumsLibrary 4)
          = some (.word ⟨16, tag ++ sumAndComparison.value sumsLibrary I env⟩))
      ∧ ∀ spec : List (BitVec 4) → BitVec 4,
          (∀ env, q.Holds I spec (sumAndComparison.candidate sumsLibrary 4) env) ↔
            ∀ env, sumAndComparison.value sumsLibrary I env = spec [env "x"] := by
  obtain ⟨q, hq⟩ : ∃ q, (ofProgram sums {}).result = .ok q := ⟨_, rfl⟩
  obtain ⟨l, hl, -, hvalue⟩ := exists_library_value hq (by decide) (by decide +kernel)
  obtain rfl : sumsLibrary = l := Except.ok.inj (ofEntries_sums.symm.trans hl)
  have hc : q.Generates (sumAndComparison.candidate sumsLibrary 4) := by
    refine (generates_candidate_iff hq hl sumAndComparison_over).2 (Tree.count_le_of_uses_eq ?_)
    rintro (_ | _ | _ | k) <;> rfl
  refine ⟨q, hq, fun I => ?_⟩
  obtain ⟨⟨tag, hevaluate, hnat, -⟩, hholds⟩ := hvalue I _ sumAndComparison_over hc
  refine ⟨⟨tag, hnat, hevaluate⟩, fun spec => (hholds spec).trans (and_iff_right ?_)⟩
  rintro (_ | _ | _ | i) k smtName arity relation hk hform <;> cases hk
  · rfl
  · rfl
  · cases hform

end Problem

end BitSynth.Sygus
