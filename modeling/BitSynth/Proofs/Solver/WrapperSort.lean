import BitSynth.Proofs.Solver.Helpers

/-!
# The sorts of wrappers

A wrapper is declared with words of the tag's and the value's width together. Its body is the tag of
that width joined with the value, so it has the declared sort exactly if its value is a word of the
program's width. This is so of comparisons, which are widened, of operations that keep the width,
and of functions. It is not so of choice, whose condition would have to be a truth value, nor of
joining, which makes a wider word (`TaggedLibrary.wellSorted_wrappers`).
-/

namespace BitSynth.Sygus

open TaggedLibrary

/-! ## Symbols -/

theorem mem_operandNames {arity : Nat} {x : String} (h : x ∈ operandNames arity) :
    x.toList.head? = some 'i' ∧ ∀ c ∈ x.toList.tail, c.isDigit = true := by
  obtain ⟨i, -, rfl⟩ := List.mem_map.1 h
  rw [String.toList_append, Text.toList_toString_nat]
  exact ⟨rfl, fun c hc => Text.isDigit_of_mem_toDigits hc⟩

theorem notMem_operandNames_of_symbol {arity : Nat} {f : String} (hf : f ∈ SmtLib.symbols) :
    f ∉ operandNames arity := by
  have hsymbols : ∀ f ∈ SmtLib.symbols,
      ¬ (f.toList.head? = some 'i' ∧ f.toList.tail.all Char.isDigit = true) := by decide
  exact fun h => hsymbols f hf ((mem_operandNames h).imp_right List.all_eq_true.2)

theorem ofDefinitions_eq_none {ts : List Term} {f : String}
    (hts : ∀ t ∈ ts, Library.IsHelper t) (hf : Operator.isHelper f = false) :
    Declarations.ofDefinitions ts f = none := by
  rw [Declarations.ofDefinitions, List.findSome?_eq_none_iff]
  intro t ht
  obtain ⟨function, names, sort, body, rfl⟩ := hts t ht
  refine Declarations.ofDefinition_of_ne ?_ names sort sort body
  rintro rfl
  rw [isHelper_helperName] at hf
  cases hf

/-! ## Operators -/

namespace Operator

theorem standard_cases : ∀ name ∈ Operator.standard, name = Operator.ite ∨ name = Operator.concat
    ∨ Operator.arity name = 1 ∧ Relation.ofName? name = none
      ∧ Operator.smtName name .value ∈ SmtLib.unaryOperations
    ∨ Operator.arity name = 2 ∧ Relation.ofName? name = none
      ∧ Operator.smtName name .value ∈ SmtLib.binaryOperations
    ∨ Operator.arity name = 2 ∧ (Relation.ofName? name).isSome = true
      ∧ (Operator.smtName name .value ∈ SmtLib.comparisons
        ∨ Operator.smtName name .value ∈ SmtLib.equalities) := by
  decide

theorem smtName_mem_symbols :
    ∀ name ∈ Operator.standard, Operator.smtName name .value ∈ SmtLib.symbols := by
  decide

/-- But for choice and joining, standard operators compare words of a width or keep it. -/
theorem resultSort?_standard {name : String} (h : name ∈ Operator.standard)
    (hite : name ≠ Operator.ite) (hconcat : name ≠ Operator.concat) (n : Nat) :
    SmtLib.resultSort? (Operator.smtName name .value)
        (List.replicate (Operator.arity name) (.word n))
      = some (if (Relation.ofName? name).isSome then .truth else .word n) := by
  rcases standard_cases name h with h | h | ⟨harity, hname, hf⟩ | ⟨harity, hname, hf⟩ |
    ⟨harity, hname, hf⟩
  · exact absurd h hite
  · exact absurd h hconcat
  · rw [harity, hname]
    exact SmtLib.resultSort?_unary hf n
  · rw [harity, hname]
    exact SmtLib.resultSort?_binary hf n
  · rw [harity, if_pos hname]
    exact SmtLib.resultSort?_comparison hf n

end Operator

/-! ## Wrappers -/

section Wrapper

variable {l : TaggedLibrary} {bitWidth total arity : Nat} {f : String}

/-- What the body of a wrapper can refer to. -/
def wrapperDeclarations (l : TaggedLibrary) (total arity : Nat) : Declarations :=
  (Declarations.ofDefinitions l.helpers).withConstants
    ((operandNames arity).map (·, .word total))

theorem wrapperDeclarations_of_notMem (hf : f ∉ operandNames arity) :
    wrapperDeclarations l total arity f = Declarations.ofDefinitions l.helpers f := by
  refine Declarations.withConstants_of_notMem ?_
  rw [List.map_map]
  simpa [Function.comp_def] using hf

theorem wrapperDeclarations_symbol (hl : l.toLibrary.Sound bitWidth) (hf : f ∈ SmtLib.symbols) :
    wrapperDeclarations l total arity f = none := by
  have hhelper : ∀ f ∈ SmtLib.symbols, Operator.isHelper f = false := by decide
  rw [wrapperDeclarations_of_notMem (notMem_operandNames_of_symbol hf),
    ofDefinitions_eq_none hl.helpers (hhelper f hf)]

theorem sorts?_operandParts {high low : Nat} (hlow : low ≤ high) (hhigh : high < total) :
    Term.sorts? (wrapperDeclarations l total arity) (operandParts arity high low)
      = some (List.replicate arity (.word (high - low + 1))) := by
  have hparts : Term.sorts? (wrapperDeclarations l total arity) (operandParts arity high low)
      = some (List.replicate (operandNames arity).length (.word (high - low + 1))) := by
    refine Term.sorts?_map fun x hx => Term.sort?_extract ?_ hlow hhigh
    refine Term.sort?_constant ?_ (Declarations.withConstants_of_mem _ hx)
    rw [(mem_operandNames hx).1]
    decide
  rwa [operandNames, List.length_map, List.length_range] at hparts

theorem sort?_wrapperTag (hl : l.toLibrary.Sound bitWidth) (htag : 1 ≤ l.tagBits) {i : Nat}
    (hi : i < l.kinds.length) :
    Term.sort? (wrapperDeclarations l (l.tagWidth + bitWidth) arity)
      (l.wrapperTag bitWidth i arity) = some (.word l.tagWidth) := by
  have hpos := l.tagWidth_pos htag
  have honeHot : Term.sort? (wrapperDeclarations l (l.tagWidth + bitWidth) arity)
      (.atom (l.oneHot i)) = some (.word l.tagWidth) :=
    Term.sort?_binary hpos (l.modulus_slot_lt htag hi)
  have hhigh : l.tagWidth + bitWidth - 1 - bitWidth + 1 = l.tagWidth := by omega
  cases arity with
  | zero => exact honeHot
  | succ n =>
    rw [wrapperTag, if_neg (Nat.succ_ne_zero n), Term.sort?_app, Term.sorts?, honeHot,
      sorts?_operandParts (by omega) (by omega), hhigh, Option.bind_some, Option.map_some,
      Option.bind_some, Term.headSort?_of_none (wrapperDeclarations_symbol hl (by decide))]
    exact SmtLib.resultSort?_bvadd n _

theorem sort?_call_operandParts (l : TaggedLibrary) (arity : Nat) (hwidth : 0 < bitWidth)
    (htotal : bitWidth ≤ total) (hf : f.toList.head? ≠ some '#') :
    Term.sort? (wrapperDeclarations l total arity) (.call f (operandParts arity (bitWidth - 1) 0))
      = headSort? (wrapperDeclarations l total arity) (.atom f)
          (List.replicate arity (.word bitWidth)) := by
  have hbits : bitWidth - 1 - 0 + 1 = bitWidth := by omega
  rw [Term.sort?_call hf, sorts?_operandParts (Nat.zero_le _) (by omega), hbits, Option.bind_some]

/-- A comparison is widened; any other value is left as it is. -/
theorem sort?_wrapperValue (hl : l.toLibrary.Sound bitWidth) (hwidth : 0 < bitWidth)
    (htotal : bitWidth ≤ total) (hf : f.toList.head? ≠ some '#') {relation : Bool}
    (hhead : headSort? (wrapperDeclarations l total arity) (.atom f)
      (List.replicate arity (.word bitWidth))
        = some (if relation = true then .truth else .word bitWidth)) :
    Term.sort? (wrapperDeclarations l total arity) (wrapperValue bitWidth f arity relation)
      = some (.word bitWidth) := by
  have hcall := (sort?_call_operandParts l arity hwidth htotal hf).trans hhead
  cases relation with
  | false => exact hcall
  | true =>
    rw [if_pos rfl] at hcall
    rw [wrapperValue, if_pos rfl]
    exact Term.sort?_choice (wrapperDeclarations_symbol hl (by decide)) hwidth hcall

theorem sort?_wrapperValue_standard_iff (hl : l.toLibrary.Sound bitWidth) (hwidth : 0 < bitWidth)
    {key : String} (hkey : key ∈ Operator.standard) (htotal : bitWidth ≤ total) :
    Term.sort? (wrapperDeclarations l total (Operator.arity key))
        (wrapperValue bitWidth (Operator.smtName key .value) (Operator.arity key)
          (Relation.ofName? key).isSome)
      = some (.word bitWidth) ↔ key ≠ Operator.ite ∧ key ≠ Operator.concat := by
  have hhead (ss : List ValueSort) : headSort? (wrapperDeclarations l total (Operator.arity key))
      (.atom (Operator.smtName key .value)) ss
        = SmtLib.resultSort? (Operator.smtName key .value) ss :=
    Term.headSort?_of_none
      (wrapperDeclarations_symbol hl (Operator.smtName_mem_symbols _ hkey)) ss
  have hcall := sort?_call_operandParts l (Operator.arity key) hwidth htotal (head?_smtName key)
  rw [hhead] at hcall
  constructor
  · intro h
    refine ⟨?_, ?_⟩
    · -- the condition is a word
      rintro rfl
      have hnone := hcall.symm.trans h
      cases hnone
    · -- the width of the joined words is twice the program's
      rintro rfl
      have hdouble := hcall.symm.trans h
      have := ValueSort.word.inj (Option.some.inj hdouble)
      omega
  · rintro ⟨hite, hconcat⟩
    exact sort?_wrapperValue hl hwidth htotal (head?_smtName key)
      ((hhead _).trans (Operator.resultSort?_standard hkey hite hconcat bitWidth))

theorem sort?_wrapperValue_function (hl : l.toLibrary.Sound bitWidth)
    (hdeclares : l.toLibrary.Declares bitWidth) (hwidth : 0 < bitWidth) (htotal : bitWidth ≤ total)
    {k : Kind} (hk : k ∈ l.kinds) (hkey : Operator.isHelper k.key = true) :
    Term.sort? (wrapperDeclarations l total k.arity) (wrapperValue bitWidth k.key k.arity false)
      = some (.word bitWidth) := by
  have hfirst := head?_of_isHelper hkey
  have hnot : k.key ∉ operandNames k.arity := by
    intro h
    rw [(mem_operandNames h).1] at hfirst
    exact absurd hfirst (by decide)
  have hdeclared : wrapperDeclarations l total k.arity k.key
      = some (List.replicate k.arity (.word bitWidth), .word bitWidth) := by
    rw [wrapperDeclarations_of_notMem hnot, hdeclares.helpers k.key hkey,
      Kind.arityOf?_of_mem hl.keys hk, Option.map_some]
  refine sort?_wrapperValue hl hwidth htotal ?_ (Term.headSort?_of_some hdeclared)
  rw [hfirst]
  decide

/-- The value of a wrapper is a word of the program's width, but for choice and joining. -/
theorem sort?_wrapperValue_iff (hl : l.toLibrary.Sound bitWidth)
    (hdeclares : l.toLibrary.Declares bitWidth) (hwidth : 0 < bitWidth) (htotal : bitWidth ≤ total)
    {k : Kind} (hk : k ∈ l.kinds) {relation : Bool} (hform : k.form = .operator f arity relation) :
    Term.sort? (wrapperDeclarations l total arity) (wrapperValue bitWidth f arity relation)
        = some (.word bitWidth) ↔ k.key ≠ Operator.ite ∧ k.key ≠ Operator.concat := by
  have hof := hl.forms k hk
  rw [hform] at hof
  have harity : k.arity = arity := by rw [Kind.arity, hform]
  rcases hdeclares.keys k hk with hkey | hkey | ⟨literal, hkey⟩
  · generalize k.key = key at hof hkey
    cases hof with
    | builtin => exact sort?_wrapperValue_standard_iff hl hwidth hkey htotal
    | helper function =>
      have hnot := Operator.isHelper_of_mem_standard _ hkey
      rw [isHelper_helperName] at hnot
      cases hnot
  · have hfunction : f = k.key ∧ relation = false := by
      generalize k.key = key at hof hkey
      cases hof with
      | builtin =>
        rw [Operator.ofName?_of_isHelper hkey]
        exact ⟨Operator.smtName_of_isHelper hkey .value, rfl⟩
      | helper => exact ⟨rfl, rfl⟩
    obtain ⟨rfl, rfl⟩ := hfunction
    rw [← harity]
    refine iff_of_true (sort?_wrapperValue_function hl hdeclares hwidth htotal hk hkey) ?_
    refine ⟨fun h => ?_, fun h => ?_⟩ <;> rw [h] at hkey <;> exact absurd hkey (by decide)
  · rw [hkey] at hform
    cases hform

end Wrapper

namespace TaggedLibrary

variable {e : Encoder} {s : Settings} {entries : List LibraryEntry} {l : TaggedLibrary}

/-- A counter has a bit if something has to be counted. -/
theorem one_le_tagBits (hdeclares : l.toLibrary.Declares e.bitWidth)
    (hcheck : l.toLibrary.checkCounts l.tagBits = .ok ()) {i : Nat} {k : Kind}
    (hk : l.kinds[i]? = some k) {f : String} {arity : Nat} {relation : Bool}
    (hform : k.form = .operator f arity relation) : 1 ≤ l.tagBits := by
  have hbudget : l.budgets.getD i 0 = k.count := by
    rw [List.getD_eq_getElem?_getD, Library.budgets, List.getElem?_map, hk, Option.map_some,
      Option.getD_some, Kind.budget, hform]
  have hcount := hdeclares.counts k (List.mem_of_getElem? hk)
  have hlt := Library.budget_lt_modulus hcheck i
  rw [hbudget] at hlt
  by_contra htag
  have hone : Bits.modulus l.tagBits = 1 := by rw [Nat.lt_one_iff.1 (Nat.not_le.1 htag)]; rfl
  omega

/-- Of the wrappers of standard operators and functions, all but those of choice and of joining are
well-sorted. -/
theorem wellSorted_wrappers (hwidth : 0 < e.bitWidth)
    (hentries : ∀ name, LibraryEntry.operator name ∈ entries → name.name ∈ Operator.standard)
    (h : (ofEntries entries e s).result = .ok l) {t : Term} (ht : t ∈ l.wrappers e.bitWidth) :
    ∃ k ∈ l.kinds, (∃ params sort body,
        t = .app "define-fun" [.atom k.wrapperName, params, sort, body]) ∧
      (t.WellSorted (.ofDefinitions l.helpers) ↔
        k.key ≠ Operator.ite ∧ k.key ≠ Operator.concat) := by
  obtain ⟨i, k, f, arity, relation, hk, hform, rfl⟩ := mem_wrappers_iff.1 ht
  have hmem := List.mem_of_getElem? hk
  have hl := sound_of_ofEntries h
  have hdeclares := declares_of_ofEntries hentries h
  obtain ⟨-, hcheck, htag⟩ := ofEntries_eq_ok_iff.1 h
  rw [← htag] at hcheck
  have hi : i < l.kinds.length := (List.getElem?_eq_some_iff.1 hk).1
  have hbits := one_le_tagBits hdeclares hcheck hk hform
  refine ⟨k, hmem, ⟨_, _, _, rfl⟩, ?_⟩
  have hvalue := sort?_wrapperValue_iff hl hdeclares hwidth
    (Nat.le_add_left e.bitWidth l.tagWidth) hmem hform
  rw [wrapper_eq, Term.wellSorted_defineFun_iff, ← hvalue]
  exact Term.sort?_concat_iff (wrapperDeclarations_symbol hl (by decide))
    (sort?_wrapperTag hl hbits hi)

/-- A choice, a sum, and a function of the name of a sum. -/
def choiceAndSums : List LibraryEntry := [
  .operator ⟨"ite"⟩, .operator ⟨"add"⟩,
  .function ⟨"add"⟩ [⟨"x"⟩] (.app ⟨"add"⟩ [.ident ⟨"x"⟩, .ident ⟨"x"⟩])]

theorem wellSorted_wrappers_choiceAndSums : ∃ l,
    (ofEntries choiceAndSums ⟨4, .truncate⟩ {}).result = .ok l ∧ ∀ t ∈ l.wrappers 4,
      ∃ k ∈ l.kinds, (∃ params sort body,
          t = .app "define-fun" [.atom k.wrapperName, params, sort, body]) ∧
        (t.WellSorted (.ofDefinitions l.helpers) ↔
          k.key ≠ Operator.ite ∧ k.key ≠ Operator.concat) := by
  have hstandard : ∀ name, LibraryEntry.operator name ∈ choiceAndSums →
      name.name ∈ Operator.standard := by
    simp only [choiceAndSums, List.mem_cons, LibraryEntry.operator.injEq, reduceCtorEq,
      List.not_mem_nil, or_false]
    rintro name (rfl | rfl) <;> decide
  exact ⟨_, rfl, fun t ht =>
    wellSorted_wrappers (e := ⟨4, .truncate⟩) (s := {}) (by decide) hstandard rfl ht⟩

/-- The condition of the choice is a word. -/
theorem not_wellSorted_choice : ∃ l t,
    (ofEntries [.operator ⟨"ite"⟩] ⟨4, .truncate⟩ {}).result = .ok l ∧ t ∈ l.wrappers 4 ∧
      t.text = "(define-fun op_ite ((i0 (_ BitVec 8)) (i1 (_ BitVec 8)) (i2 (_ BitVec 8))) "
        ++ "(_ BitVec 8) (concat (bvadd #b0001 ((_ extract 7 4) i0) ((_ extract 7 4) i1) "
        ++ "((_ extract 7 4) i2)) (ite ((_ extract 3 0) i0) ((_ extract 3 0) i1) "
        ++ "((_ extract 3 0) i2))))" ∧
      ¬ t.WellSorted (.ofDefinitions l.helpers) :=
  ⟨_, _, rfl, List.mem_singleton_self _, by decide +kernel, by decide +kernel⟩

end TaggedLibrary

end BitSynth.Sygus
