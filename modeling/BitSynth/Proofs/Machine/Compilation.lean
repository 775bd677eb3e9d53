import BitSynth.Proofs.Encoder.BitStrings
import BitSynth.Proofs.Library.Tags
import BitSynth.Proofs.Machine.Run
import BitSynth.Proofs.Program.RoundTrip
import BitSynth.Sygus.Problem

/-!
# Compilation on machine numbers

Each number that is taken away from another while a program is compiled is guarded somewhere else:
by the reader of the spec, which leaves no width of zero, by the check that comes before a value is
written, by the settings' check, and by that of the library's counts. So a compilation on machine
numbers does the same as one on natural numbers (`computes_compilation`).
-/

namespace BitSynth.Machine

open Sygus

/-! ## Expressions -/

section Encoder

variable (e : Encoder)

def fits (value : Int) (width : Nat) : Run Bool := do
  if width = 0 then
    return value = 0
  else
    let low ← difference width 1
    return -(Bits.modulus low : Int) ≤ value ∧ value < Bits.modulus width

def checkFit (value : Int) (width : Nat) : Run Unit := do
  if width = 0 then
    refuse (.zeroWidthLiteral value)
  else if ← fits value width then
    return ()
  else match e.policy with
    | .strict => refuse (.literalRange value width)
    | .truncate => step (.emit .warn .encoding
        ("Literal " ++ toString value ++ " does not fit in " ++ toString width
          ++ " bits, truncating"))

def encodeBits (value : Int) (width : Nat) : Run String := do
  checkFit e value width
  binary (Bits.truncate value width) width

def encodeConstant (value : Int) (width : Nat) : Run String := do
  checkFit e value width
  binary (Bits.truncate value (min width e.bitWidth)) e.bitWidth

mutual

def encodeFor (use : Operator.Use) : Expr → Run Term
  | .ident x => return .atom x.name
  | .literal l => do
    let s ← encodeBits e l.value (l.width.getD e.bitWidth)
    return .atom s
  | .app op args =>
    if op.name = Extraction.operator then
      match args with
      | [.literal low, .literal high, operand] => do
        let t ← encodeFor .value operand
        return .extract high.value low.value t
      | _ => refuse (.malformedExtract ⟨op, args⟩)
    else do
      let ts ← encodeArgs (if op.name = Operator.ite then .condition else .value) args
      return .app (Operator.smtName op.name use) ts

def encodeArgs (first : Operator.Use) : List Expr → Run (List Term)
  | [] => return []
  | a :: as => do
    let t ← encodeFor first a
    let ts ← encodeArgs .value as
    return t :: ts

end

variable {e} {value : Int} {m width : Nat}

theorem fits_eq (value : Int) (width : Nat) :
    fits value width = pure (decide (Bits.Fits value width)) := by
  rw [fits]
  split_ifs with h
  · simp only [h, Bits.fits_zero_iff]
  · have hpos : 0 < width := Nat.pos_of_ne_zero h
    simp only [difference_eq hpos, pure_bind, Bits.fits_iff hpos]

theorem computes_checkFit : Computes (checkFit e value width) (e.checkFit value width) := by
  rw [checkFit, Encoder.checkFit, fits_eq, pure_bind]
  by_cases hzero : width = 0
  · rw [if_pos hzero, if_pos hzero]
    exact .step _
  rw [if_neg hzero, if_neg hzero]
  by_cases hfits : Bits.Fits value width
  · rw [if_pos (decide_eq_true hfits), if_pos hfits]
    exact .pure _
  · rw [if_neg (by simpa using hfits), if_neg hfits]
    cases e.policy <;> exact .step _

/-- The low bits of a value are written with no more digits than there are bits. -/
theorem binary_truncate (hw : 0 < width) (hm : m ≤ width) :
    binary (Bits.truncate value m) width = pure (Bits.binary (Bits.truncate value m) width) := by
  have hnonneg := Bits.truncate_nonneg value m
  have hlt := Bits.truncate_lt value m
  have hmono := modulus_mono hm
  rw [← Int.toNat_of_nonneg hnonneg]
  exact binary_eq hw (by omega)

theorem pos_of_checkFit (h : (e.checkFit value width).result = .ok ()) : 0 < width := by
  refine Nat.pos_of_ne_zero fun hzero => ?_
  rw [Encoder.checkFit, if_pos hzero] at h
  cases h

theorem computes_encodeBits : Computes (encodeBits e value width) (e.encodeBits value width) := by
  refine computes_checkFit.bind fun _ h => ?_
  rw [binary_truncate (pos_of_checkFit h) (Nat.le_refl width)]
  exact .pure _

theorem computes_encodeConstant (he : 0 < e.bitWidth) :
    Computes (encodeConstant e value width) (e.encodeConstant value width) := by
  refine computes_checkFit.bind fun _ _ => ?_
  rw [binary_truncate he (Nat.min_le_right width e.bitWidth)]
  exact .pure _

mutual

theorem computes_encodeFor : ∀ (use : Operator.Use) (x : Expr),
    Computes (encodeFor e use x) (e.encodeFor use x)
  | _, .ident x => .pure _
  | _, .literal l => computes_encodeBits.bind fun s _ => .pure _
  | use, .app op args => by
    by_cases hop : op.name = Extraction.operator
    · by_cases hargs : ∃ low high x, args = [.literal low, .literal high, x]
      · obtain ⟨low, high, x, rfl⟩ := hargs
        rw [encodeFor, Encoder.encodeFor, if_pos hop, if_pos hop]
        exact (computes_encodeFor .value x).bind fun t _ => .pure _
      · have hother : ∀ low high x, args = [.literal low, .literal high, x] → False :=
          fun low high x h => hargs ⟨low, high, x, h⟩
        rw [encodeFor, Encoder.encodeFor, if_pos hop, if_pos hop]
        · exact .step _
        · exact hother
        · exact hother
    · rw [encodeFor.eq_def, Encoder.encodeFor.eq_def]
      simp only [if_neg hop]
      exact (computes_encodeArgs _ args).bind fun ts _ => .pure _

theorem computes_encodeArgs : ∀ (first : Operator.Use) (xs : List Expr),
    Computes (encodeArgs e first xs) (e.encodeArgs first xs)
  | _, [] => .pure _
  | first, x :: xs => by
    refine (computes_encodeFor first x).bind fun t _ => ?_
    exact (computes_encodeArgs .value xs).bind fun ts _ => .pure _

end

end Encoder

/-! ## Libraries -/

section Library

variable (e : Encoder)

def addEntry (l : Library) : LibraryEntry → Run Library
  | .constant width (some literal) => do
    let key ← encodeConstant e literal.value width
    return { l with kinds := Kind.tally key (.constant key) l.kinds }
  | .function name params body => do
    let key := Operator.helperName name.name
    let helpers ←
      if l.kinds.any (·.key = key) then pure l.helpers
      else do
        let t ← encodeFor e .value body
        let sort := Term.bitVec e.bitWidth
        pure (l.helpers ++ [.defineFun key (params.map Ident.name) sort sort t])
    return { l with
      kinds := Kind.tally key (.operator key params.length false) l.kinds
      helpers := helpers }
  | entry => step (l.add e entry)

def checkCounts (l : Library) (tagBits : Nat) : Run Unit := do
  let beyond ← word (Bits.modulus tagBits)
  let most ← difference beyond 1
  match (l.kinds.zip l.uses).find? (fun p => most < p.2) with
  | some (k, n) => refuse (.tagOverflow k.key n tagBits)
  | none => return ()

def partition (entries : List LibraryEntry) (s : Settings) : Run TaggedLibrary := do
  let l ← entries.foldlM (addEntry e) {}
  checkCounts l s.tagBits
  step (l.kinds.forM fun k =>
    .emit .debug .library ("Kind " ++ k.key ++ " required " ++ toString k.count ++ " times"))
  return { toLibrary := l, tagBits := s.tagBits }

variable {e}

theorem computes_addEntry (he : 0 < e.bitWidth) (l : Library) (entry : LibraryEntry) :
    Computes (addEntry e l entry) (l.add e entry) := by
  unfold addEntry
  split
  · exact (computes_encodeConstant he).bind fun key _ => .pure _
  · simp only [Library.add]
    split
    · exact .pure _
    · exact (computes_encodeFor .value _).bind fun t _ => .pure _
  · exact .step _

theorem computes_checkCounts {l : Library} {tagBits : Nat} (h : tagBits ≤ maxTagBits) :
    Computes (checkCounts l tagBits) (.ofExcept (l.checkCounts tagBits)) := by
  have hlt : Bits.modulus tagBits < Bits.modulus 32 :=
    Nat.lt_of_le_of_lt (modulus_mono h) (by decide)
  rw [checkCounts, word_eq hlt, pure_bind, difference_eq (Bits.modulus_pos tagBits), pure_bind,
    Library.checkCounts]
  unfold maxCount
  generalize (l.kinds.zip l.uses).find? _ = excess
  cases excess with
  | none => exact .pure ()
  | some p => exact .step _

theorem computes_partition {s : Settings} (he : 0 < e.bitWidth) (hs : s.Valid)
    (entries : List LibraryEntry) :
    Computes (partition e entries s) (TaggedLibrary.ofEntries entries e s) := by
  refine (Computes.foldlM (computes_addEntry he) entries {}).bind fun l _ => ?_
  refine (computes_checkCounts hs.2).bind fun _ _ => ?_
  exact (Computes.step _).bind fun _ _ => .pure _

end Library

/-! ## Tags and wrappers -/

section Tags

variable (l : TaggedLibrary) (bitWidth : Nat)

def oneHot (kind : Nat) : Run String := do
  let place ← word (kind * l.tagBits)
  binary (Bits.modulus place) l.tagWidth

def target : Run String := do
  let slots ← l.budgets.zipIdx.mapM fun p => do
    let place ← word (p.2 * l.tagBits)
    return p.1 * Bits.modulus place
  binary (Usage.total slots) l.tagWidth

/-- The bits of the operands from the low one on, as many as make up the width. -/
def operandParts (names : List String) (width low : Nat) : Run (List Term) :=
  names.mapM fun x => do
    let high ← difference width 1
    return .extract high low (.atom x)

/-- What the operator makes of its operands, as bits where it is a truth value. -/
def valueBits (relation : Bool) (value : Term) : Run Term :=
  if relation then do
    let one ← binary 1 bitWidth
    return .app Operator.ite [value, .atom one, .atom (Bits.zeros bitWidth)]
  else pure value

def wrapper (index : Nat) (k : Kind) (smtName : String) (arity : Nat) (relation : Bool) :
    Run Term := do
  let total ← word (l.tagWidth + bitWidth)
  let names := TaggedLibrary.operandNames arity
  let tags ← operandParts names total bitWidth
  let values ← operandParts names bitWidth 0
  let oneHot ← oneHot l index
  let tag := if arity = 0 then .atom oneHot else .app "bvadd" (.atom oneHot :: tags)
  let value ← valueBits bitWidth relation (.call smtName values)
  let sort := Term.bitVec total
  return .defineFun k.wrapperName names sort sort (.concat tag value)

def wrappers : Run (List Term) := do
  let ts ← l.kinds.zipIdx.mapM fun p =>
    match p.1.form with
    | .operator smtName arity relation =>
      some <$> wrapper l bitWidth p.2 p.1 smtName arity relation
    | .constant _ => pure none
  return ts.filterMap id

/-- The conditions under which tags are written: there are bits in a slot, the width of the tag and
that of the values make up a number of 32 bits, and each budget fits into its slot. -/
structure Slotted : Prop where
  tagBits_pos : 1 ≤ l.tagBits
  total_lt : l.tagWidth + bitWidth < Bits.modulus 32
  budgets : ∀ i < l.kinds.length, l.budgets.getD i 0 < Bits.modulus l.tagBits

/-- The conditions under which tags and wrappers are written. -/
structure Fitting : Prop extends Slotted l bitWidth where
  bitWidth_pos : 0 < bitWidth

variable {l bitWidth}

theorem Slotted.place_lt (h : Slotted l bitWidth) {i : Nat} (hi : i < l.kinds.length) :
    i * l.tagBits < Bits.modulus 32 := by
  have hslot : i * l.tagBits ≤ l.kinds.length * l.tagBits :=
    Nat.mul_le_mul_right _ (Nat.le_of_lt hi)
  have hwidth : l.kinds.length * l.tagBits ≤ l.tagWidth := Nat.le_max_right _ _
  have htotal := h.total_lt
  omega

theorem Slotted.oneHot_eq (h : Slotted l bitWidth) {i : Nat} (hi : i < l.kinds.length) :
    oneHot l i = pure (l.oneHot i) := by
  rw [oneHot, word_eq (h.place_lt hi), pure_bind]
  exact binary_eq (TaggedLibrary.tagWidth_pos h.tagBits_pos)
    (TaggedLibrary.modulus_slot_lt h.tagBits_pos hi)

theorem Slotted.target_eq (h : Slotted l bitWidth) : target l = pure l.target := by
  have hslots : (l.budgets.zipIdx.mapM fun p => do
      let place ← word (p.2 * l.tagBits)
      return p.1 * Bits.modulus place)
        = pure (l.budgets.mapIdx fun i n => n * Bits.modulus (i * l.tagBits)) := by
    rw [List.mapIdx_eq_zipIdx_map]
    refine mapM_eq fun (n, i) hmem => ?_
    have hi : i < l.kinds.length := l.toLibrary.length_budgets ▸ (List.mem_zipIdx' hmem).1
    rw [word_eq (h.place_lt hi), pure_bind]
  rw [target, hslots, pure_bind]
  exact binary_eq (TaggedLibrary.tagWidth_pos h.tagBits_pos) (l.targetValue_lt h.budgets)

theorem operandParts_eq {width : Nat} (h : 1 ≤ width) (names : List String) (low : Nat) :
    operandParts names width low
      = pure (names.map fun x => .extract (width - 1 : Nat) low (.atom x)) :=
  mapM_eq fun x _ => by rw [difference_eq h, pure_bind]

theorem Fitting.wrapper_eq (h : Fitting l bitWidth) {index : Nat} (hi : index < l.kinds.length)
    (k : Kind) (smtName : String) (arity : Nat) (relation : Bool) :
    wrapper l bitWidth index k smtName arity relation
      = pure (l.wrapper bitWidth index k smtName arity relation) := by
  have htotal : 1 ≤ l.tagWidth + bitWidth := Nat.le_trans h.bitWidth_pos (Nat.le_add_left _ _)
  have hone : binary 1 bitWidth = pure (Bits.binary 1 bitWidth) := by
    refine @binary_eq 1 bitWidth h.bitWidth_pos ?_
    exact Nat.one_lt_two_pow (Nat.ne_of_gt h.bitWidth_pos)
  simp only [wrapper, word_eq h.total_lt, operandParts_eq htotal, operandParts_eq h.bitWidth_pos,
    h.oneHot_eq hi, valueBits, hone, pure_bind]
  cases relation <;> rfl

theorem Fitting.wrappers_eq (h : Fitting l bitWidth) :
    wrappers l bitWidth = pure (l.wrappers bitWidth) := by
  rw [wrappers, mapM_eq (f := fun p => match p.1.form with
    | .operator smtName arity relation => some (l.wrapper bitWidth p.2 p.1 smtName arity relation)
    | .constant _ => none)]
  · rw [pure_bind, List.filterMap_map]
    rfl
  · rintro ⟨k, i⟩ hmem
    have hi : i < l.kinds.length := (List.mem_zipIdx' hmem).1
    cases k.form with
    | operator smtName arity relation =>
      exact (congrArg (some <$> ·) (h.wrapper_eq hi k smtName arity relation)).trans (map_pure ..)
    | constant literal => rfl

end Tags

/-! ## Grammars and problems -/

section Problem

def freeConstant (tagWidth width bitWidth : Nat) : Run Term :=
  let constant := Term.atom Grammar.constantName
  if width < bitWidth then do
    let total ← word (tagWidth + bitWidth)
    let unused ← difference total width
    return .concat (.atom (Bits.zeros unused)) constant
  else if width = bitWidth then
    return .concat (.atom (Bits.zeros tagWidth)) constant
  else do
    let high ← difference bitWidth 1
    return .concat (.atom (Bits.zeros tagWidth)) (.extract high 0 constant)

variable (l : TaggedLibrary) (bitWidth : Nat)

def leaves : Run (List Term) := do
  let untagged (leaf : Term) := Term.concat (.atom (Bits.zeros l.tagWidth)) leaf
  let free ← l.freeWidth.toList.mapM fun width => freeConstant l.tagWidth width bitWidth
  return [untagged (.atom Grammar.variableName)] ++ free
    ++ l.kinds.filterMap fun k =>
      match k.form with
      | .constant literal => some (untagged (.atom literal))
      | .operator .. => none

def nonterminals : Run (List Nonterminal) := do
  let total ← word (l.tagWidth + bitWidth)
  let leaves ← leaves l bitWidth
  let starts := (Usage.reachable l.budgets).map fun u =>
    ⟨u.name, .bitVec total, leaves ++ Grammar.applications l u⟩
  step (starts.forM fun n => .emit .trace .grammar ("Nonterminal " ++ n.text))
  return starts ++ (l.freeWidth.map (Grammar.anyOf Grammar.constantName "Constant")).toList
    ++ [Grammar.anyOf Grammar.variableName "Variable" bitWidth]

/-- The problem for a program, with the parts in the order in which they are made. -/
def problem (p : Program) (s : Settings) : Run Problem := do
  step (.ofExcept s.validate)
  let bitWidth := p.spec.bitWidth
  let e : Encoder := ⟨bitWidth, s.policy⟩
  let l ← partition e p.library s
  step (.emit .debug .encoding
    ("Library partitioned into " ++ toString l.kinds.length ++ " kinds over a "
      ++ toString l.tagWidth ++ "-bit tag"))
  let sort := Term.bitVec bitWidth
  let inputs := p.spec.inputs.map Ident.name
  let inputTerms := inputs.map Term.atom
  let wrappers ← wrappers l bitWidth
  let body ← encodeFor e .value p.spec.body
  let total ← word (l.tagWidth + bitWidth)
  let nonterminals ← nonterminals l bitWidth
  let target ← target l
  let wanted := Term.concat (.atom target) (.call "spec" inputTerms)
  return {
    logic := "BV"
    definitions := l.helpers ++ wrappers
    spec := .defineFun "spec" inputs sort sort body
    declarations := inputs.map fun x => .app "declare-var" [.atom x, sort]
    params := .params inputs sort
    sort := .bitVec total
    nonterminals := nonterminals
    constraint := .app "constraint" [.app "=" [wanted, .call "res" inputTerms]] }

variable {l bitWidth}

theorem freeConstant_eq {tagWidth : Nat} (hw : 1 ≤ bitWidth)
    (htotal : tagWidth + bitWidth < Bits.modulus 32) (width : Nat) :
    freeConstant tagWidth width bitWidth = pure (Grammar.freeConstant tagWidth width bitWidth) := by
  unfold freeConstant Grammar.freeConstant
  split_ifs with hlt heq
  · rw [word_eq htotal, pure_bind, difference_eq (by omega), pure_bind]
  · rfl
  · rw [difference_eq hw, pure_bind]

theorem Fitting.leaves_eq (h : Fitting l bitWidth) :
    leaves l bitWidth = pure (Grammar.leaves l bitWidth) := by
  have hfree : (l.freeWidth.toList.mapM fun width => freeConstant l.tagWidth width bitWidth)
      = pure (l.freeWidth.map fun width =>
          Grammar.freeConstant l.tagWidth width bitWidth).toList := by
    rw [Option.toList_map]
    exact mapM_eq fun width _ => freeConstant_eq h.bitWidth_pos h.total_lt width
  rw [leaves, hfree, pure_bind]
  rfl

theorem Fitting.computes_nonterminals (h : Fitting l bitWidth) :
    Computes (nonterminals l bitWidth) (Grammar.nonterminals l bitWidth) := by
  rw [nonterminals, word_eq h.total_lt, pure_bind, h.leaves_eq, pure_bind]
  exact (Computes.step _).bind fun _ _ => .pure _

theorem Slotted.of_ofEntries {e : Encoder} {entries : List LibraryEntry} {s : Settings}
    (hs : s.Valid) (hl : (TaggedLibrary.ofEntries entries e s).result = .ok l)
    (htotal : l.tagWidth + bitWidth < Bits.modulus 32) : Slotted l bitWidth := by
  obtain ⟨-, hcounts, htag⟩ := TaggedLibrary.ofEntries_eq_ok_iff.1 hl
  refine ⟨htag ▸ hs.1, htotal, fun i _ => ?_⟩
  rw [htag]
  exact Library.budget_lt_modulus hcounts i

theorem computes_problem {p : Program} {s : Settings} (hp : 0 < p.spec.bitWidth)
    (h : ∀ l, s.Valid →
      (TaggedLibrary.ofEntries p.library ⟨p.spec.bitWidth, s.policy⟩ s).result = .ok l →
      l.tagWidth + p.spec.bitWidth < Bits.modulus 32) :
    Computes (problem p s) (Problem.ofProgram p s) := by
  refine (Computes.step _).bind fun _ hvalid => ?_
  have hs : s.Valid := by
    by_contra hs
    rw [Logged.result_ofExcept, Settings.validate, if_neg hs] at hvalid
    cases hvalid
  refine (computes_partition hp hs p.library).bind fun l hl => ?_
  have hfitting : Fitting l p.spec.bitWidth := ⟨.of_ofEntries hs hl (h l hs hl), hp⟩
  refine (Computes.step _).bind fun _ _ => ?_
  simp only [hfitting.wrappers_eq, word_eq hfitting.total_lt, hfitting.target_eq, pure_bind]
  refine (computes_encodeFor .value p.spec.body).bind fun body _ => ?_
  exact hfitting.computes_nonterminals.bind fun _ _ => .pure _

end Problem

/-! ## Compilations -/

def compile (text : String) (s : Settings) : Run Problem := do
  let p ← read text
  problem p s

/-- The text is that of the program, and its library becomes this one. -/
def Partitions (text : String) (s : Settings) (p : Program) (l : TaggedLibrary) : Prop :=
  (Program.read text).result = .ok p ∧ s.Valid
    ∧ (TaggedLibrary.ofEntries p.library ⟨p.spec.bitWidth, s.policy⟩ s).result = .ok l

theorem length_binary {n width : Nat} (hw : 0 < width) (h : n < Bits.modulus width) :
    (Bits.binary n width).length = width + 2 := by
  obtain ⟨ds, hds, hlength, -⟩ := Word.denotes_binary hw h
  rw [hds, String.length_append, @String.length_ofList ds, Nat.add_comm]
  exact congrArg (· + 2) hlength

/-- Provided that the width of the tag and that of the values make up a number of 32 bits, a
compilation on machine numbers never breaks off, and does what one on natural numbers does, be it to
a problem or to an error. The tags that it writes have as many digits as the tag is wide. -/
theorem computes_compilation (text : String) (s : Settings)
    (h : ∀ p l, Partitions text s p l → l.tagWidth + p.spec.bitWidth < Bits.modulus 32) :
    Computes (compile text s) (Program.read text >>= fun p => Problem.ofProgram p s)
      ∧ ∀ p l, Partitions text s p l →
          (∀ i < l.kinds.length, Bits.modulus (i * l.tagBits) < Bits.modulus l.tagWidth
            ∧ (l.oneHot i).length = l.tagWidth + 2)
          ∧ l.targetValue < Bits.modulus l.tagWidth ∧ l.target.length = l.tagWidth + 2 := by
  constructor
  · refine (computes_read text).bind fun p hp => ?_
    have hpos := (Program.wellFormed_of_read hp).spec.bitWidth_pos
    exact computes_problem hpos fun l hs hl => h p l ⟨hp, hs, hl⟩
  · intro p l hpl
    have hslotted := Slotted.of_ofEntries hpl.2.1 hpl.2.2 (h p l hpl)
    have hwidth := TaggedLibrary.tagWidth_pos hslotted.tagBits_pos
    have htarget := l.targetValue_lt hslotted.budgets
    refine ⟨fun i hi => ?_, htarget, length_binary hwidth htarget⟩
    have honeHot := TaggedLibrary.modulus_slot_lt hslotted.tagBits_pos hi
    exact ⟨honeHot, length_binary hwidth honeHot⟩

/-- A comparison, a function without parameters that is listed twice, a constant that is cut off and
a free one that is narrower than the values. -/
theorem computes_compilation_narrow :
    let text := "(lib ult (fun one 1) (const 6 25) (fun one 2) (const 2)) (spec 1 4 x (sub x 3:2))"
    let s : Settings := ⟨2, .truncate⟩
    ∃ p l, Partitions text s p l ∧ l.tagWidth = 6 ∧ p.spec.bitWidth = 4
      ∧ Computes (compile text s) (Program.read text >>= fun p => Problem.ofProgram p s)
      ∧ (l.oneHot 2).length = 8 ∧ l.target.length = 8 := by
  intro text s
  let p : Program := ⟨⟨4, [⟨"x"⟩], .app ⟨"sub"⟩ [.ident ⟨"x"⟩, .literal ⟨3, some 2⟩]⟩,
    [.operator ⟨"ult"⟩, .function ⟨"one"⟩ [] (.literal ⟨1, none⟩),
      .constant 6 (some ⟨25, none⟩), .function ⟨"one"⟩ [] (.literal ⟨2, none⟩), .constant 2 none]⟩
  let l : TaggedLibrary := {
    kinds := [⟨"ult", 1, .operator "bvult" 2 true⟩, ⟨"cust_one", 2, .operator "cust_one" 0 false⟩,
      ⟨"#b1001", 1, .constant "#b1001"⟩]
    freeWidth := some 2
    helpers := [.defineFun "cust_one" [] (.bitVec 4) (.bitVec 4) (.atom "#b0001")]
    tagBits := 2 }
  have hp : (Program.read text).result = .ok p := by decide +kernel
  have hl : (TaggedLibrary.ofEntries p.library ⟨4, s.policy⟩ s).result = .ok l := by decide +kernel
  have hpl : Partitions text s p l := ⟨hp, by decide, hl⟩
  have hwidths : ∀ p' l', Partitions text s p' l' →
      l'.tagWidth + p'.spec.bitWidth < Bits.modulus 32 := by
    rintro p' l' ⟨hp', -, hl'⟩
    obtain rfl : p = p' := Except.ok.inj (hp.symm.trans hp')
    obtain rfl : l = l' := Except.ok.inj (hl.symm.trans hl')
    decide
  obtain ⟨hcomputes, htags⟩ := computes_compilation text s hwidths
  obtain ⟨honeHot, -, htarget⟩ := htags p l hpl
  exact ⟨p, l, hpl, rfl, rfl, hcomputes, (honeHot 2 (by decide)).2, htarget⟩

end BitSynth.Machine
