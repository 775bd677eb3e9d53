import BitSynth.Proofs.Grammar.Problem
import BitSynth.Proofs.Machine.Compilation

/-!
# Results on machine numbers

A run on machine numbers can break off, but a result that it has is that of the run on natural
numbers. For a compilation this needs no assumption on the widths, because their sum is checked on
the way: a text is compiled to a problem exactly if it is on natural numbers and the sum is a number
of 32 bits (`yields_compile_iff`). So what holds of the problems that come about on natural numbers
holds of those that come about on machine numbers.
-/

namespace BitSynth.Machine

open Sygus

/-! ## Runs that have a result -/

section Runs

variable {α β : Type} {x : Run α} {a b : α}

def Yields (x : Run α) (a : α) : Prop := x.run.result = .ok (some a)

theorem yields_bind_iff {f : α → Run β} {b : β} :
    Yields (x >>= f) b ↔ ∃ a, Yields x a ∧ Yields (f a) b := by
  rw [Yields, OptionT.run_bind, Option.elimM, Logged.result_bind_eq_ok_iff]
  constructor
  · rintro ⟨_ | a, hx, hf⟩
    · cases hf
    · exact ⟨a, hx, hf⟩
  · rintro ⟨a, hx, hf⟩
    exact ⟨some a, hx, hf⟩

theorem Computes.yields_iff {y : Logged α} (h : Computes x y) :
    Yields x a ↔ y.result = .ok a := by
  rw [Yields, h, ← bind_pure_comp, Logged.result_bind_eq_ok_iff]
  simp

theorem yields_pure_iff : Yields (pure a) b ↔ a = b := by
  rw [(Computes.pure a).yields_iff, Logged.result_pure, Except.ok.injEq]

theorem yields_step_iff {y : Logged α} : Yields (step y) a ↔ y.result = .ok a :=
  (Computes.step y).yields_iff

theorem not_yields_failure : ¬ Yields (failure : Run α) a := nofun

/-- The run has this result if the condition holds, and no result otherwise. -/
def Gives (x : Run α) (P : Prop) (a : α) : Prop := ∀ b, Yields x b ↔ P ∧ b = a

namespace Gives

variable {P Q : Prop}

theorem pure (a : α) : Gives (Pure.pure a) True a := fun b => by
  rw [yields_pure_iff, true_and, eq_comm]

theorem ite_failure [Decidable P] (a : α) : Gives (if P then Pure.pure a else failure) P a := by
  intro b
  split_ifs with h
  · rw [pure a b, true_and, and_iff_right h]
  · exact iff_of_false not_yields_failure fun hb => h hb.1

theorem word (n : Nat) : Gives (Machine.word n) (n < Bits.modulus 32) n := ite_failure n

theorem difference (m n : Nat) : Gives (Machine.difference m n) (n ≤ m) (m - n) := ite_failure _

theorem binary (value : Int) (width : Nat) : Gives (Machine.binary value width)
    ((Bits.digits value).length ≤ width) (Bits.binary value width) := ite_failure _

theorem step {y : Logged α} (h : y.result = .ok a) : Gives (Machine.step y) True a := fun b => by
  rw [yields_step_iff, h, true_and, Except.ok.injEq, eq_comm]

theorem imp (h : Gives x P a) (hPQ : P ↔ Q) : Gives x Q a := fun b => by rw [h b, hPQ]

theorem bind {f : α → Run β} {b : β} (h : Gives x P a) (hf : Gives (f a) Q b) :
    Gives (x >>= f) (P ∧ Q) b := fun c => by
  simp only [yields_bind_iff, h _]
  constructor
  · rintro ⟨_, ⟨hP, rfl⟩, hc⟩
    obtain ⟨hQ, rfl⟩ := (hf c).1 hc
    exact ⟨⟨hP, hQ⟩, rfl⟩
  · rintro ⟨⟨hP, hQ⟩, rfl⟩
    exact ⟨a, ⟨hP, rfl⟩, (hf c).2 ⟨hQ, rfl⟩⟩

theorem bind_pure (f : α → β) (h : Gives x P a) : Gives (x >>= fun a => Pure.pure (f a)) P (f a) :=
  (h.bind (pure (f a))).imp (iff_of_eq (and_true P))

theorem map (f : α → β) (h : Gives x P a) : Gives (f <$> x) P (f a) := by
  rw [map_eq_pure_bind]
  exact h.bind_pure f

theorem mapM {g : α → Run β} {P : α → Prop} {f : α → β} : ∀ {as : List α},
    (∀ a ∈ as, Gives (g a) (P a) (f a)) → Gives (as.mapM g) (∀ a ∈ as, P a) (as.map f)
  | [], _ => by
    rw [List.mapM_nil]
    exact (pure _).imp (by simp)
  | a :: as, h => by
    obtain ⟨ha, has⟩ := List.forall_mem_cons.1 h
    rw [List.mapM_cons]
    refine (ha.bind ((mapM has).bind_pure (f a :: ·))).imp ?_
    rw [List.forall_mem_cons]

end Gives

end Runs

/-! ## Libraries -/

section Library

variable {e : Encoder} {l : Library} {entry : LibraryEntry} {entries : List LibraryEntry}
  {s : Settings} {value : Int} {width : Nat}

theorem of_yields_encodeConstant {key : String}
    (h : Yields (encodeConstant e value width) key) :
    (e.encodeConstant value width).result = .ok key := by
  rw [encodeConstant, yields_bind_iff] at h
  obtain ⟨u, hfit, hkey⟩ := h
  obtain ⟨-, rfl⟩ := (Gives.binary _ _ _).1 hkey
  exact Logged.result_bind_eq_ok_iff.2 ⟨u, computes_checkFit.yields_iff.1 hfit, rfl⟩

theorem of_yields_addEntry {l' : Library} (h : Yields (addEntry e l entry) l') :
    (l.add e entry).result = .ok l' := by
  unfold addEntry at h
  split at h
  · obtain ⟨key, hkey, hl⟩ := yields_bind_iff.1 h
    obtain rfl := yields_pure_iff.1 hl
    exact Logged.result_bind_eq_ok_iff.2 ⟨key, of_yields_encodeConstant hkey, rfl⟩
  · rename_i name params body
    simp only [pure_bind] at h
    simp only [Library.add]
    split_ifs at h ⊢
    · obtain rfl := yields_pure_iff.1 h
      rfl
    · obtain ⟨t, ht, hl⟩ := yields_bind_iff.1 h
      obtain rfl := yields_pure_iff.1 hl
      have hbody := (computes_encodeFor .value body).yields_iff.1 ht
      exact Logged.result_bind_eq_ok_iff.2 ⟨t, hbody, rfl⟩
  · exact yields_step_iff.1 h

theorem of_yields_foldlM : ∀ {entries : List LibraryEntry} {l l' : Library},
    Yields (entries.foldlM (addEntry e) l) l' → (entries.foldlM (Library.add e) l).result = .ok l'
  | [], _, _, h => yields_pure_iff.1 h ▸ rfl
  | entry :: entries, l, l', h => by
    rw [List.foldlM_cons, yields_bind_iff] at h
    obtain ⟨l'', hentry, h⟩ := h
    rw [List.foldlM_cons, Logged.result_bind_eq_ok_iff]
    exact ⟨l'', of_yields_addEntry hentry, of_yields_foldlM h⟩

theorem yields_partition_iff {l : TaggedLibrary} (hs : s.tagBits ≤ maxTagBits) :
    Yields (partition e entries s) l ↔ Yields (entries.foldlM (addEntry e) {}) l.toLibrary
      ∧ l.toLibrary.checkCounts s.tagBits = .ok () ∧ l.tagBits = s.tagBits := by
  simp only [partition, yields_bind_iff, (computes_checkCounts hs).yields_iff, yields_step_iff,
    yields_pure_iff, Logged.result_ofExcept]
  constructor
  · rintro ⟨l', hl', _, hcheck, _, -, rfl⟩
    exact ⟨hl', hcheck, rfl⟩
  · rintro ⟨hl, hcheck, htag⟩
    exact ⟨l.toLibrary, hl, (), hcheck, (), TaggedLibrary.result_recordKinds _, by rw [← htag]⟩

/-- A library that comes about on machine numbers is that of its entries. -/
theorem of_yields_partition {l : TaggedLibrary} (hs : s.tagBits ≤ maxTagBits)
    (h : Yields (partition e entries s) l) :
    (TaggedLibrary.ofEntries entries e s).result = .ok l := by
  obtain ⟨hfold, hcheck, htag⟩ := (yields_partition_iff hs).1 h
  exact TaggedLibrary.ofEntries_eq_ok_iff.2 ⟨of_yields_foldlM hfold, hcheck, htag⟩

end Library

/-! ## Wrappers and grammars -/

/-- The width of the values is positive if the wrapper of the kind takes bits of them: it takes
those of its operands apart from their tags, and makes bits of a truth value. -/
def Wrappable (bitWidth : Nat) (k : Kind) : Prop :=
  match k.form with
  | .operator _ arity relation => (arity ≠ 0 → 1 ≤ bitWidth) ∧ (relation = true → 1 ≤ bitWidth)
  | .constant _ => True

section Grammar

variable {l : TaggedLibrary} {bitWidth : Nat}

theorem gives_operandParts (names : List String) (width low : Nat) :
    Gives (operandParts names width low) (names ≠ [] → 1 ≤ width)
      (names.map fun x => .extract (width - 1 : Nat) low (.atom x)) := by
  have hparts : Gives (operandParts names width low) (∀ x ∈ names, 1 ≤ width) _ :=
    .mapM fun x _ => (Gives.difference width 1).bind_pure _
  refine hparts.imp ⟨fun h hnames => ?_, fun h x hx => h (List.ne_nil_of_mem hx)⟩
  obtain ⟨x, hx⟩ := List.exists_mem_of_ne_nil names hnames
  exact h x hx

theorem gives_valueBits (relation : Bool) (value : Term) :
    Gives (valueBits bitWidth relation value) (relation = true → 1 ≤ bitWidth)
      (if relation then
        .app Operator.ite [value, .atom (Bits.binary 1 bitWidth), .atom (Bits.zeros bitWidth)]
      else value) := by
  cases relation with
  | false => exact (Gives.pure value).imp (by simp)
  | true =>
    refine ((Gives.binary 1 bitWidth).bind_pure _).imp ?_
    rw [show (Bits.digits 1).length = 1 from rfl, forall_prop_of_true rfl]

theorem operandNames_eq_nil_iff {arity : Nat} :
    TaggedLibrary.operandNames arity = [] ↔ arity = 0 := by
  simp [TaggedLibrary.operandNames]

theorem Slotted.gives_wrapper (h : Slotted l bitWidth) {index : Nat} (hi : index < l.kinds.length)
    (k : Kind) (smtName : String) (arity : Nat) (relation : Bool) :
    Gives (wrapper l bitWidth index k smtName arity relation)
      ((arity ≠ 0 → 1 ≤ bitWidth) ∧ (relation = true → 1 ≤ bitWidth))
      (l.wrapper bitWidth index k smtName arity relation) := by
  have htag := TaggedLibrary.tagWidth_pos h.tagBits_pos
  have htotal : 1 ≤ l.tagWidth + bitWidth := Nat.le_trans htag (Nat.le_add_right _ _)
  simp only [wrapper, word_eq h.total_lt, operandParts_eq htotal, h.oneHot_eq hi, pure_bind]
  refine ((gives_operandParts _ bitWidth 0).bind
    ((gives_valueBits relation _).bind_pure _)).imp ?_
  rw [Ne, operandNames_eq_nil_iff]

theorem Slotted.gives_wrappers (h : Slotted l bitWidth) :
    Gives (wrappers l bitWidth) (∀ k ∈ l.kinds, Wrappable bitWidth k) (l.wrappers bitWidth) := by
  have hall : Gives (l.kinds.zipIdx.mapM fun p =>
      match p.1.form with
      | .operator smtName arity relation =>
        some <$> wrapper l bitWidth p.2 p.1 smtName arity relation
      | .constant _ => pure none)
      (∀ p ∈ l.kinds.zipIdx, Wrappable bitWidth p.1)
      (l.kinds.zipIdx.map fun p =>
        match p.1.form with
        | .operator smtName arity relation =>
          some (l.wrapper bitWidth p.2 p.1 smtName arity relation)
        | .constant _ => none) := by
    refine .mapM fun (k, i) hmem => ?_
    have hi : i < l.kinds.length := (List.mem_zipIdx' hmem).1
    unfold Wrappable
    cases k.form with
    | operator smtName arity relation =>
      exact (h.gives_wrapper hi k smtName arity relation).map some
    | constant literal => exact .pure none
  have hwrappers := hall.bind_pure (List.filterMap id)
  rw [List.filterMap_map, ← List.forall_mem_map, List.zipIdx_map_fst] at hwrappers
  exact hwrappers

theorem gives_freeConstant {tagWidth : Nat} (htotal : tagWidth + bitWidth < Bits.modulus 32)
    (width : Nat) : Gives (freeConstant tagWidth width bitWidth) (bitWidth < width → 1 ≤ bitWidth)
      (Grammar.freeConstant tagWidth width bitWidth) := by
  unfold freeConstant Grammar.freeConstant
  split_ifs with hlt heq
  · rw [word_eq htotal, pure_bind, difference_eq (by omega), pure_bind]
    exact (Gives.pure _).imp (by simp [Nat.not_lt.2 (Nat.le_of_lt hlt)])
  · exact (Gives.pure _).imp (by simp [heq])
  · refine ((Gives.difference bitWidth 1).bind_pure _).imp ?_
    rw [forall_prop_of_true (by omega)]

theorem Slotted.gives_leaves (h : Slotted l bitWidth) :
    Gives (leaves l bitWidth) (∀ w ∈ l.freeWidth, bitWidth < w → 1 ≤ bitWidth)
      (Grammar.leaves l bitWidth) := by
  have hfree : Gives (l.freeWidth.toList.mapM fun w => freeConstant l.tagWidth w bitWidth)
      (∀ w ∈ l.freeWidth, bitWidth < w → 1 ≤ bitWidth)
      (l.freeWidth.map fun w => Grammar.freeConstant l.tagWidth w bitWidth).toList := by
    rw [Option.toList_map]
    refine (Gives.mapM fun w _ => gives_freeConstant h.total_lt w).imp ?_
    simp only [Option.mem_toList, Option.mem_def]
  exact hfree.bind_pure _

theorem Slotted.gives_nonterminals (h : Slotted l bitWidth) :
    Gives (nonterminals l bitWidth) (∀ w ∈ l.freeWidth, bitWidth < w → 1 ≤ bitWidth)
      (Grammar.all l bitWidth) := by
  rw [nonterminals, word_eq h.total_lt, pure_bind]
  have hrecord : Gives (step (((Usage.reachable l.budgets).map (Grammar.ofUsage l bitWidth)).forM
      fun n => Logged.emit .trace .grammar ("Nonterminal " ++ n.text))) True () :=
    .step (Logged.forM_emit_result fun _ _ => rfl)
  exact (h.gives_leaves.bind (hrecord.bind_pure _)).imp (iff_of_eq (and_true _))

end Grammar

/-! ## Problems -/

section Problem

variable {p : Program} {s : Settings} {q : Problem} {text : String}

/-- The width of the values is positive wherever a problem takes bits of them. -/
structure Compilable (l : Library) (bitWidth : Nat) : Prop where
  wrappable : ∀ k ∈ l.kinds, Wrappable bitWidth k
  free : ∀ w ∈ l.freeWidth, bitWidth < w → 1 ≤ bitWidth

theorem yields_problem_iff : Yields (problem p s) q ↔ (Problem.ofProgram p s).result = .ok q
    ∧ ∃ l, Yields (partition (Problem.encoder p s) p.library s) l
      ∧ l.tagWidth + p.spec.bitWidth < Bits.modulus 32
      ∧ Compilable l.toLibrary p.spec.bitWidth := by
  rw [Problem.ofProgram_eq_ok_iff]
  simp only [problem, yields_bind_iff, yields_step_iff, yields_pure_iff,
    (computes_encodeFor _ _).yields_iff, Gives.word _ _, Logged.result_ofExcept,
    Logged.result_emit, Settings.validate_eq_ok_iff]
  constructor
  · rintro ⟨_, hs, l, hl, _, -, ts, hts, body, hbody, _, ⟨htotal, rfl⟩, ns, hns, t, ht, rfl⟩
    have hentries := of_yields_partition hs.2 hl
    have hslotted := Slotted.of_ofEntries hs hentries htotal
    obtain ⟨hwrappable, rfl⟩ := (hslotted.gives_wrappers _).1 hts
    obtain ⟨hfree, rfl⟩ := (hslotted.gives_nonterminals _).1 hns
    rw [hslotted.target_eq, yields_pure_iff] at ht
    obtain rfl := ht
    exact ⟨⟨hs, l, body, hentries, hbody, rfl⟩, l, hl, htotal, hwrappable, hfree⟩
  · rintro ⟨⟨hs, l', body, hentries, hbody, rfl⟩, l, hl, htotal, hcompilable⟩
    obtain rfl := Except.ok.inj (hentries.symm.trans (of_yields_partition hs.2 hl))
    have hslotted := Slotted.of_ofEntries hs hentries htotal
    have hts := (hslotted.gives_wrappers _).2 ⟨hcompilable.wrappable, rfl⟩
    have hns := (hslotted.gives_nonterminals _).2 ⟨hcompilable.free, rfl⟩
    have ht : Yields (target l') l'.target := by
      rw [hslotted.target_eq, yields_pure_iff]
    exact ⟨(), hs, l', hl, (), trivial, _, hts, body, hbody, _, ⟨htotal, rfl⟩, _, hns, _, ht, rfl⟩

theorem Compilable.of_pos {l : Library} {bitWidth : Nat} (h : 0 < bitWidth) :
    Compilable l bitWidth where
  wrappable k _ := by
    unfold Wrappable
    cases k.form with
    | operator smtName arity relation => exact ⟨fun _ => h, fun _ => h⟩
    | constant literal => trivial
  free _ _ _ := h

/-- A text is compiled to a problem on machine numbers exactly if it is on natural numbers, to the
same problem, and the width of the tag and that of the values make up a number of 32 bits. -/
theorem yields_compile_iff : Yields (compile text s) q ↔ ∃ p l, Partitions text s p l
    ∧ l.tagWidth + p.spec.bitWidth < Bits.modulus 32
    ∧ (Problem.ofProgram p s).result = .ok q := by
  simp only [compile, yields_bind_iff, (computes_read text).yields_iff, yields_problem_iff]
  constructor
  · rintro ⟨p, hp, hq, l, hl, htotal, -⟩
    obtain ⟨hs, -⟩ := Problem.ofProgram_eq_ok_iff.1 hq
    exact ⟨p, l, ⟨hp, hs, of_yields_partition hs.2 hl⟩, htotal, hq⟩
  · rintro ⟨p, l, ⟨hp, hs, hl⟩, htotal, hq⟩
    have hpos := (Program.wellFormed_of_read hp).spec.bitWidth_pos
    exact ⟨p, hp, hq, l, (computes_partition hpos hs p.library).yields_iff.2 hl, htotal,
      .of_pos hpos⟩

end Problem

end BitSynth.Machine
