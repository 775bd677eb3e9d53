import BitSynth.Proofs.Grammar.WellFormed
import BitSynth.Proofs.Program.RoundTrip
import BitSynth.Proofs.Term.Plain

/-!
# The words of a problem

All atoms of a problem come from names, numerals and bit strings, perhaps with a mark in front. None
of these is empty or contains white space or a parenthesis, so every term of a problem is plain.
-/

namespace BitSynth

open Text

/-! ## Expressions -/

theorem Bits.isWord_binary (value : Int) (width : Nat) : IsWord (binary value width) := by
  have hmark : IsWord "#b" := by decide
  have hbits {n : Nat} {c : Char} (hc : c ∈ toDigits 2 n) : ¬ Delimits c :=
    not_delimits_of_isDigit (Nat.isDigit_of_mem_toDigits (by decide) (by decide) hc)
  refine hmark.append_right fun c hc => ?_
  rw [String.toList_ofList, List.leftpad, List.mem_append] at hc
  rcases hc with hc | hc
  · obtain rfl := List.eq_of_mem_replicate hc
    decide
  · unfold digits at hc
    split_ifs at hc
    · rcases List.mem_cons.1 hc with rfl | hc
      · decide
      · exact hbits hc
    · exact hbits hc

theorem Bits.isWord_zeros (width : Nat) : IsWord (zeros width) := by
  have hmark : IsWord "#b" := by decide
  refine hmark.append_right fun c hc => ?_
  rw [String.toList_ofList] at hc
  obtain rfl := List.eq_of_mem_replicate hc
  decide

theorem Operator.isWord_helperName {function : String} (h : IsWord function) :
    IsWord (helperName function) := .append (s := helperMark) (by decide) h

theorem Operator.isWord_smtName {name : String} (h : IsWord name) (use : Use) :
    IsWord (smtName name use) := by
  unfold smtName
  split_ifs
  · decide
  · decide
  · exact h
  · exact h
  · exact h
  · exact .append (s := "bv") (by decide) h

namespace Encoder

variable {e : Encoder}

theorem isWord_encodeLiteral {l : Literal} {s : String} (h : (e.encodeLiteral l).result = .ok s) :
    IsWord s := by
  rw [encodeLiteral, encodeBits, Logged.result_bind_eq_ok_iff] at h
  obtain ⟨_, -, h⟩ := h
  obtain rfl := Except.ok.inj h
  exact Bits.isWord_binary _ _

mutual

theorem encodeFor_plain : ∀ {use : Operator.Use} {x : Expr} {t : Term}, x.Valid →
    (e.encodeFor use x).result = .ok t → t.Plain
  | use, .ident x, t, hx, h => by
    rw [encodeFor] at h
    obtain rfl := Except.ok.inj h
    exact Ident.Valid.isWord hx
  | use, .literal l, t, hx, h => by
    rw [encodeFor, Logged.result_bind_eq_ok_iff] at h
    obtain ⟨s, hs, h⟩ := h
    obtain rfl := Except.ok.inj h
    exact isWord_encodeLiteral hs
  | use, .app op args, t, hx, h => by
    unfold encodeFor at h
    split at h
    · split at h
      · obtain ⟨u, hu, h⟩ := Logged.result_bind_eq_ok_iff.1 h
        obtain rfl := Except.ok.inj h
        exact (encodeFor_plain hx.2.2.2.1 hu).extract _ _
      · cases h
    · obtain ⟨ts, hts, h⟩ := Logged.result_bind_eq_ok_iff.1 h
      obtain rfl := Except.ok.inj h
      exact ⟨Operator.isWord_smtName hx.1.isWord use, encodeArgs_plain hx.2 hts⟩

theorem encodeArgs_plain : ∀ {first : Operator.Use} {xs : List Expr} {ts : List Term},
    Expr.AllValid xs → (e.encodeArgs first xs).result = .ok ts → Term.AllPlain ts
  | first, [], ts, _, h => by
    rw [encodeArgs] at h
    obtain rfl := Except.ok.inj h
    trivial
  | first, x :: xs, ts, hx, h => by
    rw [encodeArgs, Logged.result_bind_eq_ok_iff] at h
    obtain ⟨u, hu, h⟩ := h
    obtain ⟨us, hus, h⟩ := Logged.result_bind_eq_ok_iff.1 h
    obtain rfl := Except.ok.inj h
    exact ⟨encodeFor_plain hx.1 hu, encodeArgs_plain hx.2 hus⟩

end

end Encoder

namespace Sygus

/-! ## Libraries -/

/-- The key of the kind and the symbol or bit string that it stands for are words. -/
def Kind.Plain (k : Kind) : Prop := IsWord k.key ∧ match k.form with
  | .operator smtName _ _ => IsWord smtName
  | .constant literal => IsWord literal

theorem Kind.Plain.isWord_wrapperName {k : Kind} (h : k.Plain) : IsWord k.wrapperName :=
  .append (s := "op_") (by decide) h.1

theorem isWord_names {xs : List Ident} (h : ∀ x ∈ xs, x.Valid) :
    ∀ x ∈ xs.map Ident.name, IsWord x := List.forall_mem_map.2 fun x hx => (h x hx).isWord

namespace Library

structure Plain (l : Library) : Prop where
  kinds : ∀ k ∈ l.kinds, k.Plain
  helpers : ∀ t ∈ l.helpers, t.Plain

variable {e : Encoder} {l l' : Library}

theorem Plain.tally {key : String} {form : KindForm} (h : l.Plain) (hkind : Kind.Plain ⟨key, 1, form⟩)
    (hl : l'.kinds = Kind.tally key form l.kinds) (hhelpers : ∀ t ∈ l'.helpers, t.Plain) :
    l'.Plain := by
  refine ⟨fun k hk => ?_, hhelpers⟩
  rcases Kind.mem_tally (hl ▸ hk) with rfl | ⟨j, hj, hkey, hform⟩
  · exact hkind
  · have hplain := h.kinds j hj
    rwa [Kind.Plain, ← hkey, ← hform] at hplain

theorem Plain.add {entry : LibraryEntry} (hentry : entry.WellFormed) (hl : l.Plain)
    (h : (add e l entry).result = .ok l') : l'.Plain := by
  rcases add_cases h with ⟨name, rfl, rfl⟩ | ⟨width, rfl, -, rfl⟩ |
    ⟨width, literal, key, rfl, hkey, rfl⟩ | ⟨name, params, body, helpers, rfl, hhelpers, rfl⟩
  · have hname : IsWord name.name := Ident.Valid.isWord hentry
    exact hl.tally ⟨hname, Operator.isWord_smtName hname .value⟩ rfl hl.helpers
  · exact ⟨hl.kinds, hl.helpers⟩
  · obtain ⟨v, -, rfl⟩ := result_encodeConstant_eq_ok hkey
    have hbits := Bits.isWord_binary v e.bitWidth
    exact hl.tally ⟨hbits, hbits⟩ rfl hl.helpers
  · obtain ⟨hname, hparams, hbody⟩ := hentry
    have hhelper := Operator.isWord_helperName hname.isWord
    refine hl.tally ⟨hhelper, hhelper⟩ rfl fun t ht => ?_
    rcases hhelpers with ⟨-, rfl⟩ | ⟨-, b, hb, rfl⟩
    · exact hl.helpers t ht
    · rcases List.mem_append.1 ht with ht | ht
      · exact hl.helpers t ht
      · rw [List.mem_singleton.1 ht]
        exact Term.plain_defineFun hhelper (isWord_names hparams) (Term.plain_bitVec _)
          (Term.plain_bitVec _) (Encoder.encodeFor_plain hbody hb)

end Library

namespace TaggedLibrary

variable {e : Encoder} {s : Settings} {entries : List LibraryEntry} {l : TaggedLibrary}

theorem plain_of_ofEntries (h : (ofEntries entries e s).result = .ok l)
    (hentries : ∀ entry ∈ entries, entry.WellFormed) : l.toLibrary.Plain := by
  obtain ⟨hfold, -, -⟩ := ofEntries_eq_ok_iff.1 h
  rw [Logged.result_foldlM] at hfold
  exact foldlM_induction hfold ⟨by simp, by simp⟩
    fun entry hentry _ _ hl h => hl.add (hentries entry hentry) h

theorem plain_wrappers (hl : l.toLibrary.Plain) (bitWidth : Nat) :
    ∀ t ∈ l.wrappers bitWidth, t.Plain := by
  intro t ht
  obtain ⟨i, k, smtName, arity, relation, hk, hform, rfl⟩ := mem_wrappers_iff.1 ht
  have hkind := hl.kinds k (List.mem_of_getElem? hk)
  have hsmtName : IsWord smtName := by
    have h := hkind.2
    rwa [hform] at h
  have hnames : ∀ x ∈ operandNames arity, IsWord x := by
    refine List.forall_mem_map.2 fun j _ => ?_
    exact .append (s := "i") (by decide) (isWord_nat j)
  have hparts (high low : Nat) :
      ∀ t ∈ (operandNames arity).map fun x => Term.extract high low (.atom x), t.Plain :=
    List.forall_mem_map.2 fun x hx => Term.Plain.extract _ _ (hnames x hx)
  have hadd : IsWord "bvadd" := by decide
  have hite : IsWord Operator.ite := by decide
  refine Term.plain_defineFun hkind.isWord_wrapperName hnames (Term.plain_bitVec _)
    (Term.plain_bitVec _) (.concat ?_ ?_)
  · split_ifs
    · exact Bits.isWord_binary _ _
    · refine Term.plain_app_iff.2 ⟨hadd, List.forall_mem_cons.2 ⟨?_, hparts _ _⟩⟩
      exact Bits.isWord_binary _ _
  · have hvalue := Term.Plain.call hsmtName (hparts (bitWidth - 1) 0)
    split_ifs
    · exact ⟨hite, hvalue, Bits.isWord_binary 1 bitWidth, Bits.isWord_zeros bitWidth, trivial⟩
    · exact hvalue

end TaggedLibrary

/-! ## Grammars -/

namespace Grammar

variable {l : TaggedLibrary} {bitWidth : Nat}

theorem isWord_usageName (u : Usage) : IsWord u.name := by
  have hmark : IsWord "Start" := by decide
  refine hmark.append_right fun c hc => ?_
  rw [String.toList_join, List.flatMap_map, List.mem_flatMap] at hc
  obtain ⟨n, -, hc⟩ := hc
  exact (IsWord.append (s := "_") (by decide) (isWord_nat n)).2 c hc

theorem isWord_variableName : IsWord variableName := by decide

theorem isWord_constantName : IsWord constantName := by decide

theorem plain_leaf (hl : l.toLibrary.Plain) : ∀ t ∈ leaves l bitWidth, t.Plain := by
  have hzeros (width : Nat) : (Term.atom (Bits.zeros width)).Plain := Bits.isWord_zeros width
  have hconstant : (Term.atom constantName).Plain := isWord_constantName
  intro t ht
  simp only [leaves, List.mem_append, List.mem_singleton, Option.mem_toList, Option.map_eq_some_iff,
    List.mem_filterMap] at ht
  rcases ht with (rfl | ⟨w, -, rfl⟩) | ⟨k, hk, ht⟩
  · exact (hzeros _).concat isWord_variableName
  · unfold freeConstant
    simp only
    split_ifs
    · exact (hzeros _).concat hconstant
    · exact (hzeros _).concat hconstant
    · exact (hzeros _).concat (hconstant.extract _ _)
  · have hform := (hl.kinds k hk).2
    split at ht
    · rename_i literal hliteral
      obtain rfl := Option.some.inj ht
      rw [hliteral] at hform
      exact (hzeros _).concat hform
    · cases ht

theorem plain_application (hl : l.toLibrary.Plain) {u : Usage} :
    ∀ t ∈ applications l u, t.Plain := by
  intro t ht
  obtain ⟨i, k, smtName, arity, relation, hk, -, -, rfl⟩ := mem_applications_iff.1 ht
  refine .call (hl.kinds k (List.mem_of_getElem? hk)).isWord_wrapperName fun t ht => ?_
  rw [List.eq_of_mem_replicate ht]
  exact isWord_usageName _

theorem plain_anyOf {name termClass : String} (hname : IsWord name) (hclass : IsWord termClass)
    (width : Nat) : (anyOf name termClass width).term.Plain :=
  ⟨hname, Term.plain_bitVec width, ⟨⟨hclass, Term.plain_bitVec width, trivial⟩, trivial⟩, trivial⟩

theorem plain_all (hl : l.toLibrary.Plain) : ∀ n ∈ all l bitWidth, n.term.Plain := by
  intro n hn
  rcases mem_all_iff.1 hn with ⟨u, -, rfl⟩ | ⟨w, -, rfl⟩ | rfl
  · have hproductions : ∀ t ∈ leaves l bitWidth ++ applications l u, t.Plain :=
      List.forall_mem_append.2 ⟨plain_leaf hl, plain_application hl⟩
    exact ⟨isWord_usageName u, Term.plain_bitVec _, Term.allPlain_iff.2 hproductions, trivial⟩
  · exact plain_anyOf isWord_constantName (by decide) w
  · exact plain_anyOf isWord_variableName (by decide) bitWidth

end Grammar

end Sygus

end BitSynth
