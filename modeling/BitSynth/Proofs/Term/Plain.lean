import BitSynth.Proofs.Text.Decodable
import BitSynth.Term

/-!
# Plain terms

A term is plain if each of its atoms is a word, which is not empty and contains neither white space
nor a parenthesis. The text of a plain term shows where it ends and determines the term.
-/

namespace BitSynth

open Text

instance (c : Char) : Decidable (Delimits c) :=
  inferInstanceAs (Decidable (_ ∨ _ ∨ _))

-- Without this instance such a statement may be decided at every `Char`, which does not evaluate.
instance decidableForallMem (cs : List Char) (p : Char → Prop) [DecidablePred p] :
    Decidable (∀ c ∈ cs, p c) := List.decidableBAll p cs

/-- The text is not empty and no character in it delimits a word. -/
def IsWord (s : String) : Prop := s ≠ "" ∧ ∀ c ∈ s.toList, ¬ Delimits c

instance (s : String) : Decidable (IsWord s) := inferInstanceAs (Decidable (_ ∧ _))

namespace IsWord

variable {s : String}

theorem exists_cons (h : IsWord s) : ∃ c cs, s.toList = c :: cs ∧ ¬ Delimits c := by
  obtain ⟨hne, hcs⟩ := h
  obtain ⟨c, cs, hs⟩ := List.exists_cons_of_ne_nil (mt String.toList_eq_nil_iff.1 hne)
  exact ⟨c, cs, hs, hcs c (by simp [hs])⟩

/-- What can continue a name delimits nothing. -/
theorem of_isContinue (hne : s ≠ "") (h : ∀ c ∈ s.toList, Ident.isContinue c = true) :
    IsWord s := by
  refine ⟨hne, fun c hc hdelimits => ?_⟩
  have hcontinue := h c hc
  rw [isContinue_of_delimits hdelimits] at hcontinue
  cases hcontinue

theorem append {s' : String} (h : ∀ c ∈ s.toList, ¬ Delimits c) (h' : IsWord s') :
    IsWord (s ++ s') := by
  refine ⟨fun hs => h'.1 (String.append_eq_empty_iff.1 hs).2, fun c hc => ?_⟩
  rw [String.toList_append, List.mem_append] at hc
  exact hc.elim (h c) (h'.2 c)

theorem append_right {s' : String} (h : IsWord s) (h' : ∀ c ∈ s'.toList, ¬ Delimits c) :
    IsWord (s ++ s') := by
  refine ⟨fun hs => h.1 (String.append_eq_empty_iff.1 hs).1, fun c hc => ?_⟩
  rw [String.toList_append, List.mem_append] at hc
  exact hc.elim (h.2 c) (h' c)

end IsWord

theorem not_delimits_of_isDigit {c : Char} (h : c.isDigit = true) : ¬ Delimits c := by
  intro hdelimits
  have hcontinue : Ident.isContinue c = true := isContinue_of_isHexDigit (by simp [isHexDigit, h])
  rw [isContinue_of_delimits hdelimits] at hcontinue
  cases hcontinue

theorem isWord_nat (n : Nat) : IsWord (toString n) := by
  refine ⟨fun h => Nat.toDigits_ne_nil (b := 10) (n := n) ?_, fun c hc => ?_⟩
  · rw [← toDigits, ← toList_toString_nat, h]
    rfl
  · rw [toList_toString_nat] at hc
    exact not_delimits_of_isDigit (isDigit_of_mem_toDigits hc)

theorem isWord_int (v : Int) : IsWord (toString v) := by
  cases v with
  | ofNat n => exact isWord_nat n
  | negSucc n => exact .append (s := "-") (by decide) (isWord_nat (n + 1))

theorem Ident.Valid.isWord {x : Ident} (h : x.Valid) : IsWord x.name := by
  refine .of_isContinue ?_ (isContinue_of_isSpelling h)
  rintro hname
  rw [Valid, hname] at h
  cases h

theorem Literal.isWord_text (l : Literal) : IsWord l.text := by
  obtain ⟨v, _ | w⟩ := l
  · exact isWord_int v
  · refine .append (fun c hc => ?_) (isWord_nat w)
    rw [String.toList_append, List.mem_append] at hc
    rcases hc with hc | hc
    · exact (isWord_int v).2 c hc
    · obtain rfl : c = ':' := by simpa using hc
      decide

theorem decodable_word :
    Decodable String.toList IsWord fun rest => ∀ d ∈ rest.head?, Delimits d := by
  have h : Decodable String.toList IsWord
      fun rest => ∀ d ∈ rest.head?, decide (¬ Delimits d) = false :=
    decodable_of_forall (fun s hs c hc => decide_eq_true (hs.2 c hc)) String.toList_inj.1
  simpa using h

namespace Term

mutual

/-- Every atom in the term is a word. -/
def Plain : Term → Prop
  | .atom s => IsWord s
  | .list ts => AllPlain ts

def AllPlain : List Term → Prop
  | [] => True
  | t :: ts => t.Plain ∧ AllPlain ts

end

theorem allPlain_iff {ts : List Term} : AllPlain ts ↔ ∀ t ∈ ts, t.Plain := by
  induction ts with
  | nil => simp [AllPlain]
  | cons t ts ih => simp [AllPlain, ih]

theorem plain_app_iff {head : String} {args : List Term} :
    (app head args).Plain ↔ IsWord head ∧ ∀ t ∈ args, t.Plain := by
  rw [← allPlain_iff]
  rfl

theorem Plain.call {head : String} {args : List Term} (hhead : IsWord head)
    (hargs : ∀ t ∈ args, t.Plain) : (call head args).Plain := by
  unfold Term.call
  split_ifs
  · exact hhead
  · exact plain_app_iff.2 ⟨hhead, hargs⟩

theorem plain_bitVec (width : Nat) : (bitVec width).Plain := by
  have hmark : IsWord "_" := by decide
  have hsort : IsWord "BitVec" := by decide
  exact ⟨hmark, hsort, isWord_nat width, trivial⟩

theorem Plain.extract {t : Term} (high low : Int) (h : t.Plain) : (extract high low t).Plain := by
  have hmark : IsWord "_" := by decide
  have hname : IsWord "extract" := by decide
  exact ⟨⟨hmark, hname, isWord_int high, isWord_int low, trivial⟩, h, trivial⟩

theorem Plain.concat {t u : Term} (ht : t.Plain) (hu : u.Plain) : (concat t u).Plain := by
  have hname : IsWord "concat" := by decide
  exact ⟨hname, ht, hu, trivial⟩

theorem plain_params {names : List String} {sort : Term} (hnames : ∀ x ∈ names, IsWord x)
    (hsort : sort.Plain) : (params names sort).Plain := by
  refine allPlain_iff.2 (List.forall_mem_map.2 fun x hx => ?_)
  exact ⟨hnames x hx, hsort, trivial⟩

theorem plain_defineFun {name : String} {names : List String} {paramSort sort body : Term}
    (hname : IsWord name) (hnames : ∀ x ∈ names, IsWord x) (hparam : paramSort.Plain)
    (hsort : sort.Plain) (hbody : body.Plain) :
    (defineFun name names paramSort sort body).Plain := by
  have hcommand : IsWord "define-fun" := by decide
  exact ⟨hcommand, hname, plain_params hnames hparam, hsort, hbody, trivial⟩

theorem toList_text_list (ts : List Term) : (text (.list ts)).toList = '(' :: (match ts with
    | [] => []
    | t :: ts => t.text.toList ++ (textAfter ts).toList) ++ [')'] := by
  cases ts with
  | nil => rfl
  | cons t ts => simp [text]

/-- No term begins with white space or the end of a list. -/
theorem Plain.exists_cons {t : Term} (h : t.Plain) :
    ∃ c cs, t.text.toList = c :: cs ∧ (c = '(' ∨ ¬ Delimits c) := by
  cases t with
  | atom s =>
    obtain ⟨c, cs, hs, hc⟩ := IsWord.exists_cons h
    exact ⟨c, cs, hs, .inr hc⟩
  | list ts => exact ⟨'(', _, toList_text_list ts, .inl rfl⟩

theorem Plain.ne_paren {t : Term} (h : t.Plain) (cs ds : List Char) :
    t.text.toList ++ cs ≠ ')' :: ds := by
  obtain ⟨c, cs', htext, hc⟩ := h.exists_cons
  rw [htext]
  rintro heq
  obtain rfl : c = ')' := (List.cons.inj heq).1
  revert hc
  decide

theorem delimits_space : Delimits ' ' := .inl (by decide)

theorem delimits_textAfter (ts : List Term) (rest : List Char) :
    ∀ d ∈ ((textAfter ts).toList ++ ')' :: rest).head?, Delimits d := by
  cases ts with
  | nil => exact forall_mem_head?_cons (.inr (.inr rfl)) rest
  | cons t ts =>
    rw [textAfter, String.append_assoc, String.toList_append]
    exact forall_mem_head?_cons delimits_space _

mutual

theorem text_append_inj {rest rest' : List Char} (hrest : ∀ d ∈ rest.head?, Delimits d)
    (hrest' : ∀ d ∈ rest'.head?, Delimits d) : ∀ {t t' : Term}, t.Plain → t'.Plain →
    t.text.toList ++ rest = t'.text.toList ++ rest' → t = t' ∧ rest = rest'
  | .atom s, .atom s', h, h', heq => by
    obtain ⟨rfl, hrests⟩ := decodable_word h h' hrest hrest' heq
    exact ⟨rfl, hrests⟩
  | .atom s, .list ts', h, _, heq => by
    obtain ⟨c, cs, hs, hc⟩ := IsWord.exists_cons h
    rw [text, hs, toList_text_list] at heq
    obtain rfl : c = '(' := (List.cons.inj heq).1
    exact absurd (.inr (.inl rfl)) hc
  | .list ts, .atom s', _, h', heq => by
    obtain ⟨c, cs, hs, hc⟩ := IsWord.exists_cons h'
    rw [toList_text_list, text, hs] at heq
    obtain rfl : c = '(' := (List.cons.inj heq).1.symm
    exact absurd (.inr (.inl rfl)) hc
  | .list [], .list [], _, _, heq => ⟨rfl, (List.cons.inj (List.cons.inj heq).2).2⟩
  | .list [], .list (t' :: ts'), _, h', heq => by
    simp only [toList_text_list, List.cons_append, List.append_assoc, List.cons.injEq] at heq
    exact absurd heq.2.symm (h'.1.ne_paren _ _)
  | .list (t :: ts), .list [], h, _, heq => by
    simp only [toList_text_list, List.cons_append, List.append_assoc, List.cons.injEq] at heq
    exact absurd heq.2 (h.1.ne_paren _ _)
  | .list (t :: ts), .list (t' :: ts'), h, h', heq => by
    simp only [toList_text_list, List.cons_append, List.append_assoc, List.cons.injEq, true_and,
      List.nil_append] at heq
    obtain ⟨rfl, hargs⟩ := text_append_inj (delimits_textAfter ts rest)
      (delimits_textAfter ts' rest') h.1 h'.1 heq
    obtain ⟨rfl, hrests⟩ := textAfter_append_inj h.2 h'.2 hargs
    exact ⟨rfl, hrests⟩

theorem textAfter_append_inj {rest rest' : List Char} : ∀ {ts ts' : List Term}, AllPlain ts →
    AllPlain ts' → (textAfter ts).toList ++ ')' :: rest = (textAfter ts').toList ++ ')' :: rest' →
    ts = ts' ∧ rest = rest'
  | [], [], _, _, heq => ⟨rfl, (List.cons.inj heq).2⟩
  | [], t' :: ts', _, _, heq => by simp [textAfter] at heq
  | t :: ts, [], _, _, heq => by simp [textAfter] at heq
  | t :: ts, t' :: ts', h, h', heq => by
    simp only [textAfter, String.toList_append, List.append_assoc, List.append_cancel_left_eq] at heq
    obtain ⟨rfl, hargs⟩ := text_append_inj (delimits_textAfter ts rest)
      (delimits_textAfter ts' rest') h.1 h'.1 heq
    obtain ⟨rfl, hrests⟩ := textAfter_append_inj h.2 h'.2 hargs
    exact ⟨rfl, hrests⟩

end

theorem decodable_text :
    Decodable (fun t : Term => t.text.toList) Plain fun rest => ∀ d ∈ rest.head?, Delimits d :=
  fun _ _ h h' _ _ hrest hrest' => text_append_inj hrest hrest' h h'

end Term

end BitSynth
