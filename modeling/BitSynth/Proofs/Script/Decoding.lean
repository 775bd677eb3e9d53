import BitSynth.Proofs.Program.RoundTrip
import BitSynth.Proofs.Term.Plain
import BitSynth.Script

/-!
# Scripts and their text

Nothing in a script is quoted: its items are joined by commas, which also stand inside of functions,
and the parameters of a function end at an arrow. Still each part shows where it ends, because a
name contains neither a space nor a comma nor a minus sign. So the text determines the script.
-/

namespace BitSynth.Script

open Text Reader

/-! ## Scripts of programs -/

mutual

theorem exprTerm_plain : ∀ {e : Expr} {t : Term}, e.Valid → exprTerm e = .ok t → t.Plain
  | .ident x, _, he, h => by
    obtain rfl := Except.ok.inj h
    exact Ident.Valid.isWord he
  | .literal l, _, _, h => by
    obtain rfl := Except.ok.inj h
    exact l.isWord_text
  | .app op args, t, he, h => by
    unfold exprTerm at h
    split at h
    · split at h
      · obtain ⟨u, hu, h⟩ := bind_eq_ok_iff.1 h
        obtain rfl := Except.ok.inj h
        exact ⟨he.1.isWord, isWord_int _, isWord_int _, exprTerm_plain he.2.2.2.1 hu, trivial⟩
      · cases h
    · obtain ⟨ts, hts, h⟩ := bind_eq_ok_iff.1 h
      obtain rfl := Except.ok.inj h
      exact ⟨he.1.isWord, exprTerms_plain he.2 hts⟩

theorem exprTerms_plain : ∀ {es : List Expr} {ts : List Term}, Expr.AllValid es →
    exprTerms es = .ok ts → Term.AllPlain ts
  | [], _, _, h => by
    obtain rfl := Except.ok.inj h
    trivial
  | e :: es, _, he, h => by
    rw [exprTerms] at h
    obtain ⟨t, ht, h⟩ := bind_eq_ok_iff.1 h
    obtain ⟨ts, hts, h⟩ := bind_eq_ok_iff.1 h
    obtain rfl := Except.ok.inj h
    exact ⟨exprTerm_plain he.1 ht, exprTerms_plain he.2 hts⟩

end

def IsName (x : String) : Prop := Ident.isSpelling x.toList = true

instance (x : String) : Decidable (IsName x) := inferInstanceAs (Decidable (_ = true))

/-- Names are names, and bodies are plain. -/
def Item.Plain : Item → Prop
  | operator name => IsName name
  | constant _ _ => True
  | function name params body => IsName name ∧ (∀ x ∈ params, IsName x) ∧ body.Plain

structure Plain (s : Script) : Prop where
  inputs : ∀ x ∈ s.inputs, IsName x
  body : s.body.Plain
  library : ∀ i ∈ s.library, i.Plain

theorem isName_of_valid {xs : List Ident} (h : ∀ x ∈ xs, x.Valid) :
    ∀ x ∈ xs.map Ident.name, IsName x := List.forall_mem_map.2 h

theorem Item.ofRelation_plain (r : Relation) (bitWidth : Nat) : (ofRelation r bitWidth).Plain := by
  have hname : IsName r.name := by cases r <;> decide
  have hword : IsWord r.name := Ident.Valid.isWord (x := ⟨r.name⟩) hname
  have hbit (bit : String) (h : ∀ c ∈ bit.toList, ¬ Delimits c) :
      IsWord (bit ++ toString bitWidth) := .append h (isWord_nat bitWidth)
  have hite : IsWord Operator.ite := by decide
  have hx : IsWord "x" := by decide
  have hy : IsWord "y" := by decide
  exact ⟨hname, by decide, hite, ⟨hword, hx, hy, trivial⟩, hbit "1:" (by decide),
    hbit "0:" (by decide), trivial⟩

theorem Item.ofEntry_plain {bitWidth : Nat} {e : LibraryEntry} {i : Item} (he : e.WellFormed)
    (h : ofEntry bitWidth e = .ok i) : i.Plain := by
  cases e with
  | operator name =>
    rw [ofEntry] at h
    split at h
    · obtain rfl := Except.ok.inj h
      exact ofRelation_plain _ bitWidth
    · obtain rfl := Except.ok.inj h
      exact he
  | constant width value =>
    obtain rfl := Except.ok.inj h
    trivial
  | function name params body =>
    rw [ofEntry] at h
    obtain ⟨t, ht, h⟩ := bind_eq_ok_iff.1 h
    obtain rfl := Except.ok.inj h
    exact ⟨he.1, isName_of_valid he.2.1, exprTerm_plain he.2.2 ht⟩

theorem ofProgram_plain {p : Program} {s : Script} (hp : p.WellFormed) (h : ofProgram p = .ok s) :
    s.Plain := by
  rw [ofProgram] at h
  obtain ⟨library, hlibrary, h⟩ := bind_eq_ok_iff.1 h
  obtain ⟨body, hbody, h⟩ := bind_eq_ok_iff.1 h
  obtain rfl := Except.ok.inj h
  refine ⟨isName_of_valid hp.spec.inputs, exprTerm_plain hp.spec.body hbody, fun i hi => ?_⟩
  obtain ⟨e, he, hentry⟩ := exists_mem_of_mapM_eq_ok hlibrary i hi
  exact Item.ofEntry_plain (hp.entries e he) hentry

/-! ## Names in front of an arrow -/

/-- Names, each with a space behind it. -/
def spacedNames (names : List String) : List Char := names.flatMap fun x => x.toList ++ [' ']

theorem decodable_names : Decodable spacedNames (∀ x ∈ ·, IsName x)
    fun rest => ∃ rest', rest = "-> ".toList ++ rest' := by
  have hname : Decodable (fun x : String => x.toList ++ [' ']) IsName fun _ => True := by
    intro x y hx hy rest rest' _ _ h
    rw [List.append_assoc, List.append_assoc] at h
    obtain ⟨rfl, hrests⟩ := decodable_name hx hy (forall_mem_head?_cons (by decide) rest)
      (forall_mem_head?_cons (by decide) rest') h
    exact ⟨rfl, (List.cons.inj hrests).2⟩
  have hnames := hname.flatMap fun _ _ _ => trivial
  -- no name begins with the minus sign of the arrow
  have harrow (cs : List Char) (x : String) (hx : IsName x) (rest : List Char) :
      "-> ".toList ++ cs ≠ x.toList ++ [' '] ++ rest := by
    obtain ⟨c, cs', hcs, hc⟩ := exists_cons_of_isSpelling hx
    rw [hcs]
    rintro heq
    obtain rfl : '-' = c := (List.cons.inj heq).1
    cases hc
  rintro xs ys hxs hys _ _ ⟨cs, rfl⟩ ⟨cs', rfl⟩ h
  exact hnames hxs hys ⟨trivial, harrow cs⟩ ⟨trivial, harrow cs'⟩ h

/-! ## Items -/

namespace Item

/-- The word that the text of an item begins with. -/
def word : Item → List Char
  | operator name => name.toList
  | constant .. => "const".toList
  | function .. => []

def valueText : Option Int → List Char
  | none => []
  | some value => ' ' :: (toString value).toList

/-- What follows the first word of an item. -/
def afterWord : Item → List Char
  | operator _ => []
  | constant width value => ' ' :: ((toString width).toList ++ valueText value)
  | function name params body =>
    '(' :: (name.toList ++ ',' :: ' ' :: ((toString params.length).toList ++ ',' :: ' ' ::
      (spacedNames params ++ ("-> ".toList ++ (body.text.toList ++ [')'])))))

theorem toList_text (i : Item) : i.text.toList = i.word ++ i.afterWord := by
  cases i with
  | operator name => simp [text, word, afterWord]
  | constant width value => cases value <;> simp [text, word, afterWord, valueText]
  | function name params body => simp [text, word, afterWord, spacedNames, List.flatMap_map]

/-- An item is followed by a comma or by the end of the line. -/
def Ends (rest : List Char) : Prop := ∀ d ∈ rest.head?, d = ',' ∨ d = '\n'

variable {i j : Item} {rest rest' : List Char}

theorem Ends.of_not {p : Char → Bool} (h : Ends rest) (hcomma : p ',' = false)
    (hline : p '\n' = false) : ∀ d ∈ rest.head?, p d = false := by
  intro d hd
  obtain rfl | rfl := h d hd
  · exact hcomma
  · exact hline

theorem Ends.ne_cons {c : Char} (h : Ends rest) (hc : ¬ (c = ',' ∨ c = '\n')) (cs : List Char) :
    rest ≠ c :: cs := by
  rintro rfl
  exact hc (h c rfl)

theorem decodable_valueText : Decodable valueText (fun _ => True) Ends := by
  intro v w _ _ rest rest' hrest hrest' h
  match v, w with
  | none, none => exact ⟨rfl, h⟩
  | none, some w => exact absurd h (hrest.ne_cons (by decide) _)
  | some v, none => exact absurd h.symm (hrest'.ne_cons (by decide) _)
  | some v, some w =>
    obtain ⟨rfl, hrests⟩ := decodable_int trivial trivial (hrest.of_not (by decide) (by decide))
      (hrest'.of_not (by decide) (by decide)) (List.cons.inj h).2
    exact ⟨rfl, hrests⟩

theorem isDigit_valueText (v : Option Int) (hrest : Ends rest) :
    ∀ d ∈ (valueText v ++ rest).head?, d.isDigit = false := by
  cases v with
  | none => exact hrest.of_not (by decide) (by decide)
  | some v => exact forall_mem_head?_cons (by decide) _

theorem isContinue_word (h : i.Plain) : ∀ c ∈ i.word, Ident.isContinue c = true := by
  cases i with
  | operator name => exact isContinue_of_isSpelling h
  | constant =>
    have h : ∀ c ∈ "const".toList, Ident.isContinue c = true := by decide
    exact h
  | function => exact List.forall_mem_nil _

theorem isContinue_afterWord (i : Item) (hrest : Ends rest) :
    ∀ d ∈ (i.afterWord ++ rest).head?, Ident.isContinue d = false := by
  cases i with
  | operator name => exact hrest.of_not (by decide) (by decide)
  | constant => exact forall_mem_head?_cons (by decide) _
  | function => exact forall_mem_head?_cons (by decide) _

/-- Items that begin with one word are of one form, as a name, the word `const` and a parenthesis
are followed by different characters. -/
theorem eq_of_afterWord (hi : i.Plain) (hj : j.Plain) (hrest : Ends rest) (hrest' : Ends rest')
    (hword : i.word = j.word) (h : i.afterWord ++ rest = j.afterWord ++ rest') :
    i = j ∧ rest = rest' := by
  match i, j with
  | operator x, operator y =>
    obtain rfl : x = y := String.toList_inj.1 hword
    exact ⟨rfl, h⟩
  | operator _, constant .. => exact absurd h (hrest.ne_cons (by decide) _)
  | operator _, function .. => exact absurd h (hrest.ne_cons (by decide) _)
  | constant .., operator _ => exact absurd h.symm (hrest'.ne_cons (by decide) _)
  | function .., operator _ => exact absurd h.symm (hrest'.ne_cons (by decide) _)
  | constant .., function .. => cases hword
  | function .., constant .. => cases hword
  | constant m v, constant n w =>
    simp only [afterWord, List.cons_append, List.append_assoc, List.cons.injEq, true_and] at h
    obtain ⟨rfl, hvalue⟩ := decodable_nat trivial trivial (isDigit_valueText v hrest)
      (isDigit_valueText w hrest') h
    obtain ⟨rfl, hrests⟩ := decodable_valueText trivial trivial hrest hrest' hvalue
    exact ⟨rfl, hrests⟩
  | function x xs t, function y ys u =>
    obtain ⟨hx, hxs, ht⟩ := hi
    obtain ⟨hy, hys, hu⟩ := hj
    have hcomma (cs : List Char) : ∀ d ∈ (',' :: cs).head?, d.isDigit = false :=
      forall_mem_head?_cons (by decide) cs
    simp only [afterWord, List.cons_append, List.append_assoc, List.cons.injEq, true_and] at h
    obtain ⟨rfl, hcount⟩ := decodable_name hx hy (forall_mem_head?_cons (by decide) _)
      (forall_mem_head?_cons (by decide) _) h
    simp only [List.cons.injEq, true_and] at hcount
    obtain ⟨-, hparams⟩ := decodable_nat trivial trivial (hcomma _) (hcomma _) hcount
    simp only [List.cons.injEq, true_and] at hparams
    obtain ⟨rfl, hbody⟩ := decodable_names hxs hys ⟨_, rfl⟩ ⟨_, rfl⟩ hparams
    obtain ⟨rfl, hrests⟩ := Term.decodable_text ht hu (delimited_paren rest) (delimited_paren rest')
      (List.append_cancel_left hbody)
    exact ⟨rfl, (List.cons.inj hrests).2⟩

theorem decodable_text : Decodable (fun i : Item => i.text.toList) Plain Ends := by
  intro i j hi hj rest rest' hrest hrest' h
  simp only [toList_text, List.append_assoc] at h
  obtain ⟨hword, hafter⟩ := append_inj_of_head? (isContinue_word hi) (isContinue_word hj)
    (isContinue_afterWord i hrest) (isContinue_afterWord j hrest') h
  exact eq_of_afterWord hi hj hrest hrest' hword hafter

/-- No item begins with the end of a line. -/
theorem text_ne_line (h : i.Plain) (cs ds : List Char) : i.text.toList ++ cs ≠ '\n' :: ds := by
  rw [toList_text]
  cases i with
  | operator name =>
    obtain ⟨c, cs', hname, hc⟩ := exists_cons_of_isSpelling h
    rw [word, hname]
    rintro heq
    obtain rfl : c = '\n' := (List.cons.inj heq).1
    cases hc
  | constant => exact fun heq => absurd (List.cons.inj heq).1 (by decide)
  | function => exact fun heq => absurd (List.cons.inj heq).1 (by decide)

end Item

/-! ## The whole text -/

/-- Items, with a comma and a space between neighbours. -/
def itemsText : List Item → List Char
  | [] => []
  | i :: is => i.text.toList ++ is.flatMap fun j => ',' :: ' ' :: j.text.toList

theorem intercalate_items : ∀ items : List Item,
    [',', ' '].intercalate (items.map (String.toList ∘ Item.text)) = itemsText items
  | [] => rfl
  | [i] => by simp [itemsText]
  | i :: j :: js => by
    have ih := intercalate_items (j :: js)
    rw [List.map_cons] at ih
    rw [List.map_cons, List.map_cons, List.intercalate_cons_cons, ih]
    simp [itemsText]

theorem decodable_items : Decodable itemsText (∀ i ∈ ·, i.Plain)
    fun rest => ∃ cs, rest = '\n' :: cs := by
  have hnext : Decodable (fun i : Item => ',' :: ' ' :: i.text.toList) Item.Plain Item.Ends := by
    intro i j hi hj rest rest' hrest hrest' h
    exact Item.decodable_text hi hj hrest hrest' (List.cons.inj (List.cons.inj h).2).2
  have hmore := hnext.flatMap fun i _ rest => forall_mem_head?_cons (.inl rfl) _
  have hstop (cs : List Char) : Item.Ends ('\n' :: cs) ∧ ∀ i : Item, i.Plain →
      ∀ rest, '\n' :: cs ≠ ',' :: ' ' :: i.text.toList ++ rest :=
    ⟨forall_mem_head?_cons (.inr rfl) cs, fun i _ rest h => absurd (List.cons.inj h).1 (by decide)⟩
  have hends (is : List Item) (cs : List Char) :
      Item.Ends (is.flatMap (fun i => ',' :: ' ' :: i.text.toList) ++ '\n' :: cs) := by
    cases is with
    | nil => exact (hstop cs).1
    | cons i is => exact forall_mem_head?_cons (.inl rfl) _
  rintro is js his hjs _ _ ⟨cs, rfl⟩ ⟨cs', rfl⟩ h
  match is, js with
  | [], [] => exact ⟨rfl, h⟩
  | [], j :: js =>
    rw [itemsText, itemsText, List.append_assoc] at h
    exact absurd h.symm (Item.text_ne_line (hjs j (List.mem_cons_self ..)) _ _)
  | i :: is, [] =>
    rw [itemsText, itemsText, List.append_assoc] at h
    exact absurd h (Item.text_ne_line (his i (List.mem_cons_self ..)) _ _)
  | i :: is, j :: js =>
    obtain ⟨hi, his'⟩ := List.forall_mem_cons.1 his
    obtain ⟨hj, hjs'⟩ := List.forall_mem_cons.1 hjs
    rw [itemsText, itemsText, List.append_assoc, List.append_assoc] at h
    obtain ⟨rfl, htexts⟩ := Item.decodable_text hi hj (hends is cs) (hends js cs') h
    obtain ⟨rfl, hrests⟩ := hmore his' hjs' (hstop cs) (hstop cs') htexts
    exact ⟨rfl, hrests⟩

variable {s s' : Script}

theorem toList_text (s : Script) : s.text.toList =
    "bitwidth ".toList ++ ((toString s.bitWidth).toList ++ '\n' :: ("spec ".toList
      ++ ((toString s.inputs.length).toList ++ ' ' :: (spacedNames s.inputs ++ ("-> ".toList
        ++ (s.body.text.toList ++ '\n' :: ("lib ".toList ++ (itemsText s.library
          ++ '\n' :: (textOfLines ending).toList)))))))) := by
  simp [text, textOfLines, lines, specText, spacedNames, intercalate_items, List.flatMap_map]

/-- Each part of the text ends where another begins, so the parts can be read off one by one. -/
theorem Plain.eq_of_text (hs : s.Plain) (hs' : s'.Plain) (h : s.text = s'.text) : s = s' := by
  have hline (cs : List Char) : ∀ d ∈ ('\n' :: cs).head?, Delimits d :=
    forall_mem_head?_cons (.inl (by decide)) cs
  have h := congrArg String.toList h
  simp only [toList_text, List.append_cancel_left_eq] at h
  obtain ⟨hwidth, h⟩ := decodable_nat trivial trivial (forall_mem_head?_cons (by decide) _)
    (forall_mem_head?_cons (by decide) _) h
  simp only [List.cons.injEq, List.append_cancel_left_eq, true_and] at h
  obtain ⟨-, h⟩ := decodable_nat trivial trivial (forall_mem_head?_cons (by decide) _)
    (forall_mem_head?_cons (by decide) _) h
  simp only [List.cons.injEq, true_and] at h
  obtain ⟨hinputs, h⟩ := decodable_names hs.inputs hs'.inputs ⟨_, rfl⟩ ⟨_, rfl⟩ h
  rw [List.append_cancel_left_eq] at h
  obtain ⟨hbody, h⟩ := Term.decodable_text hs.body hs'.body (hline _) (hline _) h
  simp only [List.cons.injEq, List.append_cancel_left_eq, true_and] at h
  obtain ⟨hlibrary, -⟩ := decodable_items hs.library hs'.library ⟨_, rfl⟩ ⟨_, rfl⟩ h
  obtain ⟨width, inputs, body, library⟩ := s
  obtain ⟨width', inputs', body', library'⟩ := s'
  rw [Script.mk.injEq]
  exact ⟨hwidth, hinputs, hbody, hlibrary⟩

/-- Two programs that are read from texts and come out as the same text have the same script. -/
theorem eq_of_text_eq {t t' : String} {p p' : Program} (hp : (Program.read t).result = .ok p)
    (hp' : (Program.read t').result = .ok p') (hs : ofProgram p = .ok s)
    (hs' : ofProgram p' = .ok s') (h : s.text = s'.text) : s = s' :=
  (ofProgram_plain (Program.wellFormed_of_read hp) hs).eq_of_text
    (ofProgram_plain (Program.wellFormed_of_read hp') hs') h

/-- A comparison is written like a function of its name that picks one or zero, so the programs
differ and their scripts do not. -/
theorem eq_of_text_eq_ult : ∃ p p' s s',
    (Program.read "(spec 1 4 x x) (lib ult)").result = .ok p
      ∧ (Program.read "(lib (fun ult x y (ite (ult x y) 1:4 0:4))) (spec 1 4 x x)").result = .ok p'
      ∧ p ≠ p' ∧ ofProgram p = .ok s ∧ ofProgram p' = .ok s' ∧ s.text = s'.text ∧ s = s' := by
  have hp : (Program.read "(spec 1 4 x x) (lib ult)").result
      = .ok ⟨⟨4, [⟨"x"⟩], .ident ⟨"x"⟩⟩, [.operator ⟨"ult"⟩]⟩ := by
    decide +kernel
  have hp' : (Program.read "(lib (fun ult x y (ite (ult x y) 1:4 0:4))) (spec 1 4 x x)").result
      = .ok ⟨⟨4, [⟨"x"⟩], .ident ⟨"x"⟩⟩, [.function ⟨"ult"⟩ [⟨"x"⟩, ⟨"y"⟩]
        (.app ⟨"ite"⟩ [.app ⟨"ult"⟩ [.ident ⟨"x"⟩, .ident ⟨"y"⟩], .literal ⟨1, some 4⟩,
          .literal ⟨0, some 4⟩])]⟩ := by
    decide +kernel
  let s : Script := ⟨4, ["x"], .atom "x", [Item.ofRelation .ult 4]⟩
  have hs : ofProgram ⟨⟨4, [⟨"x"⟩], .ident ⟨"x"⟩⟩, [.operator ⟨"ult"⟩]⟩ = .ok s := by decide +kernel
  have hs' : ofProgram ⟨⟨4, [⟨"x"⟩], .ident ⟨"x"⟩⟩, [.function ⟨"ult"⟩ [⟨"x"⟩, ⟨"y"⟩]
      (.app ⟨"ite"⟩ [.app ⟨"ult"⟩ [.ident ⟨"x"⟩, .ident ⟨"y"⟩], .literal ⟨1, some 4⟩,
        .literal ⟨0, some 4⟩])]⟩ = .ok s := by
    decide +kernel
  exact ⟨_, _, s, s, hp, hp', by decide, hs, hs', rfl, eq_of_text_eq hp hp' hs hs' rfl⟩

end BitSynth.Script
