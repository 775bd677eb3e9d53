import BitSynth.Proofs.Reader.Spelling
import Mathlib.Data.List.Chain

/-!
# Layouts

A layout cuts a text into tokens and white space. The tokens alone decide which expression is laid
out: they are its names, its numbers and the parentheses of its applications, and perhaps a pair of
parentheses around a literal. If no name or number touches another, the text spells that expression
(`exists_spells_of_writes`), so the reader takes it.
-/

namespace BitSynth

open Text

namespace Reader

theorem SpellsMagnitude.isContinue {cs : List Char} {n : Nat} (h : SpellsMagnitude cs n) :
    ∀ c ∈ cs, Ident.isContinue c = true := by
  cases h with
  | hexadecimal hx _ hds =>
    refine List.forall_mem_cons.2 ⟨by decide, List.forall_mem_cons.2 ⟨?_, fun d hd => ?_⟩⟩
    · rcases hx with rfl | rfl <;> decide
    · exact isContinue_of_isHexDigit (hds d hd)
  | binary hb _ hds =>
    refine List.forall_mem_cons.2 ⟨by decide, List.forall_mem_cons.2 ⟨?_, fun d hd => ?_⟩⟩
    · rcases hb with rfl | rfl <;> decide
    · exact isContinue_of_isBinaryDigit (hds d hd)
  | decimal _ hds => exact fun d hd => isContinue_of_isDigit (hds d hd)

theorem SpellsLiteral.notMem_whiteSpace {cs : List Char} {l : Literal} (h : SpellsLiteral cs l) :
    ∀ c ∈ cs, c ∉ whiteSpace := by
  have hmagnitude {ds : List Char} {n : Nat} (hn : SpellsMagnitude ds n) :
      ∀ c ∈ ds, c ∉ whiteSpace := fun c hc =>
    not_mem_whiteSpace_of_isContinue (hn.isContinue c hc)
  have hwidth {ws : List Char} {w : Option Nat} (hw : SpellsWidth ws w) :
      ∀ c ∈ ws, c ∉ whiteSpace := by
    cases hw with
    | none => exact List.forall_mem_nil _
    | some _ hds _ =>
      exact List.forall_mem_cons.2 ⟨by decide, fun d hd =>
        not_mem_whiteSpace_of_isContinue (isContinue_of_isDigit (hds d hd))⟩
  cases h with
  | positive hn hw => exact List.forall_mem_append.2 ⟨hmagnitude hn, hwidth hw⟩
  | negative hn hw =>
    exact List.forall_mem_cons.2
      ⟨by decide, List.forall_mem_append.2 ⟨hmagnitude hn, hwidth hw⟩⟩

inductive Lexeme where
  | opening
  | closing
  | name (x : Ident)
  | number (l : Literal)
deriving DecidableEq, Repr

namespace Lexeme

/-- The texts of a token: one for a parenthesis or a name, and many for a number. -/
inductive SpelledBy : Lexeme → List Char → Prop
  | opening : SpelledBy opening ['(']
  | closing : SpelledBy closing [')']
  | name {cs : List Char} (h : Ident.isSpelling cs = true) : SpelledBy (name ⟨String.ofList cs⟩) cs
  | number {cs : List Char} {l : Literal} (h : SpellsLiteral cs l) : SpelledBy (number l) cs

theorem SpelledBy.notMem_whiteSpace {t : Lexeme} {cs : List Char} (h : t.SpelledBy cs) :
    ∀ c ∈ cs, c ∉ whiteSpace := by
  cases h with
  | opening => exact List.forall_mem_singleton.2 (by decide)
  | closing => exact List.forall_mem_singleton.2 (by decide)
  | name h => exact fun c hc => not_mem_whiteSpace_of_isContinue (isContinue_of_isSpelling h c hc)
  | number h => exact h.notMem_whiteSpace

/-- A name or a number. -/
def isWord : Lexeme → Bool
  | opening | closing => false
  | name _ | number _ => true

end Lexeme

/-- A stretch of a text: a character of white space, or a token. -/
inductive Piece where
  | blank (c : Char) (hc : c ∈ whiteSpace)
  | token (t : Lexeme) (cs : List Char) (h : t.SpelledBy cs)

namespace Piece

def chars : Piece → List Char
  | blank c _ => [c]
  | token _ cs _ => cs

def lexeme? : Piece → Option Lexeme
  | blank _ _ => none
  | token t _ _ => some t

def isWord : Piece → Bool
  | blank _ _ => false
  | token t _ _ => t.isWord

end Piece

/-- A text cut into tokens and white space. -/
abbrev Layout := List Piece

namespace Layout

def chars (l : Layout) : List Char := l.flatMap Piece.chars

def text (l : Layout) : String := String.ofList l.chars

def lexemes (l : Layout) : List Lexeme := l.filterMap Piece.lexeme?

/-- The layout without its white space. -/
def tokens (l : Layout) : Layout := l.filter (·.lexeme?.isSome)

/-- No name or number touches another. -/
def Separated (l : Layout) : Prop := l.IsChain fun p q => (p.isWord && q.isWord) = false

instance (l : Layout) : Decidable l.Separated := inferInstanceAs (Decidable (List.IsChain _ l))

end Layout

mutual

/-- The tokens write the expression, a literal perhaps in parentheses of its own. -/
inductive Writes : List Lexeme → Expr → Prop
  | ident (x : Ident) : Writes [.name x] (.ident x)
  | literal (l : Literal) : Writes [.number l] (.literal l)
  | enclosed (l : Literal) : Writes [.opening, .number l, .closing] (.literal l)
  | app {ts : List Lexeme} {args : List Expr} (op : Ident) (h : WritesAll ts args) :
      Writes (.opening :: .name op :: (ts ++ [.closing])) (.app op args)

/-- The tokens write the expressions, one after the other. -/
inductive WritesAll : List Lexeme → List Expr → Prop
  | nil : WritesAll [] []
  | cons {ts us : List Lexeme} {e : Expr} {es : List Expr} (h : Writes ts e)
      (hs : WritesAll us es) : WritesAll (ts ++ us) (e :: es)

end

/-! ## Parts of a layout -/

namespace Layout

variable {l l' : Layout} {t : Lexeme} {ts : List Lexeme}

@[simp] theorem chars_nil : chars [] = [] := rfl

@[simp] theorem chars_cons (p : Piece) (l : Layout) : chars (p :: l) = p.chars ++ l.chars := rfl

@[simp] theorem chars_append (l l' : Layout) : chars (l ++ l') = l.chars ++ l'.chars :=
  List.flatMap_append

@[simp] theorem lexemes_append (l l' : Layout) : lexemes (l ++ l') = l.lexemes ++ l'.lexemes :=
  List.filterMap_append

theorem blank_of_lexemes_eq_nil (h : l.lexemes = []) : Blank l.chars := by
  intro c hc
  obtain ⟨p, hp, hc⟩ := List.mem_flatMap.1 hc
  cases p with
  | blank d hd => exact List.mem_singleton.1 hc ▸ hd
  | token t cs ht => cases List.filterMap_eq_nil_iff.1 h _ hp

theorem chars_tokens (l : Layout) : l.tokens.chars = l.chars.filter (· ∉ whiteSpace) := by
  induction l with
  | nil => rfl
  | cons p l ih =>
    cases p with
    | blank c hc =>
      have htokens : tokens (.blank c hc :: l) = tokens l := rfl
      rw [htokens, ih, chars_cons, Piece.chars, List.singleton_append,
        List.filter_cons_of_neg (by simp [hc])]
    | token t cs ht =>
      have htokens : tokens (.token t cs ht :: l) = .token t cs ht :: tokens l := rfl
      have hcs : cs.filter (· ∉ whiteSpace) = cs :=
        List.filter_eq_self.2 fun c hc => decide_eq_true (ht.notMem_whiteSpace c hc)
      rw [htokens, chars_cons, chars_cons, List.filter_append, ih, Piece.chars, hcs]

/-- Behind white space stands the first token. -/
theorem exists_of_lexemes_eq_cons (h : l.lexemes = t :: ts) : ∃ (b : Layout) (cs : List Char)
    (ht : t.SpelledBy cs) (r : Layout),
      l = b ++ .token t cs ht :: r ∧ b.lexemes = [] ∧ r.lexemes = ts := by
  obtain ⟨b, p, r, rfl, hb, hp, hr⟩ := List.filterMap_eq_cons_iff.1 h
  cases p with
  | blank c hc => cases hp
  | token t' cs ht =>
    obtain rfl := Option.some.inj hp
    exact ⟨b, cs, ht, r, rfl, List.filterMap_eq_nil_iff.2 hb, hr⟩

theorem Separated.of_append_right (h : Separated (l ++ l')) : l'.Separated :=
  List.IsChain.right_of_append h

/-- What follows a name or a number begins with white space or a parenthesis. -/
theorem Separated.delimited {p : Piece} (h : Separated (p :: l)) (hp : p.isWord = true) :
    Delimited l.chars := by
  cases l with
  | nil => rintro c ⟨⟩
  | cons q l =>
    have hq : (p.isWord && q.isWord) = false := (List.isChain_cons_cons.1 h).1
    rw [hp, Bool.true_and] at hq
    cases q with
    | blank c hc => exact forall_mem_head?_cons (.inl hc) (chars l)
    | token t cs ht =>
      cases ht with
      | opening => exact forall_mem_head?_cons (.inr (.inl rfl)) (chars l)
      | closing => exact forall_mem_head?_cons (.inr (.inr rfl)) (chars l)
      | name => cases hq
      | number => cases hq

/-- A word alone, in front of something else. -/
theorem exists_of_lexemes_eq_word (h : l.lexemes = [t]) (ht : t.isWord = true)
    (hsep : Separated (l ++ l')) : ∃ us cs vs, l.chars = us ++ (cs ++ vs) ∧ Blank us ∧ Blank vs ∧
      t.SpelledBy cs ∧ Delimited (vs ++ l'.chars) := by
  obtain ⟨b, cs, hcs, r, rfl, hb, hr⟩ := exists_of_lexemes_eq_cons h
  rw [List.append_assoc, List.cons_append] at hsep
  have hdelimited := hsep.of_append_right.delimited ht
  rw [chars_append] at hdelimited
  refine ⟨b.chars, cs, r.chars, ?_, blank_of_lexemes_eq_nil hb, blank_of_lexemes_eq_nil hr, hcs,
    hdelimited⟩
  rw [chars_append, chars_cons]
  rfl

end Layout

/-! ## Layouts of expressions -/

open Layout

mutual

/-- A separated layout spells its expression between white space, and what follows is no part of the
last token. -/
theorem exists_spells_of_writes : ∀ {e : Expr} {l l' : Layout}, Writes l.lexemes e →
    Separated (l ++ l') → ∃ us cs vs, l.chars = us ++ (cs ++ vs) ∧ Blank us ∧ Blank vs ∧
      Spells cs e ∧ (cs.head? = some '(' ∨ Delimited (vs ++ l'.chars))
  | .ident x, l, l', h, hsep => by
    generalize hts : l.lexemes = ts at h
    cases h with
    | ident =>
      obtain ⟨us, cs, vs, heq, hus, hvs, hcs, hdelimited⟩ := exists_of_lexemes_eq_word hts rfl hsep
      cases hcs with
      | name hcs => exact ⟨us, cs, vs, heq, hus, hvs, .ident hcs, .inr hdelimited⟩
  | .literal k, l, l', h, hsep => by
    generalize hts : l.lexemes = ts at h
    cases h with
    | literal =>
      obtain ⟨us, cs, vs, heq, hus, hvs, hcs, hdelimited⟩ := exists_of_lexemes_eq_word hts rfl hsep
      cases hcs with
      | number hcs => exact ⟨us, cs, vs, heq, hus, hvs, .literal hcs, .inr hdelimited⟩
    | enclosed =>
      obtain ⟨b₀, _, ⟨⟩, l₁, rfl, hb₀, hl₁⟩ := exists_of_lexemes_eq_cons hts
      obtain ⟨b₁, cs, hcs, l₂, rfl, hb₁, hl₂⟩ := exists_of_lexemes_eq_cons hl₁
      obtain ⟨b₂, _, ⟨⟩, b₃, rfl, hb₂, hb₃⟩ := exists_of_lexemes_eq_cons hl₂
      cases hcs with
      | number hcs =>
        refine ⟨b₀.chars, _, b₃.chars, ?_, blank_of_lexemes_eq_nil hb₀,
          blank_of_lexemes_eq_nil hb₃,
          .number (blank_of_lexemes_eq_nil hb₁) hcs (blank_of_lexemes_eq_nil hb₂), .inl rfl⟩
        simp [Piece.chars]
  | .app op args, l, l', h, hsep => by
    generalize hts : l.lexemes = ts at h
    cases h with
    | app _ hargs =>
      obtain ⟨b₀, _, ⟨⟩, l₁, rfl, hb₀, hl₁⟩ := exists_of_lexemes_eq_cons hts
      obtain ⟨b₁, cs, hcs, l₂, rfl, hb₁, hl₂⟩ := exists_of_lexemes_eq_cons hl₁
      obtain ⟨l₃, l₄, rfl, hl₃, hl₄⟩ := List.filterMap_eq_append_iff.1 hl₂
      obtain ⟨b₂, _, ⟨⟩, b₃, rfl, hb₂, hb₃⟩ := exists_of_lexemes_eq_cons hl₄
      -- the white space in front of the closing parenthesis goes to the arguments
      have hargs : WritesAll (lexemes (l₃ ++ b₂)) args := by
        rwa [lexemes_append, hb₂, List.append_nil, lexemes, hl₃]
      have hname : Separated (.token (.name op) cs hcs :: (l₃ ++ b₂)) :=
        hsep.infix ⟨b₀ ++ .token .opening _ .opening :: b₁,
          .token .closing _ .closing :: (b₃ ++ l'), by simp⟩
      obtain ⟨vs, ds, heq, hvs, hds⟩ := exists_spellsArgs_of_writesAll hargs hname.tail
      have hdelimited := hname.delimited rfl
      rw [heq] at hdelimited
      cases hcs with
      | name hcs =>
        refine ⟨b₀.chars, _, b₃.chars, ?_, blank_of_lexemes_eq_nil hb₀,
          blank_of_lexemes_eq_nil hb₃,
          .app (blank_of_lexemes_eq_nil hb₁) hcs hvs hds hdelimited, .inl rfl⟩
        rw [chars_append] at heq
        simp [Piece.chars, ← heq]

theorem exists_spellsArgs_of_writesAll : ∀ {es : List Expr} {l : Layout}, WritesAll l.lexemes es →
    l.Separated → ∃ us ds, l.chars = us ++ ds ∧ Blank us ∧ SpellsArgs ds es
  | [], l, h, _ => by
    generalize hts : l.lexemes = ts at h
    cases h
    exact ⟨l.chars, [], (List.append_nil _).symm, blank_of_lexemes_eq_nil hts, .nil⟩
  | e :: es, l, h, hsep => by
    generalize hts : l.lexemes = ts at h
    cases h with
    | cons he hes =>
      obtain ⟨l₁, l₂, rfl, rfl, rfl⟩ := List.filterMap_eq_append_iff.1 hts
      obtain ⟨us, cs, vs, heq, hus, hvs, hcs, hafter⟩ := exists_spells_of_writes he hsep
      obtain ⟨ws, ds, heq', hws, hds⟩ := exists_spellsArgs_of_writesAll hes hsep.of_append_right
      refine ⟨us, cs ++ (vs ++ ws) ++ ds, ?_, hus,
        .cons hcs (List.forall_mem_append.2 ⟨hvs, hws⟩) hds (hafter.imp_right fun h => ?_)⟩
      · rw [chars_append, heq, heq']
        simp only [List.append_assoc]
      · rwa [heq', ← List.append_assoc] at h

end

end Reader

open Reader

/-- Whatever layout of its tokens an expression is given, it is read from the text if no name or
number touches another. -/
theorem Expr.read_of_separated {l : Layout} {e : Expr} (hsep : l.Separated)
    (h : Writes l.lexemes e) : Expr.read l.text = .ok e := by
  have hsep : Layout.Separated (l ++ []) := (List.append_nil l).symm ▸ hsep
  obtain ⟨us, cs, vs, heq, hus, hvs, hcs, hafter⟩ := exists_spells_of_writes h hsep
  refine Takes.parse ?_
  rw [Layout.text, String.toList_ofList, heq]
  exact Takes.spaced hus hvs (hcs.noSpace _) (by rintro c ⟨⟩) (takes_expr hcs hafter)

theorem Reader.spellsLiteral_hexadecimal : SpellsLiteral "-0X1f:08".toList ⟨-31, some 8⟩ := by
  have hmagnitude : SpellsMagnitude ('0' :: 'X' :: ['1', 'f']) (ofDigits 16 ['1', 'f']) :=
    .hexadecimal (.inr rfl) (by decide) (List.all_eq_true.1 (by decide))
  have hwidth : SpellsWidth (':' :: ['0', '8']) (some (ofDigits 10 ['0', '8'])) :=
    .some (by decide) (List.all_eq_true.1 (by decide)) (by decide)
  exact .negative hmagnitude hwidth

theorem Reader.spellsLiteral_decimal : SpellsLiteral ['4'] ⟨4, none⟩ := by
  have hmagnitude : SpellsMagnitude ['4'] (ofDigits 10 ['4']) :=
    .decimal (by decide) (List.all_eq_true.1 (by decide))
  exact .positive hmagnitude .none

/-- A negative number in base sixteen, with a leading zero in its width, behind an ideographic
space, and three pairs of parentheses that touch their neighbours. -/
def Reader.Layout.touching : Layout := [
  .token .opening _ .opening, .token (.name ⟨"f"⟩) ['f'] (.name (by decide)),
  .blank '\u3000' (by decide),
  .token (.number ⟨-31, some 8⟩) "-0X1f:08".toList (.number spellsLiteral_hexadecimal),
  .token .opening _ .opening, .blank ' ' (by decide),
  .token (.name ⟨"neg"⟩) "neg".toList (.name (by decide)), .blank ' ' (by decide),
  .token (.name ⟨"x"⟩) ['x'] (.name (by decide)), .token .closing _ .closing,
  .token .opening _ .opening,
  .token (.number ⟨4, none⟩) ['4'] (.number spellsLiteral_decimal),
  .token .closing _ .closing, .token .closing _ .closing, .blank '\n' (by decide)]

theorem Expr.read_touching : Layout.touching.text = "(f\u3000-0X1f:08( neg x)(4))\n" ∧
    Layout.touching.Separated ∧ Expr.read Layout.touching.text = .ok (.app ⟨"f"⟩
      [.literal ⟨-31, some 8⟩, .app ⟨"neg"⟩ [.ident ⟨"x"⟩], .literal ⟨4, none⟩]) := by
  have hsep : Layout.touching.Separated := by decide
  have hneg := Writes.app ⟨"neg"⟩ (.cons (.ident ⟨"x"⟩) .nil)
  have hwrites := Writes.app ⟨"f"⟩
    (.cons (.literal ⟨-31, some 8⟩) (.cons hneg (.cons (.enclosed ⟨4, none⟩) .nil)))
  exact ⟨by decide, hsep, read_of_separated hsep hwrites⟩

end BitSynth
