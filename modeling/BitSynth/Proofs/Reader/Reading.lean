import BitSynth.Proofs.Reader.Layout
import BitSynth.Proofs.Reader.Printing

/-!
# What is read

A reader of numbers, names or expressions makes them only of texts that spell them. So whatever
expression is read, the text is a layout of its tokens (`follows_expr`), and the names and widths in
it are valid (`valid_of_writes`).
-/

namespace BitSynth

open Text

namespace Reader

/-! ## Numbers and names -/

theorem follows_magnitude : magnitude.Follows SpellsMagnitude := by
  have hhex : hexadecimal.Follows SpellsMagnitude := by
    refine Follows.named ((follows_char '0').bind fun _ _ hzero =>
      (follows_oneOf ['x', 'X']).bind fun _ x hx => (follows_run1 hexDigit).bind_pure
        fun _ ds hds => ?_)
    obtain ⟨rfl, hx⟩ := hx
    obtain ⟨rfl, hne, hds⟩ := hds
    rw [hzero]
    exact .hexadecimal (by simpa using hx) hne hds
  have hbinary : binary.Follows SpellsMagnitude := by
    have hdigits : (many1 (oneOf ['0', '1'])).Follows fun cs ds =>
        ds ≠ [] ∧ cs = ds ∧ ∀ d ∈ ds, isBinaryDigit d = true := by
      refine (follows_oneOf ['0', '1']).many1 ⟨rfl, List.forall_mem_nil _⟩ ?_
      rintro _ d _ ds ⟨rfl, hd⟩ ⟨rfl, hds⟩
      exact ⟨rfl, List.forall_mem_cons.2 ⟨by simpa [isBinaryDigit] using hd, hds⟩⟩
    refine Follows.named ((follows_char '0').bind fun _ _ hzero =>
      (follows_oneOf ['b', 'B']).bind fun _ b hb => hdigits.bind_pure fun _ ds hds => ?_)
    obtain ⟨rfl, hb⟩ := hb
    obtain ⟨hne, rfl, hds⟩ := hds
    rw [hzero]
    exact .binary (by simpa using hb) hne hds
  have hdecimal : decimal.Follows SpellsMagnitude := by
    refine Follows.named ((follows_run1 digit).bind_pure fun _ ds hds => ?_)
    obtain ⟨rfl, hne, hds⟩ := hds
    exact .decimal hne hds
  exact Follows.apart (hhex.orElse (hbinary.orElse hdecimal))

theorem follows_widthNumber : widthNumber.Follows fun ds w => SpellsWidth (':' :: ds) (some w) := by
  intro c f w c' f' h
  unfold widthNumber at h
  split at h
  · cases h
  · rename_i ds c₁ f₁ hrun
    split_ifs at h with hlt
    · obtain ⟨⟨⟨rfl, rfl⟩⟩, -⟩ := Prod.mk.inj h
      obtain ⟨_, hbetween, rfl, hne, hds⟩ := follows_run1 digit _ _ _ _ _ hrun
      exact ⟨_, hbetween, .some hne hds hlt⟩
    · cases h

theorem follows_optional_bitWidth : bitWidth.optional.Follows SpellsWidth := by
  have hwidth : bitWidth.Follows fun cs w => SpellsWidth cs (some w) := by
    refine Follows.named ((follows_char ':').bind fun _ _ hcolon => ?_)
    rw [hcolon]
    exact follows_widthNumber
  exact hwidth.optional .none fun _ _ h => h

theorem follows_literal : literal.Follows SpellsLiteral := by
  have hsign : (char '-').optional.Follows fun cs sign =>
      cs = if sign.isSome then ['-'] else [] :=
    (follows_char '-').optional rfl fun _ _ h => h
  refine Follows.named (hsign.bind fun cs sign hsign => follows_magnitude.bind fun ds n hn =>
    follows_optional_bitWidth.bind_pure fun ws w hw => ?_)
  have hpositive : SpellsLiteral (ds ++ ws) ⟨n, w⟩ := .positive hn hw
  have hnegative : SpellsLiteral ('-' :: (ds ++ ws)) ⟨-(n : Int), w⟩ := .negative hn hw
  rw [hsign]
  cases sign with
  | none => exact hpositive
  | some _ => exact hnegative

theorem follows_ident : ident.Follows fun cs x =>
    Ident.isSpelling cs = true ∧ x = ⟨String.ofList cs⟩ := by
  refine Follows.named ((follows_charOf identStart).bind fun _ c hc =>
    (follows_run identContinue).bind_pure fun _ cs hcs => ?_)
  obtain ⟨rfl, hc⟩ := hc
  obtain ⟨rfl, hcs⟩ := hcs
  refine ⟨?_, rfl⟩
  rw [List.singleton_append, Ident.isSpelling, Bool.and_eq_true, List.all_eq_true]
  exact ⟨hc, hcs⟩

/-! ## Tokens -/

section Tokens

variable {α : Type} {P Q : List Lexeme → α → Prop} {p : Reader α}

/-- The characters have a layout whose tokens are related to the value. -/
def Lays (P : List Lexeme → α → Prop) (cs : List Char) (a : α) : Prop :=
  ∃ l : Layout, l.chars = cs ∧ P l.lexemes a

theorem exists_layout_of_blank : ∀ {cs : List Char}, Blank cs →
    ∃ l : Layout, l.chars = cs ∧ l.lexemes = []
  | [], _ => ⟨[], rfl, rfl⟩
  | c :: cs, h => by
    obtain ⟨hc, hcs⟩ := List.forall_mem_cons.1 h
    obtain ⟨l, rfl, hl⟩ := exists_layout_of_blank hcs
    exact ⟨.blank c hc :: l, rfl, hl⟩

theorem lays_token {t : Lexeme} {cs : List Char} {a : α} (h : t.SpelledBy cs) (ha : P [t] a) :
    Lays P cs a := ⟨[.token t cs h], List.append_nil cs, ha⟩

/-- White space around the layout adds no token. -/
theorem Follows.spaced_lays (hp : p.Follows (Lays P)) : (Reader.spaced p).Follows (Lays P) := by
  refine hp.spaced fun us cs vs a hus ha hvs => ?_
  obtain ⟨l, rfl, ha⟩ := ha
  obtain ⟨b, rfl, hb⟩ := exists_layout_of_blank hus
  obtain ⟨b', rfl, hb'⟩ := exists_layout_of_blank hvs
  refine ⟨b ++ (l ++ b'), by simp only [Layout.chars_append], ?_⟩
  rwa [Layout.lexemes_append, Layout.lexemes_append, hb, hb', List.nil_append, List.append_nil]

theorem Follows.enclosed (hp : p.Follows (Lays P))
    (h : ∀ ts a, P ts a → Q (.opening :: (ts ++ [.closing])) a) :
    (do char '('; let a ← p; char ')'; return a : Reader α).Follows (Lays Q) := by
  refine (follows_char '(').bind fun _ _ hopening => hp.bind fun _ a ha =>
    (follows_char ')').bind_pure fun _ _ hclosing => ?_
  obtain ⟨l, rfl, ha⟩ := ha
  rw [hopening, hclosing]
  exact ⟨.token _ _ .opening :: (l ++ [.token _ _ .closing]), by simp [Piece.chars],
    by simpa [Layout.lexemes, Piece.lexeme?] using h _ a ha⟩

end Tokens

/-! ## Expressions -/

variable {arg : Reader Expr}

theorem follows_lays_literal : literal.Follows (Lays fun ts l => ts = [.number l]) :=
  fun c f l c' f' h => by
    obtain ⟨cs, hbetween, hl⟩ := follows_literal c f l c' f' h
    exact ⟨cs, hbetween, lays_token (.number hl) rfl⟩

theorem follows_lays_ident : ident.Follows (Lays fun ts x => ts = [.name x]) :=
  fun c f x c' f' h => by
    obtain ⟨cs, hbetween, hx, rfl⟩ := follows_ident c f x c' f' h
    exact ⟨cs, hbetween, lays_token (.name hx) rfl⟩

theorem follows_application (harg : arg.Follows (Lays Writes)) : (application arg).Follows
    (Lays fun ts a => ∃ us, ts = .name a.op :: us ∧ WritesAll us a.args) := by
  have hargs : (spaced arg).many.Follows (Lays WritesAll) := by
    refine harg.spaced_lays.many ⟨[], rfl, .nil⟩ ?_
    rintro _ a _ as ⟨l, rfl, ha⟩ ⟨l', rfl, has⟩
    exact ⟨l ++ l', Layout.chars_append l l', (Layout.lexemes_append l l').symm ▸ .cons ha has⟩
  refine follows_lays_ident.spaced_lays.bind fun _ op hop => hargs.bind_pure fun _ as has => ?_
  obtain ⟨l, rfl, hl⟩ := hop
  obtain ⟨l', rfl, hl'⟩ := has
  exact ⟨l ++ l', Layout.chars_append l l', l'.lexemes, by rw [Layout.lexemes_append, hl]; rfl, hl'⟩

/-- The tokens of what was taken write the expression, however deep its parentheses are nested. -/
theorem follows_exprWithin (n : Nat) : (exprWithin n).Follows (Lays Writes) := by
  induction n with
  | zero =>
    intro c f e c' f' h
    cases h
  | succ n ih =>
    have hinner : ((Expr.literal <$> spaced literal) <|>
        (App.toExpr <$> application (exprWithin n))).Follows
          (Lays fun ts e => Writes (.opening :: (ts ++ [.closing])) e) := by
      refine Follows.orElse (follows_lays_literal.spaced_lays.map ?_)
        ((follows_application ih).map ?_)
      · rintro _ l ⟨k, rfl, hk⟩
        exact ⟨k, rfl, hk ▸ .enclosed l⟩
      · rintro _ a ⟨k, rfl, us, hk, hargs⟩
        exact ⟨k, rfl, hk ▸ .app a.op hargs⟩
    have hparen : (parenthesized (exprWithin n)).Follows (Lays Writes) :=
      Follows.named (hinner.enclosed fun _ _ h => h)
    rw [exprWithin_succ]
    refine Follows.named (hparen.orElse
      (Follows.orElse (follows_lays_literal.map ?_) (follows_lays_ident.map ?_)))
    · rintro _ l ⟨k, rfl, hk⟩
      exact ⟨k, rfl, hk ▸ .literal l⟩
    · rintro _ x ⟨k, rfl, hk⟩
      exact ⟨k, rfl, hk ▸ .ident x⟩

theorem follows_expr : expr.Follows (Lays Writes) := fun c f e c' f' h =>
  follows_exprWithin _ c f e c' f' h

theorem follows_form : form.Follows (Lays fun ts a => Writes ts a.toExpr) :=
  Follows.named ((follows_application follows_expr).enclosed fun _ a ⟨_, hts, hargs⟩ =>
    hts ▸ .app a.op hargs)

/-! ## Validity -/

theorem SpellsWidth.lt {ws : List Char} {w : Option Nat} (h : SpellsWidth ws w) :
    ∀ n ∈ w, n < Bits.modulus 32 := by
  cases h with
  | none => rintro n ⟨⟩
  | some _ _ hlt =>
    rintro n ⟨⟩
    exact hlt

theorem SpellsLiteral.valid {cs : List Char} {l : Literal} (h : SpellsLiteral cs l) : l.Valid := by
  cases h with
  | positive _ hw => exact hw.lt
  | negative _ hw => exact hw.lt

namespace Layout

variable {l : Layout}

theorem exists_spelledBy {t : Lexeme} (h : t ∈ l.lexemes) : ∃ cs, t.SpelledBy cs := by
  obtain ⟨p, -, hp⟩ := List.mem_filterMap.1 h
  cases p with
  | blank c hc => cases hp
  | token t' cs ht =>
    obtain rfl := Option.some.inj hp
    exact ⟨cs, ht⟩

theorem valid_of_name_mem {x : Ident} (h : .name x ∈ l.lexemes) : x.Valid := by
  obtain ⟨cs, hcs⟩ := exists_spelledBy h
  cases hcs with
  | name hcs => rwa [Ident.Valid, String.toList_ofList]

theorem valid_of_number_mem {k : Literal} (h : .number k ∈ l.lexemes) : k.Valid := by
  obtain ⟨cs, hcs⟩ := exists_spelledBy h
  cases hcs with
  | number hcs => exact hcs.valid

end Layout

mutual

/-- Tokens that stand in some layout write valid expressions only. -/
theorem valid_of_writes {l : Layout} : ∀ {e : Expr} {ts : List Lexeme}, Writes ts e →
    (∀ t ∈ ts, t ∈ l.lexemes) → e.Valid
  | .ident x, _, .ident _, h => Layout.valid_of_name_mem (h _ (by simp))
  | .literal k, _, .literal _, h => Layout.valid_of_number_mem (h _ (by simp))
  | .literal k, _, .enclosed _, h => Layout.valid_of_number_mem (h _ (by simp))
  | .app op args, _, .app _ hargs, h => by
    simp only [List.forall_mem_cons, List.forall_mem_append] at h
    obtain ⟨-, hop, hts, -⟩ := h
    exact ⟨Layout.valid_of_name_mem hop, allValid_of_writesAll hargs hts⟩

theorem allValid_of_writesAll {l : Layout} : ∀ {es : List Expr} {ts : List Lexeme},
    WritesAll ts es → (∀ t ∈ ts, t ∈ l.lexemes) → Expr.AllValid es
  | [], _, _, _ => trivial
  | e :: es, _, .cons he hes, h => by
    rw [List.forall_mem_append] at h
    exact ⟨valid_of_writes he h.1, allValid_of_writesAll hes h.2⟩

end

end Reader

open Reader

/-- The forms that are read from a text are valid expressions. -/
theorem App.valid_of_readAll {text : String} {forms : List App} (h : readAll text = .ok forms) :
    ∀ a ∈ forms, a.toExpr.Valid := by
  have hform : (spaced form).Follows fun _ a => a.toExpr.Valid := fun c f a c' f' h => by
    obtain ⟨cs, hbetween, l, -, hl⟩ := follows_form.spaced_lays c f a c' f' h
    exact ⟨cs, hbetween, valid_of_writes hl fun _ ht => ht⟩
  have hforms : (many1 (spaced form)).Follows fun _ as => as ≠ [] ∧ ∀ a ∈ as, a.toExpr.Valid :=
    hform.many1 (List.forall_mem_nil _) fun _ _ _ _ ha has => List.forall_mem_cons.2 ⟨ha, has⟩
  exact (hforms.parse h).2

/-- Whatever expression is read, the text can be cut into white space and the tokens of the
expression: each character that is no white space belongs to one of them. -/
theorem Expr.exists_layout_of_read {text : String} {e : Expr} (h : Expr.read text = .ok e) :
    ∃ l : Layout, l.text = text ∧ l.tokens.chars = text.toList.filter (· ∉ whiteSpace) ∧
      Writes l.lexemes e := by
  obtain ⟨l, hl, hwrites⟩ := Follows.parse follows_expr.spaced_lays h
  refine ⟨l, ?_, ?_, hwrites⟩
  · rw [Layout.text, hl, String.ofList_toList]
  · rw [← hl, Layout.chars_tokens]

/-- Tokens that touch: two numbers, of which the first ends where no binary digit follows, a name
and a number with a sign. -/
theorem Expr.exists_layout_binaryDigits : ∃ e l,
    Expr.read "(f 0b12x-5:8 (07))" = .ok e ∧ Layout.text l = "(f 0b12x-5:8 (07))" ∧
      l.tokens.chars = "(f0b12x-5:8(07))".toList ∧ Writes l.lexemes e := by
  have hread : Expr.read "(f 0b12x-5:8 (07))" = .ok (.app ⟨"f"⟩ [.literal ⟨1, none⟩,
      .literal ⟨2, none⟩, .ident ⟨"x"⟩, .literal ⟨-5, some 8⟩, .literal ⟨7, none⟩]) := by
    decide +kernel
  obtain ⟨l, htext, htokens, hwrites⟩ := exists_layout_of_read hread
  exact ⟨_, l, hread, htext, htokens.trans (by decide), hwrites⟩

end BitSynth
