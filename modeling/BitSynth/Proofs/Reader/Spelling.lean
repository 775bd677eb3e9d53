import BitSynth.Proofs.Reader.Token

/-!
# Spellings

Which texts spell an expression, and that the reader takes them. Any white space may stand between
two tokens, and some has to unless one of the tokens is a parenthesis.
-/

namespace BitSynth

open Text

namespace Reader

mutual

/-- The text spells the expression, a literal perhaps in parentheses of its own. -/
inductive Spells : List Char → Expr → Prop
  | ident {cs : List Char} (hcs : Ident.isSpelling cs = true) :
      Spells cs (.ident ⟨String.ofList cs⟩)
  | literal {cs : List Char} {l : Literal} (hl : SpellsLiteral cs l) : Spells cs (.literal l)
  | number {us cs vs : List Char} {l : Literal} (hus : Blank us) (hl : SpellsLiteral cs l)
      (hvs : Blank vs) : Spells ('(' :: (us ++ (cs ++ vs) ++ [')'])) (.literal l)
  | app {us cs vs ds : List Char} {args : List Expr} (hus : Blank us)
      (hcs : Ident.isSpelling cs = true) (hvs : Blank vs) (hargs : SpellsArgs ds args)
      (hsep : Delimited (vs ++ ds)) :
      Spells ('(' :: (us ++ (cs ++ vs) ++ ds ++ [')'])) (.app ⟨String.ofList cs⟩ args)

/-- The text spells the arguments, each with the white space behind it. What stands in parentheses
needs none. -/
inductive SpellsArgs : List Char → List Expr → Prop
  | nil : SpellsArgs [] []
  | cons {cs vs ds : List Char} {a : Expr} {args : List Expr} (harg : Spells cs a) (hvs : Blank vs)
      (hargs : SpellsArgs ds args) (hsep : cs.head? = some '(' ∨ Delimited (vs ++ ds)) :
      SpellsArgs (cs ++ vs ++ ds) (a :: args)

end

variable {cs ds rest : List Char} {e : Expr} {args : List Expr}

theorem not_mem_whiteSpace_of_isContinue {c : Char} (h : Ident.isContinue c = true) :
    c ∉ whiteSpace := fun hspace => by
  rw [isContinue_of_delimits (.inl hspace)] at h
  cases h

theorem SpellsLiteral.exists_cons {l : Literal} (h : SpellsLiteral cs l) :
    ∃ c ds, cs = c :: ds ∧ (c = '-' ∨ c.isDigit = true) := by
  cases h with
  | positive hn hw =>
    obtain ⟨d, ds, rfl, hd⟩ := hn.exists_cons
    exact ⟨d, _, rfl, .inr hd⟩
  | negative hn hw => exact ⟨'-', _, rfl, .inl rfl⟩

theorem SpellsLiteral.head (h : ∃ l, SpellsLiteral cs l) :
    ∃ c ds, cs = c :: ds ∧ c ∉ whiteSpace ∧ c ≠ '(' := by
  obtain ⟨l, h⟩ := h
  obtain ⟨c, ds, rfl, rfl | hc⟩ := h.exists_cons
  · exact ⟨'-', ds, rfl, by decide, by decide⟩
  · refine ⟨c, ds, rfl, not_mem_whiteSpace_of_isContinue (isContinue_of_isDigit hc), ?_⟩
    rintro rfl
    cases hc

theorem Spells.exists_cons (h : Spells cs e) : ∃ c ds, cs = c :: ds ∧ c ∉ whiteSpace := by
  cases h with
  | ident hcs =>
    obtain ⟨c, ds, rfl, hc⟩ := exists_cons_of_isSpelling hcs
    exact ⟨c, ds, rfl, not_mem_whiteSpace_of_isContinue (Ident.isContinue_of_isStart hc)⟩
  | literal hl =>
    obtain ⟨c, ds, rfl, hc, -⟩ := SpellsLiteral.head ⟨_, hl⟩
    exact ⟨c, ds, rfl, hc⟩
  | number => exact ⟨'(', _, rfl, by decide⟩
  | app => exact ⟨'(', _, rfl, by decide⟩

theorem Spells.ne_nil (h : Spells cs e) : cs ≠ [] := by
  obtain ⟨c, ds, rfl, -⟩ := h.exists_cons
  exact List.cons_ne_nil c ds

theorem Spells.noSpace (h : Spells cs e) (rest : List Char) : NoSpace (cs ++ rest) := by
  obtain ⟨c, ds, rfl, hc⟩ := h.exists_cons
  exact forall_mem_head?_cons hc (ds ++ rest)

theorem noSpace_paren (rest : List Char) : NoSpace (')' :: rest) :=
  forall_mem_head?_cons (by decide) rest

theorem delimited_paren (rest : List Char) : Delimited (')' :: rest) :=
  forall_mem_head?_cons (.inr (.inr rfl)) rest

theorem SpellsArgs.noSpace (h : SpellsArgs ds args) (rest : List Char) :
    NoSpace (ds ++ ')' :: rest) := by
  cases h with
  | nil => exact noSpace_paren rest
  | cons harg =>
    rw [List.append_assoc, List.append_assoc]
    exact harg.noSpace _

theorem Delimited.append (h : Delimited cs) (rest : List Char) : Delimited (cs ++ ')' :: rest) := by
  cases cs with
  | nil => exact delimited_paren rest
  | cons c cs => exact h

theorem delimited_of_blank (h : Blank cs) (rest : List Char) : Delimited (cs ++ ')' :: rest) := by
  refine Delimited.append (fun c hc => .inl (h c ?_)) rest
  exact List.mem_of_mem_head? hc

/-! ## Applications -/

section Applications

variable {arg : Reader Expr} {n : Nat}

/-- The reader takes all expressions whose spelling is no longer than that. -/
def TakesUpTo (n : Nat) (arg : Reader Expr) : Prop :=
  ∀ {cs e rest}, Spells cs e → cs.length ≤ n → (cs.head? = some '(' ∨ Delimited rest) →
    arg.Takes cs rest e

theorem takes_args (harg : arg.TakesUpTo n) (hparen : arg.Fails (')' :: rest)) :
    ∀ {args : List Expr} {ds : List Char}, SpellsArgs ds args → ds.length ≤ n →
      (spaced arg).many.Takes ds (')' :: rest) args
  | [], _, h, _ => by
    cases h
    exact Fails.many (Fails.spaced_nil (noSpace_paren rest) hparen)
  | a :: args, _, h, hlen => by
    cases h with
    | @cons cs vs ds _ _ ha hvs hargs hsep =>
      simp only [List.length_append] at hlen
      have hrest := hargs.noSpace rest
      have htakes : arg.Takes cs (vs ++ (ds ++ ')' :: rest)) a := by
        refine harg ha (by omega) (hsep.imp_right fun h => ?_)
        rw [← List.append_assoc]
        exact h.append rest
      have hspaced : (spaced arg).Takes (cs ++ vs) (ds ++ ')' :: rest) a :=
        Takes.spaced_nil hvs (ha.noSpace _) hrest htakes
      exact hspaced.many_cons (by simp [ha.ne_nil]) (takes_args harg hparen hargs (by omega))

theorem takes_application {us vs : List Char} (harg : arg.TakesUpTo n)
    (hparen : arg.Fails (')' :: rest)) (hus : Blank us) (hcs : Ident.isSpelling cs = true)
    (hvs : Blank vs) (hargs : SpellsArgs ds args) (hsep : Delimited (vs ++ ds))
    (hlen : ds.length ≤ n) :
    (application arg).Takes (us ++ (cs ++ vs) ++ ds) (')' :: rest)
      ⟨⟨String.ofList cs⟩, args⟩ := by
  have hident : ident.Takes cs (vs ++ (ds ++ ')' :: rest)) ⟨String.ofList cs⟩ := by
    refine takes_ident hcs (Delimited.isContinue ?_)
    rw [← List.append_assoc]
    exact hsep.append rest
  have hnoSpace : NoSpace (cs ++ (vs ++ (ds ++ ')' :: rest))) :=
    Spells.noSpace (.ident hcs) _
  exact Takes.bind (Takes.spaced hus hvs hnoSpace (hargs.noSpace rest) hident)
    ((takes_args harg hparen hargs hlen).bind_pure (App.mk ⟨String.ofList cs⟩))

end Applications

/-! ## Expressions -/

theorem fails_parenthesized {arg : Reader Expr} {c : Char} (h : c ≠ '(') (cs : List Char) :
    (parenthesized arg).Fails (c :: cs) := Fails.named (fails_char_cons h cs).bind

theorem exprWithin_succ (n : Nat) : exprWithin (n + 1) = named .expression
    (parenthesized (exprWithin n) <|> (Expr.literal <$> literal) <|> (Expr.ident <$> ident)) := rfl

theorem fails_exprWithin_paren (rest : List Char) (n : Nat) :
    (exprWithin n).Fails (')' :: rest) := by
  cases n with
  | zero => exact fun _ f => ⟨f, rfl⟩
  | succ n =>
    have hparen : (parenthesized (exprWithin n)).Fails (')' :: rest) :=
      fails_parenthesized (by decide) rest
    have hliteral : literal.Fails (')' :: rest) :=
      fails_literal (forall_mem_head?_cons (by decide) rest)
    have hident : ident.Fails (')' :: rest) :=
      fails_ident (forall_mem_head?_cons (by decide) rest)
    rw [exprWithin_succ]
    exact Fails.named (hparen.orElse ((hliteral.map Expr.literal).orElse (hident.map Expr.ident)))

theorem Takes.enclosed {α : Type} {p : Reader α} {a : α} (hp : p.Takes cs (')' :: rest) a) :
    (do char '('; let b ← p; char ')'; return b : Reader α).Takes
      ('(' :: (cs ++ [')'])) rest a := by
  have hp : p.Takes cs ([')'] ++ rest) a := hp
  exact (takes_char '(').cons_bind (hp.bind ((takes_char ')').bind_pure fun _ => a))

/-- The depth bounds the length: an expression in parentheses is two characters longer than what is
in them, so its arguments are short enough for the next depth. -/
theorem takesUpTo_exprWithin (n : Nat) : (exprWithin n).TakesUpTo n := by
  induction n with
  | zero =>
    intro cs e rest h hlen _
    exact absurd (List.length_eq_zero_iff.1 (Nat.le_zero.1 hlen)) h.ne_nil
  | succ n ih =>
    intro cs e rest h hlen hrest
    rw [exprWithin_succ]
    refine Takes.named ?_
    cases h with
    | @ident cs hcs =>
      obtain ⟨c, ds, rfl, hc⟩ := exists_cons_of_isSpelling hcs
      have hparen : c ≠ '(' := by
        rintro rfl
        cases hc
      have hdelimited : Delimited rest := hrest.resolve_left (by simp [hparen])
      have hfails : (parenthesized (exprWithin n)).Fails (c :: ds ++ rest) :=
        fails_parenthesized hparen (ds ++ rest)
      refine hfails.orElse_takes ?_
      refine ((fails_literal_of_isStart hc (ds ++ rest)).map Expr.literal).orElse_takes ?_
      exact (takes_ident hcs hdelimited.isContinue).map Expr.ident
    | @literal cs l hl =>
      obtain ⟨c, ds, rfl, -, hparen⟩ := SpellsLiteral.head ⟨l, hl⟩
      have hdelimited : Delimited rest := hrest.resolve_left (by simp [hparen])
      have hfails : (parenthesized (exprWithin n)).Fails (c :: ds ++ rest) :=
        fails_parenthesized hparen (ds ++ rest)
      exact hfails.orElse_takes (Takes.orElse ((takes_literal hl hdelimited).map Expr.literal))
    | @number us cs vs l hus hl hvs =>
      have hliteral : literal.Takes cs (vs ++ ')' :: rest) l :=
        takes_literal hl (delimited_of_blank hvs rest)
      have hspaced : (spaced literal).Takes (us ++ (cs ++ vs)) (')' :: rest) l :=
        Takes.spaced hus hvs (Spells.noSpace (.literal hl) _) (noSpace_paren rest) hliteral
      exact Takes.orElse (Takes.named (hspaced.map Expr.literal).orElse.enclosed)
    | @app us cs vs ds args hus hcs hvs hargs hsep =>
      -- what begins with a name is no number in parentheses
      simp only [List.length_cons, List.length_append, List.length_nil] at hlen
      have hfails : (Expr.literal <$> spaced literal).Fails
          (us ++ (cs ++ vs) ++ ds ++ ')' :: rest) := by
        simp only [List.append_assoc]
        refine Fails.map (Fails.spaced hus (Spells.noSpace (.ident hcs) _) ?_) _
        obtain ⟨c, cs, rfl, hc⟩ := exists_cons_of_isSpelling hcs
        exact fails_literal_of_isStart hc _
      have happlication : (application (exprWithin n)).Takes (us ++ (cs ++ vs) ++ ds)
          (')' :: rest) ⟨⟨String.ofList cs⟩, args⟩ :=
        takes_application ih (fails_exprWithin_paren rest n) hus hcs hvs hargs hsep (by omega)
      exact Takes.orElse (Takes.named (hfails.orElse_takes (happlication.map App.toExpr)).enclosed)

theorem takes_expr (h : Spells cs e) (hrest : cs.head? = some '(' ∨ Delimited rest) :
    expr.Takes cs rest e := fun offset f =>
  takesUpTo_exprWithin _ h (by simp only [List.length_append]; omega) hrest offset f

theorem fails_expr_paren (rest : List Char) : expr.Fails (')' :: rest) := fun offset f =>
  fails_exprWithin_paren rest _ offset f

/-- A form is taken wherever it is an expression that would be taken. -/
theorem takes_form {op : Ident} (h : Spells cs (.app op args)) : form.Takes cs rest ⟨op, args⟩ := by
  cases h with
  | app hus hcs hvs hargs hsep =>
    have happlication := takes_application (fun h _ hrest => takes_expr h hrest)
      (fails_expr_paren rest) hus hcs hvs hargs hsep (Nat.le_refl _)
    exact Takes.named happlication.enclosed

end Reader

end BitSynth
