import BitSynth.Proofs.Reader.Spelling
import BitSynth.Proofs.Text.Decimal

/-!
# Printing

An expression is valid if its names can be written and its widths fit. The text of a valid expression
is a spelling of it.
-/

namespace BitSynth

open Text

/-- The width is a number of 32 bits. -/
def Literal.Valid (l : Literal) : Prop := ∀ w ∈ l.width, w < Bits.modulus 32

instance (l : Literal) : Decidable l.Valid :=
  inferInstanceAs (Decidable (∀ w ∈ l.width, w < Bits.modulus 32))

namespace Expr

mutual

/-- All names in the expression can be written and all widths in it fit. -/
def Valid : Expr → Prop
  | .ident x => x.Valid
  | .literal l => l.Valid
  | .app op args => op.Valid ∧ AllValid args

def AllValid : List Expr → Prop
  | [] => True
  | e :: es => e.Valid ∧ AllValid es

end

mutual

instance decidableValid : (e : Expr) → Decidable e.Valid
  | .ident x => inferInstanceAs (Decidable x.Valid)
  | .literal l => inferInstanceAs (Decidable l.Valid)
  | .app op args =>
    have := decidableAllValid args
    inferInstanceAs (Decidable (op.Valid ∧ AllValid args))

instance decidableAllValid : (es : List Expr) → Decidable (AllValid es)
  | [] => inferInstanceAs (Decidable True)
  | e :: es =>
    have := decidableValid e
    have := decidableAllValid es
    inferInstanceAs (Decidable (e.Valid ∧ AllValid es))

end

theorem allValid_iff {es : List Expr} : AllValid es ↔ ∀ e ∈ es, e.Valid := by
  induction es with
  | nil => simp [AllValid]
  | cons e es ih => simp [AllValid, ih]

end Expr

namespace Reader

/-! ## Printing -/

theorem spellsMagnitude_toDigits (n : Nat) : SpellsMagnitude (toDigits 10 n) n := by
  have h : SpellsMagnitude (toDigits 10 n) (ofDigits 10 (toDigits 10 n)) :=
    .decimal Nat.toDigits_ne_nil fun _ hd => isDigit_of_mem_toDigits hd
  rwa [ofDigits_toDigits (by decide) (by decide)] at h

theorem spellsWidth_toDigits {w : Nat} (h : w < Bits.modulus 32) :
    SpellsWidth (':' :: toDigits 10 w) (some w) := by
  have hread : ofDigits 10 (toDigits 10 w) = w := ofDigits_toDigits (by decide) (by decide)
  have hw : SpellsWidth (':' :: toDigits 10 w) (some (ofDigits 10 (toDigits 10 w))) := by
    refine .some Nat.toDigits_ne_nil (fun _ hd => isDigit_of_mem_toDigits hd) ?_
    rwa [hread]
  rwa [hread] at hw

theorem spellsLiteral_text {l : Literal} (h : l.Valid) : SpellsLiteral l.text.toList l := by
  obtain ⟨v, w⟩ := l
  have hwidth : ∃ ws, (Literal.text ⟨v, w⟩).toList = (toString v).toList ++ ws
      ∧ SpellsWidth ws w := by
    cases w with
    | none => exact ⟨[], (List.append_nil _).symm, .none⟩
    | some w =>
      refine ⟨':' :: toDigits 10 w, ?_, spellsWidth_toDigits (h w rfl)⟩
      simp [Literal.text, ← toList_toString_nat]
  obtain ⟨ws, htext, hw⟩ := hwidth
  have hn := spellsMagnitude_toDigits v.natAbs
  rw [htext, toList_toString_int]
  split_ifs with hv
  · have hl := SpellsLiteral.negative hn hw
    rwa [show -(v.natAbs : Int) = v by omega] at hl
  · have hl := SpellsLiteral.positive hn hw
    rwa [show (v.natAbs : Int) = v by omega] at hl

mutual

theorem spells_text : ∀ {e : Expr}, e.Valid → Spells e.text.toList e
  | .ident x, h => by
    have hx := Spells.ident h
    rwa [String.ofList_toList] at hx
  | .literal l, h => .literal (spellsLiteral_text h)
  | .app op args, h => by
    obtain ⟨vs, ds, htext, hvs, hargs, hsep⟩ := spellsArgs_textArgs h.2
    have happ := Spells.app (List.forall_mem_nil _) h.1 hvs hargs hsep
    rw [String.ofList_toList] at happ
    have heq : (Expr.app op args).text.toList
        = '(' :: ([] ++ (op.name.toList ++ vs) ++ ds ++ [')']) := by
      simp [Expr.text, htext]
    rwa [heq]

/-- Each argument is printed behind a space, so that the spaces stand where the spelling has them:
before the first argument and behind each of the others. -/
theorem spellsArgs_textArgs : ∀ {es : List Expr}, Expr.AllValid es →
    ∃ vs ds, (Expr.textArgs es).toList = vs ++ ds ∧ Blank vs ∧ SpellsArgs ds es
      ∧ Delimited (vs ++ ds)
  | [], _ => ⟨[], [], rfl, List.forall_mem_nil _, .nil, by rintro c ⟨⟩⟩
  | e :: es, h => by
    obtain ⟨vs, ds, htext, hvs, hargs, hsep⟩ := spellsArgs_textArgs h.2
    have hspace : ' ' ∈ whiteSpace := by decide
    refine ⟨[' '], e.text.toList ++ vs ++ ds, ?_, by simp [Blank, hspace],
      .cons (spells_text h.1) hvs hargs (.inr hsep), forall_mem_head?_cons (.inl hspace) _⟩
    simp [Expr.textArgs, htext]

end

end Reader

end BitSynth
