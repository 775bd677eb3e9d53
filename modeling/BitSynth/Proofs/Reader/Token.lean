import BitSynth.Proofs.Reader.Combinators
import BitSynth.Proofs.Text.Classes
import BitSynth.Reader.Grammar

/-!
# Tokens

Which texts spell a number or a name, and that the readers take them. A token ends where white space
or a parenthesis begins.
-/

namespace BitSynth

open Text

namespace Reader

variable {cs rest : List Char}

/-- The text ends or goes on with white space or a parenthesis. -/
def Delimited (rest : List Char) : Prop := ∀ c ∈ rest.head?, Delimits c

def Blank (cs : List Char) : Prop := ∀ c ∈ cs, c ∈ whiteSpace

theorem Delimited.isContinue (h : Delimited rest) :
    ∀ c ∈ rest.head?, Ident.isContinue c = false := fun c hc => isContinue_of_delimits (h c hc)

/-! ## Numbers -/

/-- A magnitude is spelled in base sixteen or two behind a mark, or in base ten. -/
inductive SpellsMagnitude : List Char → Nat → Prop
  | hexadecimal {x : Char} {ds : List Char} (hx : x = 'x' ∨ x = 'X') (hne : ds ≠ [])
      (hds : ∀ d ∈ ds, isHexDigit d = true) : SpellsMagnitude ('0' :: x :: ds) (ofDigits 16 ds)
  | binary {b : Char} {ds : List Char} (hb : b = 'b' ∨ b = 'B') (hne : ds ≠ [])
      (hds : ∀ d ∈ ds, isBinaryDigit d = true) : SpellsMagnitude ('0' :: b :: ds) (ofDigits 2 ds)
  | decimal {ds : List Char} (hne : ds ≠ []) (hds : ∀ d ∈ ds, d.isDigit = true) :
      SpellsMagnitude ds (ofDigits 10 ds)

/-- A width of at most 32 bits is spelled behind a colon. -/
inductive SpellsWidth : List Char → Option Nat → Prop
  | none : SpellsWidth [] none
  | some {ds : List Char} (hne : ds ≠ []) (hds : ∀ d ∈ ds, d.isDigit = true)
      (hlt : ofDigits 10 ds < Bits.modulus 32) : SpellsWidth (':' :: ds) (some (ofDigits 10 ds))

inductive SpellsLiteral : List Char → Literal → Prop
  | positive {ds ws : List Char} {n : Nat} {w : Option Nat} (hn : SpellsMagnitude ds n)
      (hw : SpellsWidth ws w) : SpellsLiteral (ds ++ ws) ⟨n, w⟩
  | negative {ds ws : List Char} {n : Nat} {w : Option Nat} (hn : SpellsMagnitude ds n)
      (hw : SpellsWidth ws w) : SpellsLiteral ('-' :: (ds ++ ws)) ⟨-(n : Int), w⟩

theorem isContinue_of_isDigit {c : Char} (h : c.isDigit = true) : Ident.isContinue c = true :=
  isContinue_of_isHexDigit (by simp [isHexDigit, h])

theorem isContinue_of_isBinaryDigit {c : Char} (h : isBinaryDigit c = true) :
    Ident.isContinue c = true := by
  simp only [isBinaryDigit, Bool.or_eq_true, beq_iff_eq] at h
  rcases h with rfl | rfl <;> decide

theorem eq_false_of_isContinue {p : Char → Bool}
    (hp : ∀ {c : Char}, p c = true → Ident.isContinue c = true) {c : Char}
    (hc : Ident.isContinue c = false) : p c = false := by
  cases h : p c with
  | false => rfl
  | true => rw [hp h] at hc; cases hc

theorem takes_many_oneOf {chars : List Char} (hrest : ∀ d ∈ rest.head?, d ∉ chars) :
    ∀ {ds : List Char}, (∀ d ∈ ds, d ∈ chars) → (oneOf chars).many.Takes ds rest ds
  | [], _ => (fails_oneOf hrest).many
  | d :: ds, h => by
    rw [List.forall_mem_cons] at h
    have hd : (oneOf chars).Takes [d] (ds ++ rest) d := takes_oneOf h.1
    exact hd.many_cons (List.cons_ne_nil _ _) (takes_many_oneOf hrest h.2)

/-- Digits without a mark behind the first are no number of another base. -/
theorem fails_marked {α : Type} {marks ds : List Char} {k : Char → Reader α} (hne : ds ≠ [])
    (hds : ∀ d ∈ ds, d.isDigit = true) (hrest : ∀ c ∈ rest.head?, Ident.isContinue c = false)
    (hmarks : marks.all (fun m => Ident.isContinue m && !m.isDigit) = true) :
    (do char '0'; let m ← oneOf marks; k m : Reader α).Fails (ds ++ rest) := by
  obtain ⟨d, ds, rfl⟩ := List.exists_cons_of_ne_nil hne
  rw [List.forall_mem_cons] at hds
  by_cases hd : d = '0'
  · subst hd
    refine (takes_char '0').bind_fails (Fails.bind (fails_oneOf fun c hc hmark => ?_))
    have hboth := List.all_eq_true.1 hmarks c hmark
    rw [Bool.and_eq_true, Bool.not_eq_true'] at hboth
    obtain ⟨hcontinue, hdigit⟩ := hboth
    cases ds with
    | nil =>
      rw [hrest c hc] at hcontinue
      cases hcontinue
    | cons d' ds =>
      obtain rfl : d' = c := Option.some.inj hc
      rw [hds.2 d' (List.mem_cons_self ..)] at hdigit
      cases hdigit
  · exact Fails.bind (fails_char_cons hd (ds ++ rest))

theorem takes_hexadecimal {x : Char} {ds : List Char} (hx : x = 'x' ∨ x = 'X') (hne : ds ≠ [])
    (hds : ∀ d ∈ ds, isHexDigit d = true)
    (hrest : ∀ c ∈ rest.head?, Ident.isContinue c = false) :
    hexadecimal.Takes ('0' :: x :: ds) rest (ofDigits 16 ds) := by
  have hdigits : (run1 hexDigit).Takes ds rest ds := takes_run1 hne hds fun c hc =>
    eq_false_of_isContinue isContinue_of_isHexDigit (hrest c hc)
  exact Takes.named ((takes_char '0').cons_bind ((takes_oneOf (by simpa using hx)).cons_bind
    (hdigits.bind_pure (ofDigits 16))))

theorem fails_hexadecimal {b : Char} (hb : b = 'b' ∨ b = 'B') (cs : List Char) :
    hexadecimal.Fails ('0' :: b :: cs) := by
  have hmark : b ∉ ['x', 'X'] := by
    rcases hb with rfl | rfl <;> decide
  have hmarks := fails_oneOf (forall_mem_head?_cons hmark cs)
  exact Fails.named ((takes_char '0').bind_fails hmarks.bind)

theorem takes_binary {b : Char} {ds : List Char} (hb : b = 'b' ∨ b = 'B') (hne : ds ≠ [])
    (hds : ∀ d ∈ ds, isBinaryDigit d = true)
    (hrest : ∀ c ∈ rest.head?, Ident.isContinue c = false) :
    binary.Takes ('0' :: b :: ds) rest (ofDigits 2 ds) := by
  have hmem {d : Char} : d ∈ ['0', '1'] ↔ isBinaryDigit d = true := by
    simp [isBinaryDigit]
  have hstop : ∀ c ∈ rest.head?, c ∉ ['0', '1'] := by
    intro c hc
    rw [hmem, eq_false_of_isContinue isContinue_of_isBinaryDigit (hrest c hc)]
    exact Bool.false_ne_true
  obtain ⟨d, ds, rfl⟩ := List.exists_cons_of_ne_nil hne
  rw [List.forall_mem_cons] at hds
  have hdigits : (many1 (oneOf ['0', '1'])).Takes ([d] ++ ds) rest (d :: ds) :=
    (takes_oneOf (hmem.2 hds.1)).many1
      (takes_many_oneOf hstop fun d hd => hmem.2 (hds.2 d hd))
  exact Takes.named ((takes_char '0').cons_bind ((takes_oneOf (by simpa using hb)).cons_bind
    (hdigits.bind_pure (ofDigits 2))))

theorem takes_magnitude {n : Nat} (h : SpellsMagnitude cs n)
    (hrest : ∀ c ∈ rest.head?, Ident.isContinue c = false) : magnitude.Takes cs rest n := by
  refine Takes.apart ?_
  cases h with
  | hexadecimal hx hne hds => exact Takes.orElse (takes_hexadecimal hx hne hds hrest)
  | @binary b ds hb hne hds =>
    have hhex : hexadecimal.Fails ('0' :: b :: ds ++ rest) := fails_hexadecimal hb (ds ++ rest)
    exact hhex.orElse_takes (Takes.orElse (takes_binary hb hne hds hrest))
  | decimal hne hds =>
    have hhex : hexadecimal.Fails (cs ++ rest) :=
      Fails.named (fails_marked hne hds hrest (by decide))
    have hbinary : binary.Fails (cs ++ rest) :=
      Fails.named (fails_marked hne hds hrest (by decide))
    have hdigits : (run1 digit).Takes cs rest cs := takes_run1 hne hds fun c hc =>
      eq_false_of_isContinue isContinue_of_isDigit (hrest c hc)
    exact hhex.orElse_takes (hbinary.orElse_takes (Takes.named (hdigits.bind_pure (ofDigits 10))))

theorem takes_widthNumber {ds : List Char} (hne : ds ≠ []) (hds : ∀ d ∈ ds, d.isDigit = true)
    (hlt : ofDigits 10 ds < Bits.modulus 32)
    (hrest : ∀ c ∈ rest.head?, Ident.isContinue c = false) :
    widthNumber.Takes ds rest (ofDigits 10 ds) := by
  intro offset f
  have hdigits : (run1 digit).Takes ds rest ds :=
    takes_run1 hne hds fun c hc => eq_false_of_isContinue isContinue_of_isDigit (hrest c hc)
  obtain ⟨f₁, h₁⟩ := hdigits offset none
  refine ⟨rejoin f₁ f, ?_⟩
  unfold widthNumber
  rw [h₁]
  exact if_pos hlt

theorem takes_optional_bitWidth {ws : List Char} {w : Option Nat} (h : SpellsWidth ws w)
    (hrest : Delimited rest) : bitWidth.optional.Takes ws rest w := by
  cases h with
  | none =>
    exact Fails.optional (Fails.named (Fails.bind (fails_char fun c hc =>
      ne_colon_of_delimits (hrest c hc))))
  | some hne hds hlt =>
    have hnumber := takes_widthNumber hne hds hlt hrest.isContinue
    exact Takes.optional (Takes.named ((takes_char ':').cons_bind hnumber))

theorem SpellsMagnitude.exists_cons {n : Nat} (h : SpellsMagnitude cs n) :
    ∃ d ds, cs = d :: ds ∧ d.isDigit = true := by
  cases h with
  | hexadecimal => exact ⟨_, _, rfl, by decide⟩
  | binary => exact ⟨_, _, rfl, by decide⟩
  | decimal hne hds =>
    obtain ⟨d, ds, rfl⟩ := List.exists_cons_of_ne_nil hne
    exact ⟨d, ds, rfl, hds d (List.mem_cons_self ..)⟩

theorem takes_literal {l : Literal} (h : SpellsLiteral cs l) (hrest : Delimited rest) :
    literal.Takes cs rest l := by
  -- the width or what follows it ends the digits
  have hwidth {ws : List Char} {w : Option Nat} (hw : SpellsWidth ws w) :
      ∀ c ∈ (ws ++ rest).head?, Ident.isContinue c = false := by
    cases hw with
    | none => exact hrest.isContinue
    | @some ds => exact forall_mem_head?_cons (by decide) (ds ++ rest)
  refine Takes.named ?_
  cases h with
  | @positive ds ws n w hn hw =>
    have hminus : (char '-').Fails (ds ++ (ws ++ rest)) := by
      obtain ⟨d, ds, rfl, hd⟩ := hn.exists_cons
      refine fails_char_cons ?_ (ds ++ (ws ++ rest))
      rintro rfl
      cases hd
    rw [← List.append_assoc] at hminus
    exact hminus.optional.nil_bind (Takes.bind (takes_magnitude hn (hwidth hw))
      ((takes_optional_bitWidth hw hrest).bind_pure (Literal.mk n)))
  | @negative ds ws n w hn hw =>
    exact (takes_char '-').optional.cons_bind (Takes.bind (takes_magnitude hn (hwidth hw))
      ((takes_optional_bitWidth hw hrest).bind_pure (Literal.mk (-n))))

theorem fails_literal (h : ∀ c ∈ rest.head?, c ≠ '-' ∧ c.isDigit = false) : literal.Fails rest := by
  have hzero : (char '0').Fails rest := fails_char fun c hc => by
    rintro rfl
    cases (h _ hc).2
  have hdecimal : (run1 digit).Fails rest := fails_run1 fun c hc => (h c hc).2
  have hmagnitude : magnitude.Fails rest :=
    Fails.apart (Fails.orElse (Fails.named hzero.bind)
      (Fails.orElse (Fails.named hzero.bind) (Fails.named hdecimal.bind)))
  have hminus : (char '-').Fails rest := fails_char fun c hc => (h c hc).1
  exact Fails.named (hminus.optional.bind_fails hmagnitude.bind)

theorem fails_literal_of_isStart {c : Char} (h : Ident.isStart c = true) (cs : List Char) :
    literal.Fails (c :: cs) := by
  refine fails_literal (forall_mem_head?_cons ⟨?_, isDigit_of_isStart h⟩ cs)
  rintro rfl
  cases h

/-! ## Names -/

theorem takes_ident (hcs : Ident.isSpelling cs = true)
    (hrest : ∀ c ∈ rest.head?, Ident.isContinue c = false) :
    ident.Takes cs rest ⟨String.ofList cs⟩ := by
  cases cs with
  | nil => cases hcs
  | cons c cs =>
    rw [Ident.isSpelling, Bool.and_eq_true, List.all_eq_true] at hcs
    have hstart : (charOf identStart).Takes [c] (cs ++ rest) c := takes_charOf hcs.1
    have hrun : (run identContinue).Takes cs rest cs := takes_run hcs.2 hrest
    exact Takes.named (hstart.cons_bind
      (hrun.bind_pure fun cs => Ident.mk (String.ofList (c :: cs))))

theorem fails_ident (h : ∀ c ∈ rest.head?, Ident.isStart c = false) : ident.Fails rest :=
  Fails.named (Fails.bind (fails_charOf h))

end Reader

end BitSynth
