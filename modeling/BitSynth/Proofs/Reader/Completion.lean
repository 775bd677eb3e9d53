import BitSynth.Proofs.Reader.Found
import BitSynth.Proofs.Reader.Stops

/-!
# Completions

Wherever a reader of the grammar stops, what it has read so far can be completed: a number by
another digit, a name by a letter, an application by an argument and the closing parenthesis. The
token that is being read tells how (`stopsAt_literal`, `stopsAt_ident`), and what surrounds it is
completed from the inside out.
-/

namespace BitSynth

open Text

namespace Reader

variable {α : Type} {m : Nat} {u : List Char}

/-! ## Numbers -/

theorem stopsAt_run {k : CharClass} (h : StopsAt m (run k) u) : ∀ d ∈ u, k.holds d = true := by
  obtain @⟨w, c, f, f', r, hrest, -, -, hrun, hbelow, hhere, -, -⟩ := h
  obtain ⟨-, rfl⟩ := Prod.mk.inj hrun
  have hle : c.offset + byteSize u ≤ c.offset + byteSize (c.rest.takeWhile k.holds) :=
    (Failure.reaches_merge.1 hhere).resolve_right hbelow
  have hb : c.Between u ⟨w, c.offset + byteSize u⟩ := ⟨hrest, rfl⟩
  obtain ⟨us, hus, -⟩ :=
    exists_append_of_between List.takeWhile_append_dropWhile.symm hb hle
  intro d hd
  refine List.all_eq_true.1 (List.all_takeWhile (l := c.rest)) d ?_
  rw [hus]
  exact List.mem_append_left us hd

theorem stopsAt_run1 {k : CharClass} [k.Plain] (h : StopsAt m (run1 k) u) :
    ∀ d ∈ u, k.holds d = true := by
  unfold run1 at h
  rcases h.of_bind with h | ⟨cs, us, d, rfl, hd, h⟩
  · rw [h.of_charOf]
    exact List.forall_mem_nil _
  · obtain ⟨rfl, hholds⟩ := hd.follows (follows_charOf k)
    rcases h.of_bind with h | ⟨_, _, _, -, -, h⟩
    · exact List.forall_mem_cons.2 ⟨hholds, stopsAt_run h⟩
    · exact h.of_pure.elim

theorem stopsAt_many_oneOf {chars : List Char} [Composed (oneOf chars)] :
    ∀ {u : List Char}, StopsAt m (oneOf chars).many u → ∀ d ∈ u, d ∈ chars := by
  intro u
  induction hl : u.length using Nat.strongRecOn generalizing u with
  | _ l ih =>
    intro h
    rcases h.of_many with hone | ⟨cs, us, d, -, rfl, hone, hmany⟩
    · rw [hone.of_oneOf]
      exact List.forall_mem_nil _
    · obtain ⟨rfl, hd⟩ := hone.follows (follows_oneOf chars)
      exact List.forall_mem_cons.2 ⟨hd, ih _ (by simp [← hl]) rfl hmany⟩

theorem spellsMagnitude_zero : SpellsMagnitude ['0'] (ofDigits 10 ['0']) :=
  .decimal (List.cons_ne_nil _ _) (List.forall_mem_singleton.2 rfl)

theorem stopsAt_hexadecimal (h : StopsAt m hexadecimal u) :
    ∃ ds n, SpellsMagnitude (u ++ ds) n := by
  rcases h.of_named.of_bind with h | ⟨_, us, _, rfl, hzero, h⟩
  · rw [h.of_char]
    exact ⟨_, _, spellsMagnitude_zero⟩
  obtain rfl := hzero.follows (follows_char '0')
  rcases h.of_bind with h | ⟨_, us, x, rfl, hmark, h⟩
  · rw [h.of_oneOf]
    exact ⟨[], _, spellsMagnitude_zero⟩
  obtain ⟨rfl, hx⟩ := hmark.follows (follows_oneOf _)
  rcases h.of_bind with h | ⟨_, _, _, -, -, h⟩
  · have hdigits : ∀ d ∈ us ++ ['0'], isHexDigit d = true :=
      List.forall_mem_append.2 ⟨stopsAt_run1 h, List.forall_mem_singleton.2 rfl⟩
    exact ⟨['0'], _, .hexadecimal (by simpa using hx) (by simp) hdigits⟩
  · exact h.of_pure.elim

theorem stopsAt_binary (h : StopsAt m binary u) : ∃ ds n, SpellsMagnitude (u ++ ds) n := by
  rcases h.of_named.of_bind with h | ⟨_, us, _, rfl, hzero, h⟩
  · rw [h.of_char]
    exact ⟨_, _, spellsMagnitude_zero⟩
  obtain rfl := hzero.follows (follows_char '0')
  rcases h.of_bind with h | ⟨_, us, b, rfl, hmark, h⟩
  · rw [h.of_oneOf]
    exact ⟨[], _, spellsMagnitude_zero⟩
  obtain ⟨rfl, hb⟩ := hmark.follows (follows_oneOf _)
  have hdigits : ∀ d ∈ us, d ∈ ['0', '1'] := by
    rcases h.of_bind with h | ⟨_, _, _, -, -, h⟩
    · rcases h.of_bind with h | ⟨_, us, d, rfl, hone, h⟩
      · rw [h.of_oneOf]
        exact List.forall_mem_nil _
      · obtain ⟨rfl, hd⟩ := hone.follows (follows_oneOf _)
        rcases h.of_bind with h | ⟨_, _, _, -, -, h⟩
        · exact List.forall_mem_cons.2 ⟨hd, stopsAt_many_oneOf h⟩
        · exact h.of_pure.elim
    · exact h.of_pure.elim
  have hbinary : ∀ d ∈ us ++ ['0'], isBinaryDigit d = true :=
    List.forall_mem_append.2 ⟨fun d hd => by simpa [isBinaryDigit] using hdigits d hd,
      List.forall_mem_singleton.2 rfl⟩
  exact ⟨['0'], _, .binary (by simpa using hb) (by simp) hbinary⟩

theorem stopsAt_decimal (h : StopsAt m decimal u) : ∃ ds n, SpellsMagnitude (u ++ ds) n := by
  rcases h.of_named.of_bind with h | ⟨_, _, _, -, -, h⟩
  · have hdigits : ∀ d ∈ u ++ ['0'], d.isDigit = true :=
      List.forall_mem_append.2 ⟨stopsAt_run1 h, List.forall_mem_singleton.2 rfl⟩
    exact ⟨['0'], _, .decimal (by simp) hdigits⟩
  · exact h.of_pure.elim

theorem stopsAt_magnitude (h : StopsAt m magnitude u) : ∃ ds n, SpellsMagnitude (u ++ ds) n := by
  rcases h.of_apart.of_orElse with h | ⟨-, h⟩
  · exact stopsAt_hexadecimal h
  · rcases h.of_orElse with h | ⟨-, h⟩
    · exact stopsAt_binary h
    · exact stopsAt_decimal h

theorem spellsWidth_zero : SpellsWidth [':', '0'] (some (ofDigits 10 ['0'])) :=
  .some (List.cons_ne_nil _ _) (List.forall_mem_singleton.2 rfl) (by decide)

theorem stopsAt_widthNumber (h : StopsAt m widthNumber u) :
    ∃ ds n, SpellsWidth (':' :: (u ++ ds)) (some n) := by
  obtain @⟨w, c, f, f', r, hrest, hshort, hfit, hrun, hbelow, hhere, hbeyond, hends⟩ := h
  have hstop {g : Option Failure} {r : Option (List Char × Cursor)}
      (hdigits : run1 digit c none = (r, g)) (hf' : f' = rejoin g f)
      (hends : ∀ a c', r = some (a, c') → c'.offset ≤ c.offset + byteSize u) :
      ∀ d ∈ u, d.isDigit = true := by
    subst hf'
    have hg := (reaches_rejoin.1 hhere).resolve_right hbelow
    exact stopsAt_run1 ⟨hrest, hshort, hfit, hdigits, not_reaches_none _, hg,
      fun hg => hbeyond (reaches_rejoin.2 (.inl hg)), hends⟩
  rcases cases_widthNumber hrun with
    ⟨g, hdigits, -, hf'⟩ | ⟨ds, c', g, hdigits, ⟨hlt, rfl, hf'⟩ | ⟨-, -, rfl⟩⟩
  · have hnone := takeWhile_of_run1 hdigits
    cases u with
    | nil => exact ⟨_, _, spellsWidth_zero⟩
    | cons d u =>
      have hd := hstop hdigits hf' (by rintro _ _ ⟨⟩) d (List.mem_cons_self ..)
      rw [hrest, List.cons_append, List.takeWhile_cons, show digit.holds d = true from hd] at hnone
      cases hnone
  · have hle : c'.offset ≤ c.offset + byteSize u := hends _ _ rfl
    have hu := hstop hdigits hf' (by
      rintro _ _ ⟨⟩
      exact hle)
    obtain ⟨ds, hb, rfl, hne, hds⟩ := follows_run1 digit _ _ _ _ _ hdigits
    have hall : ds = u ++ w.takeWhile Char.isDigit := by
      rw [eq_takeWhile_of_run1 hdigits, hrest]
      exact List.takeWhile_append_of_pos hu
    have hsize := hb.offset
    rw [hall, byteSize_append] at hsize
    have hnone : w.takeWhile Char.isDigit = [] := eq_nil_of_byteSize (by omega)
    rw [hnone, List.append_nil] at hall
    exact ⟨[], _, by rw [List.append_nil, ← hall]; exact .some hne hds hlt⟩
  · -- the failure of a width out of range begins in front of its digits
    have hle := (Failure.reaches_merge.1 hhere).resolve_right hbelow
    obtain rfl : u = [] := eq_nil_of_byteSize (by simp only at hle; omega)
    exact ⟨_, _, spellsWidth_zero⟩

theorem stopsAt_bitWidth (h : StopsAt m bitWidth u) : ∃ ds w, SpellsWidth (u ++ ds) w := by
  rcases h.of_named.of_bind_regular (.char ':') (fun _ _ _ => .char ':') fun _ => .widthNumber with
    h | ⟨_, us, _, rfl, hcolon, h⟩
  · rw [h.of_char]
    exact ⟨[], _, .none⟩
  · obtain rfl := hcolon.follows (follows_char ':')
    obtain ⟨ds, n, hn⟩ := stopsAt_widthNumber h
    exact ⟨ds, _, hn⟩

theorem exists_spellsLiteral {cs ds ws : List Char} {sign : Option Unit} {n : Nat} {w : Option Nat}
    (hsign : cs = if sign.isSome then ['-'] else []) (hn : SpellsMagnitude ds n)
    (hw : SpellsWidth ws w) : ∃ l, SpellsLiteral (cs ++ (ds ++ ws)) l := by
  have hpositive : SpellsLiteral (ds ++ ws) ⟨n, w⟩ := .positive hn hw
  have hnegative : SpellsLiteral ('-' :: (ds ++ ws)) ⟨-(n : Int), w⟩ := .negative hn hw
  rw [hsign]
  cases sign with
  | none => exact ⟨_, hpositive⟩
  | some _ => exact ⟨_, hnegative⟩

theorem stopsAt_literal (h : StopsAt m literal u) : ∃ ds l, SpellsLiteral (u ++ ds) l := by
  rcases h.of_named.of_bind with h | ⟨cs, us, sign, rfl, hminus, h⟩
  · rw [h.of_optional.of_char]
    have hzero : SpellsLiteral (['0'] ++ []) _ := .positive spellsMagnitude_zero .none
    exact ⟨_, _, hzero⟩
  have hoptional : (char '-').optional.Follows fun cs sign =>
      cs = if sign.isSome then ['-'] else [] :=
    (follows_char '-').optional rfl fun _ _ h => h
  have hsign := hminus.follows hoptional
  rcases h.of_bind with h | ⟨ns, us, n, rfl, hmagnitude, h⟩
  · obtain ⟨ds, n, hn⟩ := stopsAt_magnitude h
    obtain ⟨l, hl⟩ := exists_spellsLiteral hsign hn .none
    exact ⟨ds, l, by simpa using hl⟩
  have hn : SpellsMagnitude ns n := hmagnitude.follows follows_magnitude
  rcases h.of_bind with h | ⟨_, _, _, -, -, h⟩
  · obtain ⟨ds, w, hw⟩ := stopsAt_bitWidth h.of_optional
    obtain ⟨l, hl⟩ := exists_spellsLiteral hsign hn hw
    exact ⟨ds, l, by simpa using hl⟩
  · exact h.of_pure.elim

/-! ## Names -/

theorem isSpelling_letter : Ident.isSpelling ['x'] = true := by decide +kernel

theorem stopsAt_ident (h : StopsAt m ident u) : ∃ ds, Ident.isSpelling (u ++ ds) = true := by
  rcases h.of_named.of_bind with h | ⟨cs, us, c, rfl, hc, h⟩
  · rw [h.of_charOf]
    exact ⟨['x'], isSpelling_letter⟩
  · obtain ⟨rfl, hstart⟩ := hc.follows (follows_charOf identStart)
    rcases h.of_bind with h | ⟨_, _, _, -, -, h⟩
    · refine ⟨[], ?_⟩
      rw [List.append_nil, List.singleton_append, Ident.isSpelling, Bool.and_eq_true,
        List.all_eq_true]
      exact ⟨hstart, stopsAt_run h⟩
    · exact h.of_pure.elim

/-! ## Parentheses -/

/-- The text ends or goes on with a closing parenthesis. -/
def Closing (rest : List Char) : Prop := ∀ c ∈ rest.head?, c = ')'

theorem Closing.delimited {rest : List Char} (h : Closing rest) : Delimited rest :=
  fun c hc => .inr (.inr (h c hc))

theorem Closing.noSpace {rest : List Char} (h : Closing rest) : NoSpace rest := fun c hc => by
  rw [h c hc]
  decide

theorem closing_paren (rest : List Char) : Closing (')' :: rest) := by
  rintro c ⟨⟩
  rfl

theorem closing_nil : Closing [] := by rintro c ⟨⟩

/-- With some more characters the reader takes the text, where it ends or a parenthesis closes. -/
def Completes (p : Reader α) (u : List Char) : Prop :=
  ∃ ds a, ∀ rest, Closing rest → p.Takes (u ++ ds) rest a

/-- The reader takes nothing that begins with white space, nor where a parenthesis closes. -/
def Opens (p : Reader α) : Prop :=
  ∀ rest, (∀ c ∈ rest.head?, c ∈ whiteSpace ∨ c = ')') → p.Fails rest

section Parentheses

variable {p : Reader α} {ws : List Char}

theorem opens_ident : Opens ident := fun rest h => fails_ident fun c hc => by
  have hcontinue : Ident.isContinue c = false :=
    isContinue_of_delimits ((h c hc).imp_right .inr)
  exact eq_false_of_isContinue Ident.isContinue_of_isStart hcontinue

theorem opens_literal : Opens literal := fun rest h => fails_literal fun c hc => by
  have hcontinue : Ident.isContinue c = false :=
    isContinue_of_delimits ((h c hc).imp_right .inr)
  refine ⟨?_, eq_false_of_isContinue isContinue_of_isDigit hcontinue⟩
  rintro rfl
  exact absurd (h _ hc) (by decide)

theorem opens_enclosed (p : Reader α) : Opens (enclosed p) := fun rest h =>
  Fails.bind (fails_char fun c hc => by
    rintro rfl
    exact absurd (h _ hc) (by decide))

theorem opens_expr : Opens expr := fun rest h => by
  rw [expr_eq, expression, parenthesized_eq]
  have hparen : (named .parenthesized (enclosed (content expr))).Fails rest :=
    Fails.named (opens_enclosed _ rest h)
  exact Fails.named (hparen.orElse (((opens_literal rest h).map _).orElse
    ((opens_ident rest h).map _)))

theorem opens_form : Opens form := fun rest h => Fails.named (opens_enclosed _ rest h)

theorem Opens.fails (hp : Opens p) {rest : List Char} (h : Closing rest) : p.Fails rest :=
  hp rest fun c hc => .inr (h c hc)

theorem Opens.noSpace (hp : Opens p) {cs : List Char} {a : α} (h : p.Takes cs [] a) :
    cs ≠ [] ∧ ∀ rest, NoSpace (cs ++ rest) := by
  obtain ⟨f, hf⟩ := h 0 none
  rw [List.append_nil] at hf
  have hhead : ¬ ∀ c ∈ cs.head?, c ∈ whiteSpace ∨ c = ')' := fun hcs => by
    obtain ⟨f', hf'⟩ := hp cs hcs 0 none
    cases hf.symm.trans hf'
  cases cs with
  | nil => exact absurd (by rintro c ⟨⟩) hhead
  | cons c cs =>
    refine ⟨List.cons_ne_nil c cs, fun rest => forall_mem_head?_cons (fun hc => ?_) (cs ++ rest)⟩
    exact hhead (forall_mem_head?_cons (.inl hc) cs)

theorem Opens.spaced (hp : Opens p) {rest : List Char} (h : Closing rest) :
    (Reader.spaced p).Fails rest := Fails.spaced_nil h.noSpace (hp.fails h)

theorem Completes.spaced (h : Completes p u) (hp : Opens p) (hws : Blank ws) :
    Completes (Reader.spaced p) (ws ++ u) := by
  obtain ⟨ds, a, htakes⟩ := h
  have hspace := (hp.noSpace (htakes [] closing_nil)).2
  refine ⟨ds, a, fun rest hrest => ?_⟩
  have hspaced : (Reader.spaced p).Takes (ws ++ (u ++ ds ++ [])) rest a :=
    Takes.spaced hws (List.forall_mem_nil _) (hspace _) hrest.noSpace (htakes rest hrest)
  rwa [List.append_nil, ← List.append_assoc] at hspaced

theorem Completes.spaced_nil (h : Completes p u) (hp : Opens p) :
    Completes (Reader.spaced p) u := by
  have hblank : Blank [] := List.forall_mem_nil _
  have hspaced : Completes (Reader.spaced p) ([] ++ u) := h.spaced hp hblank
  exact hspaced

theorem stopsAt_spaced [Composed p] (hp : Opens p) (hstop : ∀ {u}, StopsAt m p u → Completes p u)
    (h : StopsAt m (Reader.spaced p) u) : Completes (Reader.spaced p) u := by
  obtain ⟨ws, us, rfl, hws, h⟩ := h.of_spaced
  exact (hstop h).spaced hp hws

theorem stopsAt_many [Composed p] (hp : ∀ {rest}, Closing rest → p.Fails rest)
    (hstop : ∀ {u}, StopsAt m p u → Completes p u) :
    ∀ {u : List Char}, StopsAt m p.many u →
      ∃ ds as, (u = [] → ds = []) ∧ ∀ rest, Closing rest → p.many.Takes (u ++ ds) rest as := by
  intro u
  induction hl : u.length using Nat.strongRecOn generalizing u with
  | _ l ih =>
    intro h
    rcases h.of_many with hone | ⟨cs, us, a, hne, rfl, hone, hmany⟩
    · by_cases hu : u = []
      · subst hu
        exact ⟨[], [], fun _ => rfl, fun rest hrest => (hp hrest).many⟩
      · obtain ⟨ds, a, htakes⟩ := hstop hone
        refine ⟨ds, [a], fun h => absurd h hu, fun rest hrest => ?_⟩
        have hmany := Takes.many_cons (htakes rest hrest) (by simp [hu]) (hp hrest).many
        rwa [List.append_nil] at hmany
    · have hlt : us.length < l := by
        have := List.length_pos_iff.2 hne
        rw [← hl, List.length_append]
        omega
      obtain ⟨ds, as, hds, htakes⟩ := ih _ hlt rfl hmany
      refine ⟨ds, a :: as, fun h => absurd (List.append_eq_nil_iff.1 h).1 hne, fun rest hrest => ?_⟩
      have hfirst : p.Takes cs ((us ++ ds) ++ rest) a := by
        rw [List.append_assoc]
        refine hone (ds ++ rest) fun hus => ?_
        rw [hds hus]
        exact hrest.noSpace
      rw [List.append_assoc]
      exact hfirst.many_cons hne (htakes rest hrest)

section First

variable {β γ : Type} {q : Reader β} {g : β → List α → γ}

theorem Completes.bind_many (h : Completes q u) (hp : ∀ {rest}, Closing rest → p.Fails rest) :
    Completes (q >>= fun b => p.many >>= fun as => pure (g b as)) u := by
  obtain ⟨ds, b, htakes⟩ := h
  refine ⟨ds, g b [], fun rest hrest => ?_⟩
  rw [← List.append_nil (u ++ ds)]
  exact Takes.bind (htakes rest hrest) ((hp hrest).many.bind_pure (g b))

theorem stopsAt_bind_many [Composed q] [Composed p] (hp : ∀ {rest}, Closing rest → p.Fails rest)
    (hfirst : ∀ {u}, StopsAt m q u → Completes q u) (hstop : ∀ {u}, StopsAt m p u → Completes p u)
    (h : StopsAt m (q >>= fun b => p.many >>= fun as => pure (g b as)) u) :
    Completes (q >>= fun b => p.many >>= fun as => pure (g b as)) u := by
  rcases h.of_bind with h | ⟨cs, us, b, rfl, hb, h⟩
  · exact (hfirst h).bind_many hp
  rcases h.of_bind with h | ⟨_, _, _, -, -, h⟩
  · obtain ⟨ds, as, hds, has⟩ := stopsAt_many hp hstop (h.mono (Nat.sub_le ..))
    refine ⟨ds, g b as, fun rest hrest => ?_⟩
    rw [List.append_assoc]
    refine Takes.bind ?_ ((has rest hrest).bind_pure (g b))
    rw [List.append_assoc]
    refine hb (ds ++ rest) fun hus => ?_
    rw [hds hus]
    exact hrest.noSpace
  · exact h.of_pure.elim

end First

theorem stopsAt_enclosed [Composed p] (hnil : Completes p [])
    (hstop : ∀ {u}, StopsAt m p u → Completes p u) (h : StopsAt (m + 1) (enclosed p) u) :
    ∃ ds a, ∀ rest, (enclosed p).Takes (u ++ ds) rest a := by
  rcases h.of_bind with h | ⟨_, us, _, rfl, hopening, h⟩
  · obtain ⟨ds, a, htakes⟩ := hnil
    rw [h.of_char]
    exact ⟨_, a, fun rest => (htakes _ (closing_paren rest)).enclosed⟩
  obtain rfl := hopening.follows (follows_char '(')
  rcases h.of_bind with h | ⟨cs, us, a, rfl, hcontent, h⟩
  · obtain ⟨ds, a, htakes⟩ := hstop h
    refine ⟨ds ++ [')'], a, fun rest => ?_⟩
    have henclosed := (htakes _ (closing_paren rest)).enclosed
    rwa [List.append_assoc] at henclosed
  rcases h.of_bind with h | ⟨_, _, _, -, -, h⟩
  · obtain rfl : us = [] := h.of_char
    refine ⟨[')'], a, fun rest => ?_⟩
    have henclosed := Takes.enclosed (hcontent (')' :: rest) fun _ => noSpace_paren rest)
    rwa [← List.append_nil cs] at henclosed
  · exact h.of_pure.elim

end Parentheses

/-! ## Expressions and forms -/

section Expressions

theorem completes_literal (h : ∃ ds l, SpellsLiteral (u ++ ds) l) : Completes literal u := by
  obtain ⟨ds, l, hl⟩ := h
  exact ⟨ds, l, fun rest hrest => takes_literal hl hrest.delimited⟩

theorem completes_ident (h : ∃ ds, Ident.isSpelling (u ++ ds) = true) : Completes ident u := by
  obtain ⟨ds, hx⟩ := h
  exact ⟨ds, _, fun rest hrest => takes_ident hx hrest.delimited.isContinue⟩

theorem completes_application_nil : Completes (application expr) [] := by
  have hident : Completes ident [] := completes_ident ⟨['x'], isSpelling_letter⟩
  exact (hident.spaced_nil opens_ident).bind_many opens_expr.spaced

theorem completes_content (h : Completes (spaced literal) u) : Completes (content expr) u := by
  obtain ⟨ds, l, htakes⟩ := h
  exact ⟨ds, .literal l, fun rest hrest => ((htakes rest hrest).map Expr.literal).orElse⟩

theorem completes_content_nil : Completes (content expr) [] := by
  have hzero : SpellsLiteral (['0'] ++ []) _ := .positive spellsMagnitude_zero .none
  have hliteral : Completes literal [] := completes_literal ⟨_, _, hzero⟩
  exact completes_content (hliteral.spaced_nil opens_literal)

variable (hstop : ∀ {u}, StopsAt m expr u → Completes expr u)

include hstop

theorem stopsAt_application (h : StopsAt m (application expr) u) :
    Completes (application expr) u :=
  stopsAt_bind_many opens_expr.spaced
    (stopsAt_spaced opens_ident fun h => completes_ident (stopsAt_ident h))
    (stopsAt_spaced opens_expr hstop) h

theorem stopsAt_content (h : StopsAt m (content expr) u) : Completes (content expr) u := by
  rcases h.of_orElse with h | ⟨hfails, h⟩
  · exact completes_content
      (stopsAt_spaced opens_literal (fun h => completes_literal (stopsAt_literal h)) h.of_map)
  · obtain ⟨ds, a, htakes⟩ := stopsAt_application hstop h.of_map
    refine ⟨ds, a.toExpr, fun rest hrest => ?_⟩
    have hliteral := hfails (ds ++ rest)
    rw [← List.append_assoc] at hliteral
    exact hliteral.orElse_takes ((htakes rest hrest).map App.toExpr)

end Expressions

/-- The arguments of an expression stand on a shorter text than it does. -/
theorem stopsAt_expr : ∀ (m : Nat) {u : List Char}, StopsAt m expr u → Completes expr u
  | 0, _, h => by
    obtain ⟨-, hshort, -⟩ := h
    exact absurd hshort (Nat.not_lt_zero _)
  | m + 1, u, h => by
    rw [expr_eq, expression] at h
    rcases h.of_named.of_orElse with h | ⟨-, h⟩
    · rw [parenthesized_eq] at h
      obtain ⟨ds, e, htakes⟩ := stopsAt_enclosed completes_content_nil
        (fun h => stopsAt_content (stopsAt_expr m) h) h.of_named
      refine ⟨ds, e, fun rest _ => ?_⟩
      rw [expr_eq, expression, parenthesized_eq]
      exact Takes.named (Takes.orElse (Takes.named (htakes rest)))
    · rcases h.of_orElse with h | ⟨-, h⟩
      · obtain ⟨ds, l, hl⟩ := stopsAt_literal h.of_map
        exact ⟨ds, _, fun rest hrest => takes_expr (.literal hl) (.inr hrest.delimited)⟩
      · obtain ⟨ds, hx⟩ := stopsAt_ident h.of_map
        exact ⟨ds, _, fun rest hrest => takes_expr (.ident hx) (.inr hrest.delimited)⟩

theorem stopsAt_form (h : StopsAt m form u) : Completes form u := by
  rw [form_eq] at h
  obtain ⟨ds, a, htakes⟩ := stopsAt_enclosed completes_application_nil
    (stopsAt_application (stopsAt_expr m)) (h.of_named.mono (Nat.le_succ m))
  exact ⟨ds, a, fun rest _ => Takes.named (htakes rest)⟩

theorem stopsAt_forms (h : StopsAt m (many1 (spaced form)) u) :
    Completes (many1 (spaced form)) u :=
  stopsAt_bind_many opens_form.spaced (stopsAt_spaced opens_form stopsAt_form)
    (stopsAt_spaced opens_form stopsAt_form) h

end Reader

end BitSynth
