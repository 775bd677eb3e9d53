import BitSynth.Proofs.Text.Decodable
import BitSynth.Reader.Basic
import Mathlib.Tactic.Common

/-!
# What readers take

A reader takes some characters in front of others if it reads exactly the first ones, wherever they
stand in the text and whatever failed before. The pending failure never decides how a reader goes
on, so each combinator takes what its parts take one after the other. Conversely, what a reader
makes of a text follows a relation to the characters it took, and the relations of its parts tell
that of a combinator.
-/

namespace BitSynth

theorem byteSize_append (cs ds : List Char) : byteSize (cs ++ ds) = byteSize cs + byteSize ds := by
  induction cs with
  | nil => simp [byteSize]
  | cons c cs ih =>
    simp only [byteSize, List.cons_append, List.foldr_cons] at ih ⊢
    rw [ih, Nat.add_assoc]

theorem byteSize_cons (c : Char) (cs : List Char) : byteSize (c :: cs) = c.utf8Size + byteSize cs :=
  rfl

theorem eq_nil_of_byteSize {cs : List Char} (h : byteSize cs = 0) : cs = [] := by
  cases cs with
  | nil => rfl
  | cons c cs =>
    have := c.utf8Size_pos
    rw [byteSize_cons] at h
    omega

/-- A text has one beginning of each size. -/
theorem eq_of_append_eq {us vs us' vs' : List Char} (h : us ++ vs = us' ++ vs')
    (hsize : byteSize us = byteSize us') : us = us' := by
  rcases List.append_eq_append_iff.1 h with ⟨ws, rfl, -⟩ | ⟨ws, rfl, -⟩
  · rw [byteSize_append] at hsize
    have hws : ws = [] := eq_nil_of_byteSize (by omega)
    rw [hws, List.append_nil]
  · rw [byteSize_append] at hsize
    have hws : ws = [] := eq_nil_of_byteSize (by omega)
    rw [hws, List.append_nil]

/-- The characters lie between the two places. -/
structure Cursor.Between (c : Cursor) (cs : List Char) (c' : Cursor) : Prop where
  rest : c.rest = cs ++ c'.rest
  offset : c'.offset = c.offset + byteSize cs

namespace Cursor

variable {c c' c'' : Cursor} {cs ds : List Char}

theorem between_self (c : Cursor) : c.Between [] c := ⟨rfl, rfl⟩

theorem Between.trans (h : c.Between cs c') (h' : c'.Between ds c'') :
    c.Between (cs ++ ds) c'' := by
  refine ⟨?_, ?_⟩
  · rw [h.rest, h'.rest, List.append_assoc]
  · rw [h'.offset, h.offset, byteSize_append, Nat.add_assoc]

theorem Between.unique (h : c.Between cs c') (h' : c.Between cs c'') : c' = c'' := by
  obtain ⟨rest, offset⟩ := c'
  obtain ⟨rest', offset'⟩ := c''
  obtain rfl : rest = rest' := List.append_cancel_left (h.rest.symm.trans h'.rest)
  obtain rfl : offset = offset' := h.offset.trans h'.offset.symm
  rfl

theorem between_next {d : Char} (h : c.rest.head? = some d) : c.Between [d] c.next := by
  obtain ⟨rest, offset⟩ := c
  obtain ⟨ds, rfl⟩ := List.head?_eq_some_iff.1 h
  exact ⟨rfl, by simp [next, byteSize]⟩

theorem between_skip (c : Cursor) (p : Char → Bool) : c.Between (c.rest.takeWhile p) (c.skip p) :=
  ⟨List.takeWhile_append_dropWhile.symm, rfl⟩

end Cursor

namespace Reader

variable {α β : Type}

/-- In front of `rest` the reader takes `cs` and makes `a` of it. -/
def Takes (p : Reader α) (cs rest : List Char) (a : α) : Prop :=
  ∀ offset f, ∃ f', p ⟨cs ++ rest, offset⟩ f = (some (a, ⟨rest, offset + byteSize cs⟩), f')

/-- In front of `rest` the reader fails. -/
def Fails (p : Reader α) (rest : List Char) : Prop :=
  ∀ offset f, ∃ f', p ⟨rest, offset⟩ f = (none, f')

/-- Whatever the reader makes of a text is related to the characters that it took for it. -/
def Follows (p : Reader α) (R : List Char → α → Prop) : Prop :=
  ∀ c f a c' f', p c f = (some (a, c'), f') → ∃ cs, c.Between cs c' ∧ R cs a

variable {p q : Reader α} {k : α → Reader β} {cs ds rest : List Char} {a : α} {b : β}
  {R : List Char → α → Prop} {S : List Char → β → Prop}

/-! ## Sequences -/

theorem takes_pure (a : α) (rest : List Char) : (pure a : Reader α).Takes [] rest a :=
  fun _ f => ⟨f, rfl⟩

theorem follows_pure (h : R [] a) : (pure a : Reader α).Follows R := by
  intro c f a' c' f' heq
  obtain ⟨⟨⟨rfl, rfl⟩⟩, -⟩ := Prod.mk.inj heq
  exact ⟨[], c.between_self, h⟩

theorem bind_of_some {c c' : Cursor} {f f' : Option Failure} (h : p c f = (some (a, c'), f')) :
    (p >>= k) c f = k a c' f' := by
  simp only [Bind.bind, h]

theorem bind_of_none {c : Cursor} {f f' : Option Failure} (h : p c f = (none, f')) :
    (p >>= k) c f = (none, f') := by
  simp only [Bind.bind, h]

theorem Takes.bind (hp : p.Takes cs (ds ++ rest) a) (hk : (k a).Takes ds rest b) :
    (p >>= k).Takes (cs ++ ds) rest b := by
  intro offset f
  obtain ⟨f₁, h₁⟩ := hp offset f
  obtain ⟨f₂, h₂⟩ := hk (offset + byteSize cs) f₁
  refine ⟨f₂, ?_⟩
  rw [List.append_assoc, bind_of_some h₁, byteSize_append, ← Nat.add_assoc]
  exact h₂

theorem Takes.nil_bind (hp : p.Takes [] (ds ++ rest) a) (hk : (k a).Takes ds rest b) :
    (p >>= k).Takes ds rest b := hp.bind hk

theorem Takes.cons_bind {c : Char} (hp : p.Takes [c] (ds ++ rest) a) (hk : (k a).Takes ds rest b) :
    (p >>= k).Takes (c :: ds) rest b := hp.bind hk

theorem Takes.bind_pure (hp : p.Takes cs rest a) (g : α → β) :
    (p >>= fun a => pure (g a)).Takes cs rest (g a) := by
  have h : (p >>= fun a => pure (g a)).Takes (cs ++ []) rest (g a) :=
    Takes.bind hp (takes_pure (g a) rest)
  rwa [List.append_nil] at h

theorem Takes.map (hp : p.Takes cs rest a) (g : α → β) : (g <$> p).Takes cs rest (g a) :=
  hp.bind_pure g

theorem Fails.bind (hp : p.Fails rest) : (p >>= k).Fails rest := by
  intro offset f
  obtain ⟨f₁, h₁⟩ := hp offset f
  exact ⟨f₁, bind_of_none h₁⟩

theorem Takes.bind_fails (hp : p.Takes cs rest a) (hk : (k a).Fails rest) :
    (p >>= k).Fails (cs ++ rest) := by
  intro offset f
  obtain ⟨f₁, h₁⟩ := hp offset f
  obtain ⟨f₂, h₂⟩ := hk (offset + byteSize cs) f₁
  refine ⟨f₂, ?_⟩
  rw [bind_of_some h₁]
  exact h₂

theorem Fails.map (hp : p.Fails rest) (g : α → β) : (g <$> p).Fails rest := hp.bind

theorem Follows.imp {S : List Char → α → Prop} (hp : p.Follows R) (h : ∀ cs a, R cs a → S cs a) :
    p.Follows S := by
  intro c f a c' f' heq
  obtain ⟨cs, hcs, ha⟩ := hp c f a c' f' heq
  exact ⟨cs, hcs, h cs a ha⟩

theorem Follows.bind (hp : p.Follows R)
    (hk : ∀ cs a, R cs a → (k a).Follows fun ds b => S (cs ++ ds) b) : (p >>= k).Follows S := by
  intro c f b c' f' h
  rcases hpc : p c f with ⟨_ | ⟨a, c₁⟩, f₁⟩
  · rw [bind_of_none hpc] at h
    cases h
  · rw [bind_of_some hpc] at h
    obtain ⟨cs, hcs, ha⟩ := hp c f a c₁ f₁ hpc
    obtain ⟨ds, hds, hb⟩ := hk cs a ha c₁ f₁ b c' f' h
    exact ⟨cs ++ ds, hcs.trans hds, hb⟩

theorem Follows.bind_pure {g : α → β} (hp : p.Follows R) (hg : ∀ cs a, R cs a → S cs (g a)) :
    (p >>= fun a => pure (g a)).Follows S :=
  hp.bind fun cs a ha => follows_pure ((List.append_nil cs).symm ▸ hg cs a ha)

theorem Follows.map {g : α → β} (hp : p.Follows R) (hg : ∀ cs a, R cs a → S cs (g a)) :
    (g <$> p).Follows S := hp.bind_pure hg

/-! ## Alternatives -/

theorem Takes.orElse (hp : p.Takes cs rest a) : (p <|> q).Takes cs rest a := by
  intro offset f
  obtain ⟨f₁, h₁⟩ := hp offset f
  refine ⟨f₁, ?_⟩
  show Reader.orElse p (fun _ => q) _ f = _
  simp only [Reader.orElse, h₁]

theorem Fails.orElse_takes (hp : p.Fails (cs ++ rest)) (hq : q.Takes cs rest a) :
    (p <|> q).Takes cs rest a := by
  intro offset f
  obtain ⟨f₁, h₁⟩ := hp offset f
  obtain ⟨f₂, h₂⟩ := hq offset f₁
  refine ⟨f₂, ?_⟩
  show Reader.orElse p (fun _ => q) _ f = _
  simp only [Reader.orElse, h₁]
  exact h₂

theorem Fails.orElse (hp : p.Fails rest) (hq : q.Fails rest) : (p <|> q).Fails rest := by
  intro offset f
  obtain ⟨f₁, h₁⟩ := hp offset f
  obtain ⟨f₂, h₂⟩ := hq offset f₁
  refine ⟨f₂, ?_⟩
  show Reader.orElse p (fun _ => q) _ f = _
  simp only [Reader.orElse, h₁]
  exact h₂

theorem Follows.orElse (hp : p.Follows R) (hq : q.Follows R) : (p <|> q).Follows R := by
  intro c f a c' f' h
  have h : Reader.orElse p (fun _ => q) c f = _ := h
  unfold Reader.orElse at h
  split at h
  · rename_i r f₁ h₁
    obtain ⟨rfl, rfl⟩ := Prod.mk.inj h |>.imp_left Option.some.inj
    exact hp c f a c' _ h₁
  · rename_i f₁ h₁
    exact hq c f₁ a c' f' h

theorem Takes.optional (hp : p.Takes cs rest a) : p.optional.Takes cs rest (some a) := by
  intro offset f
  obtain ⟨f₁, h₁⟩ := hp offset f
  exact ⟨f₁, by simp only [Reader.optional, h₁]⟩

theorem Fails.optional (hp : p.Fails rest) : p.optional.Takes [] rest none := by
  intro offset f
  obtain ⟨f₁, h₁⟩ := hp offset f
  refine ⟨f₁, ?_⟩
  rw [List.nil_append]
  simp only [Reader.optional, h₁]
  rfl

theorem Follows.optional {S : List Char → Option α → Prop} (hp : p.Follows R) (hnone : S [] none)
    (hsome : ∀ cs a, R cs a → S cs (some a)) : p.optional.Follows S := by
  intro c f o c' f' h
  unfold Reader.optional at h
  split at h
  · rename_i a c₁ f₁ h₁
    obtain ⟨⟨⟨rfl, rfl⟩⟩, -⟩ := Prod.mk.inj h
    obtain ⟨cs, hcs, ha⟩ := hp c f a _ f₁ h₁
    exact ⟨cs, hcs, hsome cs a ha⟩
  · obtain ⟨⟨⟨rfl, rfl⟩⟩, -⟩ := Prod.mk.inj h
    exact ⟨[], c.between_self, hnone⟩

/-! ## Repetition -/

theorem Fails.many (hp : p.Fails rest) : p.many.Takes [] rest [] := by
  intro offset f
  obtain ⟨f₁, h₁⟩ := hp offset f
  refine ⟨f₁, ?_⟩
  rw [List.nil_append, Reader.many, h₁]
  rfl

theorem Takes.many_cons {as : List α} (hp : p.Takes cs (ds ++ rest) a) (hcs : cs ≠ [])
    (hmany : p.many.Takes ds rest as) : p.many.Takes (cs ++ ds) rest (a :: as) := by
  intro offset f
  obtain ⟨f₁, h₁⟩ := hp offset f
  obtain ⟨f₂, h₂⟩ := hmany (offset + byteSize cs) f₁
  have hlt : (ds ++ rest).length < (cs ++ (ds ++ rest)).length := by
    have := List.length_pos_iff.2 hcs
    simp only [List.length_append]
    omega
  refine ⟨f₂, ?_⟩
  rw [List.append_assoc, Reader.many, h₁]
  simp only [hlt, if_true, h₂]
  rw [byteSize_append, ← Nat.add_assoc]

theorem Takes.many1 {as : List α} (hp : p.Takes cs (ds ++ rest) a)
    (hmany : p.many.Takes ds rest as) : p.many1.Takes (cs ++ ds) rest (a :: as) :=
  hp.bind (hmany.bind_pure (a :: ·))

theorem Follows.many {S : List Char → List α → Prop} (hp : p.Follows R) (hnil : S [] [])
    (hcons : ∀ cs a ds as, R cs a → S ds as → S (cs ++ ds) (a :: as)) : p.many.Follows S := by
  intro c
  induction hn : c.rest.length using Nat.strongRecOn generalizing c with
  | _ n ih =>
    intro f as c' f' h
    unfold Reader.many at h
    split at h
    · obtain ⟨⟨⟨rfl, rfl⟩⟩, -⟩ := Prod.mk.inj h
      exact ⟨[], c.between_self, hnil⟩
    · rename_i a c₁ f₁ h₁
      split_ifs at h with hlt
      · split at h
        · rename_i as' c₂ f₂ h₂
          obtain ⟨⟨⟨rfl, rfl⟩⟩, -⟩ := Prod.mk.inj h
          obtain ⟨cs, hcs, ha⟩ := hp c f a c₁ f₁ h₁
          obtain ⟨ds, hds, has⟩ := ih _ (hn ▸ hlt) c₁ rfl f₁ as' _ f₂ h₂
          exact ⟨cs ++ ds, hcs.trans hds, hcons cs a ds as' ha has⟩
        · cases h
      · obtain ⟨⟨⟨rfl, rfl⟩⟩, -⟩ := Prod.mk.inj h
        exact ⟨[], c.between_self, hnil⟩

theorem Follows.many1 {S : List Char → List α → Prop} (hp : p.Follows R) (hnil : S [] [])
    (hcons : ∀ cs a ds as, R cs a → S ds as → S (cs ++ ds) (a :: as)) :
    p.many1.Follows fun cs as => as ≠ [] ∧ S cs as :=
  hp.bind fun cs a ha => (hp.many hnil hcons).bind_pure fun ds as has =>
    ⟨List.cons_ne_nil a as, hcons cs a ds as ha has⟩

/-! ## Characters -/

theorem takes_oneOf {d : Char} {chars : List Char} (h : d ∈ chars) :
    (oneOf chars).Takes [d] rest d := by
  intro offset f
  refine ⟨f, ?_⟩
  simp [oneOf, h, Cursor.next, byteSize]

theorem fails_oneOf {chars : List Char} (h : ∀ d ∈ rest.head?, d ∉ chars) :
    (oneOf chars).Fails rest := by
  intro offset f
  unfold oneOf
  cases rest with
  | nil => exact ⟨_, rfl⟩
  | cons d rest =>
    simp only [List.head?_cons, if_neg (h d rfl)]
    exact ⟨_, rfl⟩

theorem takes_char (d : Char) : (char d).Takes [d] rest () :=
  (takes_oneOf (List.mem_singleton.2 rfl)).bind_pure fun _ => ()

theorem fails_char {d : Char} (h : ∀ c ∈ rest.head?, c ≠ d) : (char d).Fails rest :=
  Fails.bind (fails_oneOf fun c hc => by simpa using h c hc)

theorem fails_char_cons {c d : Char} (h : c ≠ d) (cs : List Char) : (char d).Fails (c :: cs) := by
  refine fails_char ?_
  rintro c' ⟨⟩
  exact h

theorem takes_charOf {k : CharClass} {d : Char} (h : k.holds d = true) :
    (charOf k).Takes [d] rest d := by
  intro offset f
  refine ⟨f, ?_⟩
  simp [charOf, h, Cursor.next, byteSize]

theorem fails_charOf {k : CharClass} (h : ∀ d ∈ rest.head?, k.holds d = false) :
    (charOf k).Fails rest := by
  intro offset f
  unfold charOf
  cases rest with
  | nil => exact ⟨_, rfl⟩
  | cons d rest =>
    simp only [List.head?_cons, h d rfl]
    exact ⟨_, rfl⟩

theorem follows_oneOf (chars : List Char) :
    (oneOf chars).Follows fun cs d => cs = [d] ∧ d ∈ chars := by
  intro c f d c' f' h
  unfold oneOf at h
  split at h
  · rename_i d' hd'
    split_ifs at h with hd
    · obtain ⟨⟨⟨rfl, rfl⟩⟩, -⟩ := Prod.mk.inj h
      exact ⟨_, c.between_next hd', rfl, hd⟩
    · cases h
  · cases h

theorem follows_char (d : Char) : (char d).Follows fun cs _ => cs = [d] :=
  (follows_oneOf [d]).bind_pure fun _ _ h => List.mem_singleton.1 h.2 ▸ h.1

theorem follows_charOf (k : CharClass) :
    (charOf k).Follows fun cs d => cs = [d] ∧ k.holds d = true := by
  intro c f d c' f' h
  unfold charOf at h
  split at h
  · rename_i d' hd'
    split_ifs at h with hd
    · obtain ⟨⟨⟨rfl, rfl⟩⟩, -⟩ := Prod.mk.inj h
      exact ⟨_, c.between_next hd', rfl, hd⟩
    · cases h
  · cases h

theorem takes_run {k : CharClass} (hcs : ∀ c ∈ cs, k.holds c = true)
    (hrest : ∀ d ∈ rest.head?, k.holds d = false) : (run k).Takes cs rest cs := by
  intro offset f
  let stop : Cursor := ⟨rest, offset + byteSize cs⟩
  refine ⟨some (Failure.merge (Failure.expected stop [k.missed stop]) f), ?_⟩
  simp only [run, Cursor.skip, Text.takeWhile_append_of_head? hcs hrest,
    Text.dropWhile_append_of_head? hcs hrest]
  rfl

theorem follows_run (k : CharClass) :
    (run k).Follows fun cs ds => cs = ds ∧ ∀ d ∈ ds, k.holds d = true := by
  intro c f ds c' f' h
  obtain ⟨⟨⟨rfl, rfl⟩⟩, -⟩ := Prod.mk.inj h
  exact ⟨_, c.between_skip k.holds, rfl, fun d hd =>
    List.all_eq_true.1 List.all_takeWhile d hd⟩

theorem takes_run1 {k : CharClass} (hne : cs ≠ []) (hcs : ∀ c ∈ cs, k.holds c = true)
    (hrest : ∀ d ∈ rest.head?, k.holds d = false) : (run1 k).Takes cs rest cs := by
  obtain ⟨c, cs, rfl⟩ := List.exists_cons_of_ne_nil hne
  rw [List.forall_mem_cons] at hcs
  exact Takes.bind (takes_charOf hcs.1) ((takes_run hcs.2 hrest).bind_pure (c :: ·))

theorem follows_run1 (k : CharClass) :
    (run1 k).Follows fun cs ds => cs = ds ∧ ds ≠ [] ∧ ∀ d ∈ ds, k.holds d = true :=
  (follows_charOf k).bind fun _ d hd => (follows_run k).bind_pure fun _ ds hds =>
    ⟨by rw [hd.1, hds.1]; rfl, List.cons_ne_nil d ds, List.forall_mem_cons.2 ⟨hd.2, hds.2⟩⟩

theorem fails_run1 {k : CharClass} (h : ∀ d ∈ rest.head?, k.holds d = false) :
    (run1 k).Fails rest := Fails.bind (fails_charOf h)

/-! ## White space -/

def NoSpace (rest : List Char) : Prop := ∀ c ∈ rest.head?, c ∉ Text.whiteSpace

theorem takes_space (hcs : ∀ c ∈ cs, c ∈ Text.whiteSpace) (hrest : NoSpace rest) :
    space.Takes cs rest () := by
  intro offset f
  refine ⟨f, ?_⟩
  have hcs : ∀ c ∈ cs, decide (c ∈ Text.whiteSpace) = true := fun c hc => decide_eq_true (hcs c hc)
  have hrest : ∀ c ∈ rest.head?, decide (c ∈ Text.whiteSpace) = false := fun c hc =>
    decide_eq_false (hrest c hc)
  simp only [space, Cursor.skip, Text.takeWhile_append_of_head? hcs hrest,
    Text.dropWhile_append_of_head? hcs hrest]

theorem Takes.spaced {us vs : List Char} (hus : ∀ c ∈ us, c ∈ Text.whiteSpace)
    (hvs : ∀ c ∈ vs, c ∈ Text.whiteSpace) (hcs : NoSpace (cs ++ (vs ++ rest)))
    (hrest : NoSpace rest) (hp : p.Takes cs (vs ++ rest) a) :
    (Reader.spaced p).Takes (us ++ (cs ++ vs)) rest a := by
  rw [← List.append_assoc] at hcs
  exact Takes.bind (takes_space hus hcs)
    (Takes.bind hp ((takes_space hvs hrest).bind_pure fun _ => a))

theorem Fails.spaced {us : List Char} (hus : ∀ c ∈ us, c ∈ Text.whiteSpace) (hrest : NoSpace rest)
    (hp : p.Fails rest) : (Reader.spaced p).Fails (us ++ rest) :=
  (takes_space hus hrest).bind_fails hp.bind

theorem Takes.spaced_nil {vs : List Char} (hvs : ∀ c ∈ vs, c ∈ Text.whiteSpace)
    (hcs : NoSpace (cs ++ (vs ++ rest))) (hrest : NoSpace rest) (hp : p.Takes cs (vs ++ rest) a) :
    (Reader.spaced p).Takes (cs ++ vs) rest a := by
  have h : (Reader.spaced p).Takes ([] ++ (cs ++ vs)) rest a :=
    Takes.spaced (by simp) hvs hcs hrest hp
  exact h

theorem Fails.spaced_nil (hrest : NoSpace rest) (hp : p.Fails rest) :
    (Reader.spaced p).Fails rest := by
  have h : (Reader.spaced p).Fails ([] ++ rest) := Fails.spaced (by simp) hrest hp
  exact h

theorem follows_space : space.Follows fun cs _ => ∀ c ∈ cs, c ∈ Text.whiteSpace := by
  intro c f u c' f' h
  obtain ⟨⟨⟨-, rfl⟩⟩, -⟩ := Prod.mk.inj h
  exact ⟨_, c.between_skip _, fun d hd =>
    of_decide_eq_true (List.all_eq_true.1 List.all_takeWhile d hd)⟩

theorem Follows.spaced {S : List Char → α → Prop} (hp : p.Follows R)
    (h : ∀ us cs vs a, (∀ c ∈ us, c ∈ Text.whiteSpace) → R cs a →
      (∀ c ∈ vs, c ∈ Text.whiteSpace) → S (us ++ (cs ++ vs)) a) : (Reader.spaced p).Follows S :=
  follows_space.bind fun us _ hus => hp.bind fun cs a ha => follows_space.bind_pure fun vs _ hvs =>
    h us cs vs a hus ha hvs

/-! ## Productions -/

theorem Takes.apart (hp : p.Takes cs rest a) : p.apart.Takes cs rest a := by
  intro offset f
  obtain ⟨f₁, h₁⟩ := hp offset none
  exact ⟨rejoin f₁ f, by simp only [Reader.apart, h₁]⟩

theorem Fails.apart (hp : p.Fails rest) : p.apart.Fails rest := by
  intro offset f
  obtain ⟨f₁, h₁⟩ := hp offset none
  exact ⟨rejoin f₁ f, by simp only [Reader.apart, h₁]⟩

theorem Follows.apart (hp : p.Follows R) : p.apart.Follows R := by
  intro c f a c' f' h
  exact hp c none a c' (p c none).2 (Prod.ext (Prod.mk.inj h).1 rfl)

variable {prod : Production}

theorem Takes.named (hp : p.Takes cs rest a) : (p.named prod).Takes cs rest a := by
  intro offset f
  obtain ⟨f₁, h₁⟩ := hp offset none
  exact ⟨rejoin (f₁.map (Failure.named prod offset)) f, by simp only [Reader.named, h₁]⟩

theorem Fails.named (hp : p.Fails rest) : (p.named prod).Fails rest := by
  intro offset f
  obtain ⟨f₁, h₁⟩ := hp offset none
  exact ⟨rejoin (f₁.map (Failure.named prod offset)) f, by simp only [Reader.named, h₁]⟩

theorem Follows.named (hp : p.Follows R) : (p.named prod).Follows R := by
  intro c f a c' f' h
  exact hp c none a c' (p c none).2 (Prod.ext (Prod.mk.inj h).1 rfl)

/-! ## Whole texts -/

theorem takes_endOfInput : endOfInput.Takes [] [] () := fun _ f => ⟨f, rfl⟩

theorem Takes.parse {text : String} (hp : p.Takes text.toList [] a) : p.parse text = .ok a := by
  have h : (do let a ← p; endOfInput; return a : Reader α).Takes (text.toList ++ []) [] a :=
    hp.bind (takes_endOfInput.bind_pure fun _ => a)
  obtain ⟨f, hf⟩ := h 0 none
  rw [List.append_nil, List.append_nil] at hf
  unfold Reader.parse
  simp only [Cursor.ofString, hf]

theorem exists_of_parse {text : String} (h : p.parse text = .ok a) :
    ∃ c f, p (.ofString text) none = (some (a, c), f) ∧ c.rest = [] := by
  unfold Reader.parse at h
  rcases hp : p (.ofString text) none with ⟨_ | ⟨a', c⟩, f⟩
  · simp only [bind_of_none hp] at h
    cases f <;> cases h
  · simp only [bind_of_some hp] at h
    rcases hc : c.rest with _ | ⟨d, ds⟩
    · have hend : endOfInput c f = (some ((), c), f) := by simp only [endOfInput, hc]
      rw [bind_of_some hend] at h
      obtain rfl := Except.ok.inj h
      exact ⟨c, f, rfl, hc⟩
    · have hend : endOfInput c f = (none, some (Failure.miss c [.endOfInput] f)) := by
        simp only [endOfInput, hc]
      rw [bind_of_none hend] at h
      cases h

/-- A reader of a whole text takes all of it. -/
theorem Follows.parse {text : String} (hp : p.Follows R) (h : p.parse text = .ok a) :
    R text.toList a := by
  obtain ⟨c, f, hparse, hend⟩ := exists_of_parse h
  obtain ⟨cs, hcs, ha⟩ := hp _ _ _ _ _ hparse
  have htext : text.toList = cs := by
    have := hcs.rest
    rwa [hend, List.append_nil] at this
  exact htext ▸ ha

end Reader

end BitSynth
