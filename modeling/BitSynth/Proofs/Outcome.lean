import BitSynth.Event
import Mathlib.Data.List.Forall2
import Mathlib.Tactic.Common

/-!
# Results

When a sequence of steps has a result, each step has one, and what the steps preserve holds in the
end. The result of logged steps is that of their results.
-/

namespace BitSynth

section Results

variable {ε ε' α β : Type} {x : Except ε α} {a : α}

theorem bind_eq_ok_iff {f : α → Except ε β} {b : β} :
    x >>= f = .ok b ↔ ∃ a, x = .ok a ∧ f a = .ok b := by
  cases x with
  | error e =>
    refine ⟨nofun, ?_⟩
    rintro ⟨a, ⟨⟩, -⟩
  | ok a =>
    refine ⟨fun h => ⟨a, rfl, h⟩, ?_⟩
    rintro ⟨a', h, hf⟩
    obtain rfl := Except.ok.inj h
    exact hf

theorem of_bind_eq_error {f : α → Except ε β} {e : ε} (h : x >>= f = .error e) :
    x = .error e ∨ ∃ a, x = .ok a ∧ f a = .error e := by
  cases x with
  | error e' =>
    obtain rfl : e' = e := Except.error.inj h
    exact .inl rfl
  | ok a => exact .inr ⟨a, rfl, h⟩

theorem mapError_eq_ok_iff {g : ε → ε'} : x.mapError g = .ok a ↔ x = .ok a := by
  cases x with
  | error e => simp [Except.mapError]
  | ok a => simp [Except.mapError]

theorem mapError_eq_error_iff {g : ε → ε'} {e' : ε'} :
    x.mapError g = .error e' ↔ ∃ e, x = .error e ∧ g e = e' := by
  cases x with
  | error e => simp [Except.mapError]
  | ok a => simp [Except.mapError]

theorem toOption_eq_some_iff : x.toOption = some a ↔ x = .ok a := by
  cases x with
  | error e => simp [Except.toOption]
  | ok a => simp [Except.toOption]

theorem mapM_eq_ok_iff {f : α → Except ε β} : ∀ {as : List α} {bs : List β},
    as.mapM f = .ok bs ↔ List.Forall₂ (fun a b => f a = .ok b) as bs
  | [], bs => by
    rw [List.mapM_nil, List.forall₂_nil_left_iff]
    exact ⟨fun h => (Except.ok.inj h).symm, fun h => h ▸ rfl⟩
  | a :: as, bs => by
    simp only [List.mapM_cons, bind_eq_ok_iff, mapM_eq_ok_iff, List.forall₂_cons_left_iff]
    refine ⟨?_, ?_⟩
    · rintro ⟨b, hb, bs, hbs, heq⟩
      exact ⟨b, bs, hb, hbs, (Except.ok.inj heq).symm⟩
    · rintro ⟨b, bs, hb, hbs, rfl⟩
      exact ⟨b, hb, bs, hbs, rfl⟩

/-- A map has results exactly if each of its steps has one. -/
theorem exists_mapM_eq_ok_iff {f : α → Except ε β} {as : List α} :
    (∃ bs, as.mapM f = .ok bs) ↔ ∀ a ∈ as, ∃ b, f a = .ok b := by
  simp only [mapM_eq_ok_iff]
  induction as with
  | nil => simp
  | cons a as ih =>
    rw [List.forall_mem_cons, ← ih]
    simp only [List.forall₂_cons_left_iff]
    exact ⟨fun ⟨_, b, bs, hb, hbs, _⟩ => ⟨⟨b, hb⟩, bs, hbs⟩,
      fun ⟨⟨b, hb⟩, bs, hbs⟩ => ⟨_, b, bs, hb, hbs, rfl⟩⟩

theorem exists_mem_of_mapM_eq_ok {f : α → Except ε β} {as : List α} {bs : List β}
    (h : as.mapM f = .ok bs) : ∀ b ∈ bs, ∃ a ∈ as, f a = .ok b := by
  induction mapM_eq_ok_iff.1 h with
  | nil => exact List.forall_mem_nil _
  | cons hb hbs ih =>
    refine List.forall_mem_cons.2 ⟨⟨_, List.mem_cons_self .., hb⟩, fun b hb => ?_⟩
    obtain ⟨a, ha, hb⟩ := ih (mapM_eq_ok_iff.2 hbs) b hb
    exact ⟨a, List.mem_cons_of_mem _ ha, hb⟩

theorem exists_mem_of_mapM_eq_error {f : α → Except ε β} {e : ε} : ∀ {as : List α},
    as.mapM f = .error e → ∃ a ∈ as, f a = .error e
  | [], h => by cases h
  | a :: as, h => by
    rw [List.mapM_cons] at h
    rcases of_bind_eq_error h with h | ⟨b, -, h⟩
    · exact ⟨a, List.mem_cons_self .., h⟩
    · rcases of_bind_eq_error h with h | ⟨bs, -, h⟩
      · obtain ⟨a', ha', h⟩ := exists_mem_of_mapM_eq_error h
        exact ⟨a', List.mem_cons_of_mem a ha', h⟩
      · cases h

/-- A fold fails at one of its steps. -/
theorem exists_mem_of_foldlM_eq_error {f : β → α → Except ε β} {e : ε} : ∀ {as : List α} {b : β},
    as.foldlM f b = .error e → ∃ a ∈ as, ∃ b', f b' a = .error e
  | [], _, h => by cases h
  | a :: as, b, h => by
    rw [List.foldlM_cons] at h
    rcases of_bind_eq_error h with h | ⟨c, -, h⟩
    · exact ⟨a, List.mem_cons_self .., b, h⟩
    · obtain ⟨a', ha', c', h⟩ := exists_mem_of_foldlM_eq_error h
      exact ⟨a', List.mem_cons_of_mem a ha', c', h⟩

/-- What holds at the start of a fold and is kept by each of its steps holds at its end. -/
theorem foldlM_induction {P : β → Prop} {f : β → α → Except ε β} : ∀ {as : List α} {b b' : β},
    as.foldlM f b = .ok b' → P b → (∀ a ∈ as, ∀ b b', P b → f b a = .ok b' → P b') → P b'
  | [], b, b', h, hb, _ => by
    obtain rfl := Except.ok.inj h
    exact hb
  | a :: as, b, b', h, hb, step => by
    rw [List.foldlM_cons, bind_eq_ok_iff] at h
    obtain ⟨c, hc, h⟩ := h
    exact foldlM_induction h (step a (List.mem_cons_self ..) b c hb hc)
      fun d hd => step d (List.mem_cons_of_mem a hd)

/-- The error, where the result is one. -/
def failure? : Except ε α → Option ε
  | .ok _ => none
  | .error e => some e

theorem failure?_eq_some_iff {e : ε} : failure? x = some e ↔ x = .error e := by
  cases x with
  | error e' => simp [failure?]
  | ok a => simp [failure?]

theorem failure?_eq_none_iff : failure? x = none ↔ ∃ a, x = .ok a := by
  cases x with
  | error e => simp [failure?]
  | ok a => simp [failure?]

/-- Two steps fail as the first of them that fails, if the second does not depend on the result of
the first. -/
theorem failure?_bind {f : α → Except ε β} {o : Option ε} (h : ∀ a, failure? (f a) = o) :
    failure? (x >>= f) = (failure? x).or o := by
  cases x with
  | error e => rfl
  | ok a => exact h a

end Results

namespace Logged

variable {α β : Type}

@[simp] theorem result_pure (a : α) : (pure a : Logged α).result = .ok a := rfl

@[simp] theorem result_emit (l : Level) (o : Origin) (m : String) :
    (emit l o m).result = .ok () := rfl

@[simp] theorem result_ofExcept (r : Except Error α) : (ofExcept r).result = r := rfl

theorem bind_of_ok {x : Logged α} {a : α} (h : x.result = .ok a) (f : α → Logged β) :
    x >>= f = ⟨x.events ++ (f a).events, (f a).result⟩ := by
  show andThen x f = _
  simp only [andThen, h]

theorem bind_of_error {x : Logged α} {e : Error} (h : x.result = .error e) (f : α → Logged β) :
    x >>= f = ⟨x.events, .error e⟩ := by
  show andThen x f = _
  simp only [andThen, h]

theorem result_bind (x : Logged α) (f : α → Logged β) :
    (x >>= f).result = x.result >>= fun a => (f a).result := by
  cases h : x.result with
  | error e =>
    rw [bind_of_error h]
    rfl
  | ok a =>
    rw [bind_of_ok h]
    rfl

theorem result_bind_eq_ok_iff {x : Logged α} {f : α → Logged β} {b : β} :
    (x >>= f).result = .ok b ↔ ∃ a, x.result = .ok a ∧ (f a).result = .ok b := by
  rw [result_bind, bind_eq_ok_iff]

theorem result_foldlM (f : β → α → Logged β) : ∀ (as : List α) (b : β),
    (as.foldlM f b).result = as.foldlM (fun b a => (f b a).result) b
  | [], _ => rfl
  | a :: as, b => by
    simp only [List.foldlM_cons, result_bind, result_foldlM f as]

theorem forM_emit_result {f : α → Logged Unit} : ∀ {as : List α},
    (∀ a ∈ as, (f a).result = .ok ()) → (as.forM f).result = .ok ()
  | [], _ => rfl
  | a :: as, h => by
    show (f a >>= fun _ => as.forM f).result = .ok ()
    rw [result_bind_eq_ok_iff]
    exact ⟨(), h a (List.mem_cons_self ..),
      forM_emit_result fun b hb => h b (List.mem_cons_of_mem a hb)⟩

end Logged

end BitSynth
