import BitSynth.Proofs.Outcome
import BitSynth.Sygus.Library
import Mathlib.Data.List.Nodup

/-!
# The kinds of a library

However the entries of a library are ordered and repeated, no two kinds have one key, and the form
of each kind is the one its key allows (`Library.Sound`).
-/

namespace BitSynth.Sygus

/-- The forms that go with a key: that of a built-in operator of the name, that of a function whose
helper has the name, and a bit string of the width. -/
inductive KindForm.Of (bitWidth : Nat) : String → KindForm → Prop
  | builtin (name : String) : Of bitWidth name
      (.operator (Operator.smtName name .value) (Operator.arity name)
        (Relation.ofName? name).isSome)
  | helper (function : String) (arity : Nat) : Of bitWidth (Operator.helperName function)
      (.operator (Operator.helperName function) arity false)
  | constant {v : Nat} (hv : v < Bits.modulus bitWidth) : Of bitWidth (Bits.binary v bitWidth)
      (.constant (Bits.binary v bitWidth))

theorem KindForm.Of.eq_binary {bitWidth : Nat} {key literal : String}
    (h : (KindForm.constant literal).Of bitWidth key) :
    ∃ v : Nat, v < Bits.modulus bitWidth ∧ literal = Bits.binary v bitWidth := by
  cases h with
  | constant hv => exact ⟨_, hv, rfl⟩

namespace Kind

theorem mem_tally {key : String} {form : KindForm} {k : Kind} : ∀ {ks : List Kind},
    k ∈ tally key form ks → k = ⟨key, 1, form⟩ ∨ ∃ j ∈ ks, k.key = j.key ∧ k.form = j.form
  | [], h => .inl (List.mem_singleton.1 h)
  | j :: ks, h => by
    unfold tally at h
    split_ifs at h
    · rcases List.mem_cons.1 h with rfl | h
      · exact .inr ⟨j, List.mem_cons_self .., rfl, rfl⟩
      · exact .inr ⟨k, List.mem_cons_of_mem j h, rfl, rfl⟩
    · rcases List.mem_cons.1 h with rfl | h
      · exact .inr ⟨k, List.mem_cons_self .., rfl, rfl⟩
      · rcases mem_tally h with h | ⟨i, hi, h⟩
        · exact .inl h
        · exact .inr ⟨i, List.mem_cons_of_mem j hi, h⟩

theorem mem_map_key_tally {key key' : String} {form : KindForm} : ∀ {ks : List Kind},
    key' ∈ (tally key form ks).map Kind.key → key' = key ∨ key' ∈ ks.map Kind.key
  | [], h => .inl (List.mem_singleton.1 h)
  | j :: ks, h => by
    unfold tally at h
    split_ifs at h
    · exact .inr h
    · rcases List.mem_cons.1 h with rfl | h
      · exact .inr (List.mem_cons_self ..)
      · exact (mem_map_key_tally h).imp_right (List.mem_cons_of_mem _)

theorem nodup_key_tally {key : String} {form : KindForm} : ∀ {ks : List Kind},
    (ks.map Kind.key).Nodup → ((tally key form ks).map Kind.key).Nodup
  | [], _ => List.nodup_singleton _
  | j :: ks, h => by
    unfold tally
    split_ifs with hj
    · exact h
    · rw [List.map_cons, List.nodup_cons] at h ⊢
      refine ⟨fun hmem => ?_, nodup_key_tally h.2⟩
      exact (mem_map_key_tally hmem).elim hj h.1

theorem find?_of_mem {k : Kind} : ∀ {ks : List Kind}, (ks.map Kind.key).Nodup → k ∈ ks →
    ks.find? (·.key = k.key) = some k
  | j :: ks, hks, hk => by
    rw [List.map_cons, List.nodup_cons] at hks
    rcases List.mem_cons.1 hk with rfl | hk
    · exact List.find?_cons_of_pos (decide_eq_true rfl)
    · have hne : j.key ≠ k.key := fun h => hks.1 (h ▸ List.mem_map_of_mem hk)
      rw [List.find?_cons_of_neg (by simpa using hne), find?_of_mem hks.2 hk]

/-- An entry adds to the count of its kind, whose form is that of the first entry. -/
theorem find?_tally (key : String) (form : KindForm) (key' : String) : ∀ ks : List Kind,
    (tally key form ks).find? (·.key = key') = if key = key'
      then some ((ks.find? (·.key = key)).elim ⟨key, 1, form⟩ fun k => { k with count := k.count + 1 })
      else ks.find? (·.key = key')
  | [] => by
    rw [tally, List.find?_singleton]
    simp only [decide_eq_true_eq]
    rfl
  | j :: ks => by
    have ih := find?_tally key form key' ks
    unfold tally
    by_cases hj : j.key = key
    · subst hj
      rw [if_pos rfl, List.find?_cons, List.find?_cons, List.find?_cons]
      by_cases h : j.key = key'
      · simp [h]
      · simp [h]
    · rw [if_neg hj, List.find?_cons, List.find?_cons, List.find?_cons, ih]
      by_cases h : j.key = key'
      · have hkey : key ≠ key' := fun h' => hj (h.trans h'.symm)
        simp [h, hkey]
      · simp [h, hj]

end Kind

namespace Library

variable {e : Encoder} {l l' : Library}

/-- The term defines the helper of some function. -/
def IsHelper (t : Term) : Prop :=
  ∃ function names sort body,
    t = .defineFun (Operator.helperName function) names sort sort body

/-- The keys of the kinds are distinct, each kind has a form that goes with its key, and only
helpers are defined. -/
structure Sound (bitWidth : Nat) (l : Library) : Prop where
  keys : (l.kinds.map Kind.key).Nodup
  forms : ∀ k ∈ l.kinds, k.form.Of bitWidth k.key
  helpers : ∀ t ∈ l.helpers, IsHelper t

theorem Sound.tally {bitWidth : Nat} {key : String} {form : KindForm} (h : l.Sound bitWidth)
    (hform : form.Of bitWidth key) (hl : l'.kinds = Kind.tally key form l.kinds)
    (hhelpers : ∀ t ∈ l'.helpers, IsHelper t) : l'.Sound bitWidth := by
  refine ⟨hl ▸ Kind.nodup_key_tally h.keys, fun k hk => ?_, hhelpers⟩
  rcases Kind.mem_tally (hl ▸ hk) with rfl | ⟨j, hj, hkey, hkform⟩
  · exact hform
  · rw [hkey, hkform]
    exact h.forms j hj

end Library

theorem modulus_mono {m n : Nat} (h : m ≤ n) : Bits.modulus m ≤ Bits.modulus n :=
  Nat.pow_le_pow_right (by decide) h

/-- A constant of the library is written with the digits of a number that the width holds. -/
theorem result_encodeConstant_eq_ok {e : Encoder} {value : Int} {width : Nat} {key : String}
    (h : (e.encodeConstant value width).result = .ok key) :
    ∃ v : Nat, v < Bits.modulus e.bitWidth ∧ key = Bits.binary v e.bitWidth := by
  rw [Encoder.encodeConstant, Logged.result_bind_eq_ok_iff] at h
  obtain ⟨_, -, h⟩ := h
  simp only [Logged.result_pure, Except.ok.injEq] at h
  have h₀ := Bits.truncate_nonneg value (min width e.bitWidth)
  have hlt := Bits.truncate_lt value (min width e.bitWidth)
  have hmono := modulus_mono (Nat.min_le_right width e.bitWidth)
  refine ⟨(Bits.truncate value (min width e.bitWidth)).toNat, by omega, ?_⟩
  rw [Int.toNat_of_nonneg h₀, h]

namespace Library

variable {e : Encoder} {l l' : Library}

theorem any_key_iff {key : String} :
    l.kinds.any (·.key = key) = true ↔ key ∈ l.kinds.map Kind.key := by
  simp only [List.any_eq_true, List.mem_map, decide_eq_true_eq]

theorem add_cases {entry : LibraryEntry} (h : (add e l entry).result = .ok l') :
    (∃ name, entry = .operator name
        ∧ l' = { l with
            kinds := Kind.tally name.name
              (.operator (Operator.smtName name.name .value) (Operator.arity name.name)
                (Relation.ofName? name.name).isSome) l.kinds })
    ∨ (∃ width, entry = .constant width none ∧ (∀ w, l.freeWidth = some w → w = width)
        ∧ l' = { l with freeWidth := some width })
    ∨ (∃ width literal key, entry = .constant width (some literal)
        ∧ (e.encodeConstant literal.value width).result = .ok key
        ∧ l' = { l with kinds := Kind.tally key (.constant key) l.kinds })
    ∨ (∃ name params body helpers, entry = .function name params body
        ∧ (Operator.helperName name.name ∈ l.kinds.map Kind.key ∧ helpers = l.helpers
          ∨ Operator.helperName name.name ∉ l.kinds.map Kind.key
            ∧ ∃ t, (e.encode body).result = .ok t
              ∧ helpers = l.helpers ++ [.defineFun (Operator.helperName name.name)
                  (params.map Ident.name) (.bitVec e.bitWidth) (.bitVec e.bitWidth) t])
        ∧ l' = { l with
            kinds := Kind.tally (Operator.helperName name.name)
              (.operator (Operator.helperName name.name) params.length false) l.kinds
            helpers := helpers }) := by
  cases entry with
  | operator name =>
    simp only [add, Logged.result_pure, Except.ok.injEq] at h
    exact .inl ⟨name, rfl, h.symm⟩
  | constant width value =>
    cases value with
    | none =>
      refine .inr (.inl ⟨width, rfl, ?_⟩)
      simp only [add] at h
      split at h
      · rename_i first hfirst
        split_ifs at h with hw
        · simp only [Logged.result_pure, Except.ok.injEq] at h
          subst h hw
          exact ⟨fun w h => Option.some.inj (h.symm.trans hfirst), by rw [← hfirst]⟩
        · cases h
      · rename_i hnone
        simp only [Logged.result_pure, Except.ok.injEq] at h
        refine ⟨fun w hw => ?_, h.symm⟩
        rw [hnone] at hw
        cases hw
    | some literal =>
      simp only [add, Logged.result_bind_eq_ok_iff, Logged.result_pure, Except.ok.injEq] at h
      obtain ⟨key, hkey, rfl⟩ := h
      exact .inr (.inr (.inl ⟨width, literal, key, rfl, hkey, rfl⟩))
  | function name params body =>
    simp only [add] at h
    split at h
    · rename_i hkey
      simp only [Logged.result_bind_eq_ok_iff, Logged.result_pure, Except.ok.injEq] at h
      obtain ⟨helpers, rfl, rfl⟩ := h
      exact .inr (.inr (.inr ⟨name, params, body, _, rfl, .inl ⟨any_key_iff.1 hkey, rfl⟩, rfl⟩))
    · rename_i hkey
      simp only [Logged.result_bind_eq_ok_iff, Logged.result_pure, Except.ok.injEq] at h
      obtain ⟨t, ht, helpers, rfl, rfl⟩ := h
      exact .inr (.inr (.inr
        ⟨name, params, body, _, rfl, .inr ⟨mt any_key_iff.2 hkey, t, ht, rfl⟩, rfl⟩))

theorem Sound.add {entry : LibraryEntry} (hl : l.Sound e.bitWidth)
    (h : (add e l entry).result = .ok l') : l'.Sound e.bitWidth := by
  rcases add_cases h with ⟨name, -, rfl⟩ | ⟨width, -, -, rfl⟩ |
    ⟨width, literal, key, -, hkey, rfl⟩ | ⟨name, params, body, helpers, -, hhelpers, rfl⟩
  · exact hl.tally (.builtin name.name) rfl hl.helpers
  · exact ⟨hl.keys, hl.forms, hl.helpers⟩
  · obtain ⟨v, hv, rfl⟩ := result_encodeConstant_eq_ok hkey
    exact hl.tally (.constant hv) rfl hl.helpers
  · refine hl.tally (.helper name.name params.length) rfl fun t ht => ?_
    rcases hhelpers with ⟨-, rfl⟩ | ⟨-, b, -, rfl⟩
    · exact hl.helpers t ht
    · rcases List.mem_append.1 ht with ht | ht
      · exact hl.helpers t ht
      · exact ⟨name.name, _, _, b, List.mem_singleton.1 ht⟩

end Library

namespace TaggedLibrary

variable {e : Encoder} {s : Settings} {entries : List LibraryEntry} {l : TaggedLibrary}

theorem result_recordKinds (l : Library) : (l.kinds.forM fun k => Logged.emit .debug .library
    ("Kind " ++ k.key ++ " required " ++ toString k.count ++ " times")).result = .ok () :=
  Logged.forM_emit_result fun _ _ => rfl

/-- A library comes from its entries and has passed the check of its counts. -/
theorem ofEntries_eq_ok_iff : (ofEntries entries e s).result = .ok l ↔
    (entries.foldlM (Library.add e) {}).result = .ok l.toLibrary
      ∧ l.toLibrary.checkCounts s.tagBits = .ok () ∧ l.tagBits = s.tagBits := by
  simp only [ofEntries, Logged.result_bind_eq_ok_iff, Logged.result_ofExcept, Logged.result_pure,
    Except.ok.injEq]
  constructor
  · rintro ⟨l', hl', _, hcheck, _, -, rfl⟩
    exact ⟨hl', hcheck, rfl⟩
  · rintro ⟨hl, hcheck, htag⟩
    exact ⟨l.toLibrary, hl, (), hcheck, (), result_recordKinds _, by rw [← htag]⟩

theorem sound_of_ofEntries (h : (ofEntries entries e s).result = .ok l) :
    l.toLibrary.Sound e.bitWidth := by
  obtain ⟨hfold, -, -⟩ := ofEntries_eq_ok_iff.1 h
  rw [Logged.result_foldlM] at hfold
  exact foldlM_induction hfold ⟨List.nodup_nil, by simp, by simp⟩ fun _ _ _ _ hl h => hl.add h

end TaggedLibrary

namespace Library

variable {l : Library} {tagBits : Nat}

theorem checkCounts_eq_ok_iff : l.checkCounts tagBits = .ok () ↔
    ∀ p ∈ l.kinds.zip l.uses, p.2 ≤ maxCount tagBits := by
  unfold checkCounts
  split
  · rename_i k n h
    simp only [reduceCtorEq, false_iff, not_forall]
    exact ⟨(k, n), List.mem_of_find?_eq_some h, Nat.not_le.2 (by simpa using List.find?_some h)⟩
  · rename_i h
    simpa using List.find?_eq_none.1 h

end Library

end BitSynth.Sygus
