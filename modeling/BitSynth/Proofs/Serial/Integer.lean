import BitSynth.Serial.Integer
import Mathlib.Data.List.Induction
import Mathlib.Data.Nat.Digits.Defs
import Mathlib.Tactic.Common

/-!
# Integers read from data and written back

Reading an integer ignores zeros above its highest digit, and a sign of zero stands for zero
whatever the digits. Writing it gives the canonical form of what was read: no such zeros, and the
sign zero for zero alone (`canonicalInt_ofInt`).
-/

open BitSynth.Serial.Tree

namespace BitSynth.Serial

/-! ## Digits -/

section Words

variable {ws us : List Nat}

theorem one_lt_wordBase : 1 < wordBase := by decide

theorem ofWords_eq_ofDigits (ws : List Nat) : ofWords ws = Nat.ofDigits wordBase ws := by
  induction ws with
  | nil => rfl
  | cons w ws ih => rw [ofWords, ih, Nat.ofDigits_cons]

theorem toWords_eq_digits (n : Nat) : toWords n = wordBase.digits n := by
  fun_induction toWords n with
  | case1 => rfl
  | case2 n h ih => rw [ih, Nat.digits_def' one_lt_wordBase (Nat.pos_of_ne_zero h)]

theorem toWords_zero : toWords 0 = [] := by rw [toWords_eq_digits, Nat.digits_zero]

theorem toWords_lt (n : Nat) : ∀ w ∈ toWords n, w < wordBase := by
  rw [toWords_eq_digits]
  exact fun w hw => Nat.digits_lt_base one_lt_wordBase hw

/-- Words of 32 bits without a zero at the end are the digits of their number. -/
theorem toWords_ofWords (hws : ∀ w ∈ ws, w < wordBase) (hhigh : ∀ h : ws ≠ [], ws.getLast h ≠ 0) :
    toWords (ofWords ws) = ws := by
  rw [toWords_eq_digits, ofWords_eq_ofDigits]
  exact Nat.digits_ofDigits wordBase one_lt_wordBase ws hws hhigh

theorem ofWords_append_zeros (ws : List Nat) (n : Nat) :
    ofWords (ws ++ List.replicate n 0) = ofWords ws := by
  simp only [ofWords_eq_ofDigits, Nat.ofDigits_append_replicate_zero]

theorem exists_append_zeros (ws : List Nat) : ∃ us n, ws = us ++ List.replicate n 0
    ∧ ∀ h : us ≠ [], us.getLast h ≠ 0 := by
  induction ws using List.reverseRecOn with
  | nil => exact ⟨[], 0, rfl, fun h => absurd rfl h⟩
  | append_singleton ws w ih =>
    by_cases hw : w = 0
    · obtain ⟨us, n, rfl, hus⟩ := ih
      refine ⟨us, n + 1, ?_, hus⟩
      rw [hw, List.append_assoc, List.replicate_succ']
    · refine ⟨ws ++ [w], 0, by simp, fun _ => ?_⟩
      rwa [List.getLast_concat]

end Words

/-! ## Canonical forms -/

namespace Tree

/-- A sign and a magnitude in words. -/
def signed (sign : Int) (ws : List Nat) : Tree :=
  .list [.int sign, .list (ws.map fun (w : Nat) => .int w)]

theorem ofInt_eq_signed (v : Int) : ofInt v = signed v.sign (toWords v.natAbs) := rfl

theorem ofInt_zero : ofInt 0 = signed 0 [] := by
  rw [ofInt_eq_signed, Int.natAbs_zero, toWords_zero]
  rfl

theorem nat?_eq_some_iff {bound n : Nat} {t : Tree} :
    t.nat? bound = some n ↔ t = .int n ∧ n < bound := by
  cases t with
  | int v =>
    rw [nat?, Tree.int.injEq]
    split_ifs with h
    · rw [Option.some.injEq]
      omega
    · refine ⟨nofun, ?_⟩
      omega
  | _ => simp [nat?]

theorem mapM_nat?_eq_some_iff {bound : Nat} : ∀ {ts : List Tree} {ns : List Nat},
    ts.mapM (nat? bound) = some ns ↔ ts = ns.map (fun (n : Nat) => .int n) ∧ ∀ n ∈ ns, n < bound
  | [], ns => by
    rw [List.mapM_nil, eq_comm (a := []), List.map_eq_nil_iff]
    constructor
    · rintro ⟨⟩
      exact ⟨rfl, List.forall_mem_nil _⟩
    · rintro ⟨rfl, -⟩
      rfl
  | t :: ts, ns => by
    simp only [List.mapM_cons, Option.bind_eq_bind, Option.bind_eq_some_iff, nat?_eq_some_iff,
      mapM_nat?_eq_some_iff]
    constructor
    · rintro ⟨n, ⟨rfl, hn⟩, ns, ⟨rfl, hns⟩, ⟨⟩⟩
      exact ⟨rfl, List.forall_mem_cons.2 ⟨hn, hns⟩⟩
    · rintro ⟨heq, hns⟩
      obtain ⟨n, ns, rfl, rfl, rfl⟩ := List.map_eq_cons_iff.1 heq.symm
      rw [List.forall_mem_cons] at hns
      exact ⟨n, ⟨rfl, hns.1⟩, ns, ⟨rfl, hns.2⟩, rfl⟩

/-- An integer is read from a sign and words of 32 bits. -/
theorem toInt?_eq_some_iff {t : Tree} {v : Int} : t.toInt? = some v ↔
    ∃ (sign : Int) (ws : List Nat), t = signed sign ws ∧ (∀ w ∈ ws, w < wordBase)
      ∧ (sign = 1 ∨ sign = -1 ∨ sign = 0) ∧ v = sign * ofWords ws := by
  constructor
  · intro h
    unfold toInt? at h
    split at h
    · rename_i sign words
      obtain ⟨ws, hwords, hv⟩ := Option.bind_eq_some_iff.1 h
      obtain ⟨rfl, hws⟩ := mapM_nat?_eq_some_iff.1 hwords
      refine ⟨sign, ws, rfl, hws, ?_⟩
      split_ifs at hv with hpos hneg hzero
      · exact ⟨.inl hpos, by rw [← Option.some.inj hv, hpos, Int.one_mul]⟩
      · exact ⟨.inr (.inl hneg), by rw [← Option.some.inj hv, hneg, Int.neg_mul, Int.one_mul]⟩
      · exact ⟨.inr (.inr hzero), by rw [← Option.some.inj hv, hzero, Int.zero_mul]⟩
    · cases h
  · rintro ⟨sign, ws, rfl, hws, hsign, rfl⟩
    refine Option.bind_eq_some_iff.2 ⟨ws, mapM_nat?_eq_some_iff.2 ⟨rfl, hws⟩, ?_⟩
    rcases hsign with rfl | rfl | rfl <;> simp

theorem toInt?_ofInt (v : Int) : (ofInt v).toInt? = some v := by
  refine toInt?_eq_some_iff.2 ⟨v.sign, toWords v.natAbs, rfl, toWords_lt _, ?_, ?_⟩
  · rcases Int.lt_trichotomy v 0 with h | rfl | h
    · exact .inr (.inl (Int.sign_eq_neg_one_of_neg h))
    · exact .inr (.inr rfl)
    · exact .inl (Int.sign_eq_one_of_pos h)
  · rw [ofWords_toWords, Int.sign_mul_natAbs]

end Tree

/-- The second tree is the canonical form of the integer that the first one is: zeros above the
highest digit are left out, and if no digit is left or counts, so is the sign. -/
inductive CanonicalInt : Tree → Tree → Prop
  | nonzero {sign : Int} {ws : List Nat} (zeros : Nat) (hsign : sign = 1 ∨ sign = -1)
      (hws : ∀ w ∈ ws, w < wordBase) (hne : ws ≠ []) (hhigh : ws.getLast hne ≠ 0) :
      CanonicalInt (signed sign (ws ++ List.replicate zeros 0)) (signed sign ws)
  | zero {sign : Int} {ws : List Nat} (hsign : sign = 1 ∨ sign = -1 ∨ sign = 0)
      (hws : ∀ w ∈ ws, w < wordBase) (hzero : sign = 0 ∨ ∀ w ∈ ws, w = 0) :
      CanonicalInt (signed sign ws) (signed 0 [])

/-- A sign with digits of which the highest is not zero is the form of an integer. -/
theorem ofInt_signed {sign : Int} {ws : List Nat} (hsign : sign = 1 ∨ sign = -1)
    (hws : ∀ w ∈ ws, w < wordBase) (hne : ws ≠ []) (hhigh : ws.getLast hne ≠ 0) :
    ofInt (sign * ofWords ws) = signed sign ws := by
  have hwords := toWords_ofWords hws fun _ => hhigh
  have hpos : 0 < ofWords ws := by
    refine Nat.pos_of_ne_zero fun h => hne ?_
    rw [← hwords, h, toWords_zero]
  have habs : (sign * ofWords ws).natAbs = ofWords ws := by
    rcases hsign with rfl | rfl <;> omega
  have hsame : (sign * ofWords ws).sign = sign := by
    rcases hsign with rfl | rfl
    · exact Int.sign_eq_one_of_pos (by omega)
    · exact Int.sign_eq_neg_one_of_neg (by omega)
  rw [ofInt_eq_signed, habs, hsame, hwords]

theorem canonicalInt_ofInt {t : Tree} {v : Int} (h : t.toInt? = some v) :
    CanonicalInt t (ofInt v) := by
  obtain ⟨sign, ws, rfl, hws, hsign, rfl⟩ := toInt?_eq_some_iff.1 h
  obtain ⟨us, zeros, rfl, hhigh⟩ := exists_append_zeros ws
  rw [ofWords_append_zeros]
  by_cases hzero : sign = 0 ∨ us = []
  · have hvalue : sign * ofWords us = 0 := by
      rcases hzero with rfl | rfl
      · exact Int.zero_mul _
      · exact Int.mul_zero _
    rw [hvalue, ofInt_zero]
    refine .zero hsign hws (hzero.imp_right ?_)
    rintro rfl w hw
    exact List.eq_of_mem_replicate hw
  · rw [not_or] at hzero
    have hsign' : sign = 1 ∨ sign = -1 := by omega
    have hus : ∀ w ∈ us, w < wordBase := fun w hw => hws w (List.mem_append_left _ hw)
    rw [ofInt_signed hsign' hus hzero.2 (hhigh hzero.2)]
    exact .nonzero zeros hsign' hus hzero.2 (hhigh hzero.2)

end BitSynth.Serial
