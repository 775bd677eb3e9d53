import BitSynth.Proofs.Text.Classes
import BitSynth.Proofs.Text.Decimal

/-!
# Texts that can be taken apart

A text that is put together from several determines them if each shows where it ends. A numeral or a
name shows it by its characters: all of them belong to a class that the next one does not belong to.
-/

namespace BitSynth.Text

theorem forall_mem_head?_cons {Q : Char → Prop} {c : Char} (h : Q c) (cs : List Char) :
    ∀ d ∈ (c :: cs).head?, Q d := by
  rintro d ⟨⟩
  exact h

section Runs

variable {p : Char → Bool} {cs cs' rest rest' : List Char}

theorem takeWhile_append_of_head? (hcs : ∀ c ∈ cs, p c = true)
    (hrest : ∀ d ∈ rest.head?, p d = false) : (cs ++ rest).takeWhile p = cs := by
  rw [List.takeWhile_append_of_pos hcs]
  cases rest with
  | nil => simp
  | cons d rest => simp [hrest d rfl]

theorem dropWhile_append_of_head? (hcs : ∀ c ∈ cs, p c = true)
    (hrest : ∀ d ∈ rest.head?, p d = false) : (cs ++ rest).dropWhile p = rest := by
  rw [List.dropWhile_append_of_pos hcs]
  cases rest with
  | nil => rfl
  | cons d rest => simp [hrest d rfl]

theorem append_inj_of_head? (hcs : ∀ c ∈ cs, p c = true) (hcs' : ∀ c ∈ cs', p c = true)
    (hrest : ∀ d ∈ rest.head?, p d = false) (hrest' : ∀ d ∈ rest'.head?, p d = false)
    (h : cs ++ rest = cs' ++ rest') : cs = cs' ∧ rest = rest' := by
  have htake := congrArg (List.takeWhile p) h
  have hdrop := congrArg (List.dropWhile p) h
  rw [takeWhile_append_of_head? hcs hrest, takeWhile_append_of_head? hcs' hrest'] at htake
  rw [dropWhile_append_of_head? hcs hrest, dropWhile_append_of_head? hcs' hrest'] at hdrop
  exact ⟨htake, hdrop⟩

end Runs

variable {α : Type} {text : α → List Char} {Fits : α → Prop} {Ends : List Char → Prop}

/-- What fits can be told from its text and from where the text ends, if what follows is such that
it `Ends` there. -/
def Decodable (text : α → List Char) (Fits : α → Prop) (Ends : List Char → Prop) : Prop :=
  ∀ ⦃a b : α⦄, Fits a → Fits b → ∀ ⦃rest rest' : List Char⦄, Ends rest → Ends rest' →
    text a ++ rest = text b ++ rest' → a = b ∧ rest = rest'

theorem decodable_of_forall {p : Char → Bool} (hp : ∀ a, Fits a → ∀ c ∈ text a, p c = true)
    (hinj : ∀ {a b}, text a = text b → a = b) :
    Decodable text Fits fun rest => ∀ d ∈ rest.head?, p d = false := by
  intro a b ha hb rest rest' hrest hrest' h
  obtain ⟨htext, hrests⟩ := append_inj_of_head? (hp a ha) (hp b hb) hrest hrest' h
  exact ⟨hinj htext, hrests⟩

/-- A list of texts can be taken apart if what follows the last does not look like another. -/
theorem Decodable.flatMap (h : Decodable text Fits Ends)
    (hends : ∀ a, Fits a → ∀ rest, Ends (text a ++ rest)) :
    Decodable (List.flatMap text) (∀ a ∈ ·, Fits a)
      fun rest => Ends rest ∧ ∀ a, Fits a → ∀ rest', rest ≠ text a ++ rest' := by
  have happend {as : List α} (has : ∀ a ∈ as, Fits a) {rest : List Char} (hrest : Ends rest) :
      Ends (as.flatMap text ++ rest) := by
    cases as with
    | nil => exact hrest
    | cons a as =>
      rw [List.flatMap_cons, List.append_assoc]
      exact hends a (has a (List.mem_cons_self ..)) _
  intro as bs
  induction as generalizing bs with
  | nil =>
    intro _ hbs rest rest' hrest _ heq
    cases bs with
    | nil => exact ⟨rfl, heq⟩
    | cons b bs =>
      rw [List.flatMap_cons, List.append_assoc] at heq
      exact absurd heq (hrest.2 b (hbs b (List.mem_cons_self ..)) _)
  | cons a as ih =>
    intro has hbs rest rest' hrest hrest' heq
    obtain ⟨ha, has'⟩ := List.forall_mem_cons.1 has
    rw [List.flatMap_cons, List.append_assoc] at heq
    cases bs with
    | nil => exact absurd heq.symm (hrest'.2 a ha _)
    | cons b bs =>
      obtain ⟨hb, hbs'⟩ := List.forall_mem_cons.1 hbs
      rw [List.flatMap_cons, List.append_assoc] at heq
      obtain ⟨rfl, htexts⟩ := h ha hb (happend has' hrest.1) (happend hbs' hrest'.1) heq
      obtain ⟨rfl, hrests⟩ := ih has' hbs' hrest hrest' htexts
      exact ⟨rfl, hrests⟩

theorem decodable_nat : Decodable (fun n : Nat => (toString n).toList) (fun _ => True)
    fun rest => ∀ d ∈ rest.head?, d.isDigit = false := by
  refine decodable_of_forall (fun n _ c hc => ?_) fun h => toString_nat_inj (String.toList_inj.1 h)
  rw [toList_toString_nat] at hc
  exact isDigit_of_mem_toDigits hc

theorem decodable_int : Decodable (fun v : Int => (toString v).toList) (fun _ => True)
    fun rest => ∀ d ∈ rest.head?, (d == '-' || d.isDigit) = false := by
  refine decodable_of_forall (fun v _ c hc => ?_) fun h => toString_int_inj (String.toList_inj.1 h)
  rw [Bool.or_eq_true, beq_iff_eq]
  exact of_mem_toString_int hc

theorem decodable_name : Decodable String.toList (fun x => Ident.isSpelling x.toList = true)
    fun rest => ∀ d ∈ rest.head?, Ident.isContinue d = false :=
  decodable_of_forall (fun _ hx => isContinue_of_isSpelling hx) String.toList_inj.1

end BitSynth.Text
