import BitSynth.Proofs.Text.Decimal
import BitSynth.Sygus.Problem
import Mathlib.Data.List.Forall2
import Mathlib.Tactic.Common

/-!
# What a grammar derives

A production is a term in which the names of nonterminals stand for whatever those derive, and
`Variable` and `Constant` stand for any input and any constant of a sort. In a derived term the
inputs and constants are told apart from the symbols of the productions, so an input that happens to
have the name of a function is not taken for it.
-/

namespace BitSynth

/-- The names and sorts in a list of parameters. -/
def Term.parameters : Term → List (String × Term)
  | .list ts => ts.filterMap fun
    | .list [.atom x, sort] => some (x, sort)
    | _ => none
  | .atom _ => []

theorem Term.parameters_params (names : List String) (sort : Term) :
    (params names sort).parameters = names.map fun x => (x, sort) := by
  rw [params, parameters]
  simp [List.filterMap_map]

namespace Sygus

/-- A term that a grammar derives. -/
inductive Candidate where
  | symbol (text : String)
  | input (name : String)
  | constant (width : Nat) (value : BitVec width)
  | list (items : List Candidate)

namespace Candidate

/-- A symbol applied to candidates, or the symbol alone if there are none. -/
def call (head : String) (args : List Candidate) : Candidate :=
  if args.isEmpty then .symbol head else .list (.symbol head :: args)

def behind (zeros : Nat) (c : Candidate) : Candidate :=
  .list [.symbol "concat", .symbol (Bits.zeros zeros), c]

def lowBits (high : Nat) (c : Candidate) : Candidate :=
  .list [.list [.symbol "_", .symbol "extract", .symbol (toString high), .symbol (toString 0)], c]

theorem call_inj {f g : String} {as bs : List Candidate} (h : call f as = call g bs) :
    f = g ∧ as = bs := by
  unfold call at h
  cases as <;> cases bs <;> simp_all

end Candidate

/-- The term stands for any input or any constant of a sort. -/
def IsClass : Term → Prop
  | .list [.atom c, _] => c = "Variable" ∨ c = "Constant"
  | _ => False

/-- A term derives a candidate, given the inputs with their sorts and the nonterminals. -/
inductive Derives (params : List (String × Term)) (ns : List Nonterminal) :
    Term → Candidate → Prop
  | nonterminal {n : Nonterminal} {p : Term} {c : Candidate} (hn : n ∈ ns)
      (hp : p ∈ n.productions) (hc : Derives params ns p c) : Derives params ns (.atom n.name) c
  | symbol {s : String} (hs : ∀ n ∈ ns, n.name ≠ s) : Derives params ns (.atom s) (.symbol s)
  | input {x : String} {sort : Term} (hx : (x, sort) ∈ params) :
      Derives params ns (.list [.atom "Variable", sort]) (.input x)
  | constant {width : Nat} {sort : Term} (hsort : sort = .bitVec width) (v : BitVec width) :
      Derives params ns (.list [.atom "Constant", sort]) (.constant width v)
  | list {ps : List Term} {cs : List Candidate} (hclass : ¬ IsClass (.list ps))
      (hlen : ps.length = cs.length) (hcs : ∀ q ∈ ps.zip cs, Derives params ns q.1 q.2) :
      Derives params ns (.list ps) (.list cs)

section Derives

variable {params : List (String × Term)} {ns : List Nonterminal} {c : Candidate}

theorem derives_symbol_iff {s : String} (hs : ∀ n ∈ ns, n.name ≠ s) :
    Derives params ns (.atom s) c ↔ c = .symbol s := by
  constructor
  · rintro (⟨hn, -, -⟩ | -)
    · exact absurd rfl (hs _ hn)
    · rfl
  · rintro rfl
    exact .symbol hs

theorem derives_nonterminal_iff {n : Nonterminal} (hn : n ∈ ns)
    (hunique : ∀ m ∈ ns, m.name = n.name → m = n) :
    Derives params ns (.atom n.name) c ↔ ∃ p ∈ n.productions, Derives params ns p c := by
  constructor
  · intro h
    generalize hs : Term.atom n.name = t at h
    cases h with
    | @nonterminal m p _ hm hp hc =>
      obtain rfl := hunique m hm (by simpa using hs.symm)
      exact ⟨p, hp, hc⟩
    | symbol hno => exact absurd (by simpa using hs) (hno n hn)
    | _ => cases hs
  · rintro ⟨p, hp, hc⟩
    exact .nonterminal hn hp hc

theorem derives_list_iff {ps : List Term} (hclass : ¬ IsClass (.list ps)) :
    Derives params ns (.list ps) c ↔
      ∃ cs, List.Forall₂ (Derives params ns) ps cs ∧ c = .list cs := by
  constructor
  · intro h
    cases h with
    | input => exact absurd (.inl rfl) hclass
    | constant => exact absurd (.inr rfl) hclass
    | list _ hlen hcs =>
      exact ⟨_, List.forall₂_iff_zip.2 ⟨hlen, fun {p c} h => hcs (p, c) h⟩, rfl⟩
  · rintro ⟨cs, hcs, rfl⟩
    rw [List.forall₂_iff_zip] at hcs
    exact .list hclass hcs.1 fun q hq => hcs.2 hq

theorem derives_variable_iff {sort : Term} :
    Derives params ns (.list [.atom "Variable", sort]) c ↔
      ∃ x, (x, sort) ∈ params ∧ c = .input x := by
  constructor
  · intro h
    generalize ht : Term.list [.atom "Variable", sort] = t at h
    cases h with
    | input hx =>
      simp only [Term.list.injEq, List.cons.injEq, true_and, and_true] at ht
      exact ⟨_, ht ▸ hx, rfl⟩
    | constant => simp at ht
    | list hclass => exact absurd (.inl rfl) (ht ▸ hclass)
    | _ => cases ht
  · rintro ⟨x, hx, rfl⟩
    exact .input hx

theorem bitVec_inj {v w : Nat} (h : Term.bitVec v = Term.bitVec w) : v = w := by
  simp only [Term.bitVec, Term.app, Term.list.injEq, List.cons.injEq, Term.atom.injEq, true_and,
    and_true] at h
  exact Text.toString_nat_inj h

theorem derives_constant_iff {width : Nat} :
    Derives params ns (.list [.atom "Constant", .bitVec width]) c ↔
      ∃ v : BitVec width, c = .constant width v := by
  constructor
  · intro h
    generalize ht : Term.list [.atom "Constant", .bitVec width] = t at h
    cases h with
    | constant hsort v =>
      simp only [Term.list.injEq, List.cons.injEq, true_and, and_true] at ht
      obtain rfl := bitVec_inj (ht.trans hsort)
      exact ⟨v, rfl⟩
    | input => simp at ht
    | list hclass => exact absurd (.inr rfl) (ht ▸ hclass)
    | _ => cases ht
  · rintro ⟨v, rfl⟩
    exact .constant rfl v

theorem derives_app_iff {f : String} {ts : List Term} (hf : ∀ n ∈ ns, n.name ≠ f)
    (hclass : f ≠ "Variable" ∧ f ≠ "Constant") :
    Derives params ns (.app f ts) c ↔
      ∃ cs, List.Forall₂ (Derives params ns) ts cs ∧ c = .list (.symbol f :: cs) := by
  have hlist : ¬ IsClass (.list (.atom f :: ts)) := by
    rcases ts with _ | ⟨t, _ | ⟨t', ts⟩⟩ <;> simp [IsClass, hclass]
  rw [Term.app, derives_list_iff hlist]
  constructor
  · rintro ⟨_, h, rfl⟩
    obtain ⟨d, cs, hd, hcs, rfl⟩ := List.forall₂_cons_left_iff.1 h
    obtain rfl := (derives_symbol_iff hf).1 hd
    exact ⟨cs, hcs, rfl⟩
  · rintro ⟨cs, hcs, rfl⟩
    exact ⟨_, .cons (.symbol hf) hcs, rfl⟩

theorem derives_call_iff {f : String} {ts : List Term} (hf : ∀ n ∈ ns, n.name ≠ f)
    (hclass : f ≠ "Variable" ∧ f ≠ "Constant") :
    Derives params ns (.call f ts) c ↔
      ∃ cs, List.Forall₂ (Derives params ns) ts cs ∧ c = .call f cs := by
  cases ts with
  | nil =>
    rw [Term.call, List.isEmpty_nil, if_pos rfl, derives_symbol_iff hf]
    simp [Candidate.call]
  | cons t ts =>
    refine (derives_app_iff hf hclass).trans (exists_congr fun cs => and_congr_right fun hcs => ?_)
    cases hcs
    rfl

theorem forall₂_pair_iff {α β : Type} {R : α → β → Prop} {a b : α} {cs : List β} :
    List.Forall₂ R [a, b] cs ↔ ∃ c d, R a c ∧ R b d ∧ cs = [c, d] := by
  constructor
  · rintro (_ | ⟨ha, _ | ⟨hb, ⟨⟩⟩⟩)
    exact ⟨_, _, ha, hb, rfl⟩
  · rintro ⟨c, d, ha, hb, rfl⟩
    exact .cons ha (.cons hb .nil)

theorem derives_extract_iff {high low : Int} {t : Term}
    (hsymbols : ∀ s ∈ ["_", "extract", toString high, toString low], ∀ n ∈ ns, n.name ≠ s) :
    Derives params ns (.extract high low t) c ↔
      ∃ d, Derives params ns t d ∧ c = .list [.list [.symbol "_", .symbol "extract",
        .symbol (toString high), .symbol (toString low)], d] := by
  have hsymbol {s : String} (hs : s ∈ ["_", "extract", toString high, toString low]) {d} :
      Derives params ns (.atom s) d ↔ d = .symbol s := derives_symbol_iff (hsymbols s hs)
  have hindex {d} : Derives params ns
      (.app "_" [.atom "extract", .atom (toString high), .atom (toString low)]) d ↔
      d = .list [.symbol "_", .symbol "extract", .symbol (toString high),
        .symbol (toString low)] := by
    rw [derives_app_iff (hsymbols "_" (by simp)) (by decide)]
    simp only [List.forall₂_cons_left_iff, List.forall₂_nil_left_iff]
    constructor
    · rintro ⟨_, ⟨_, _, h₁, ⟨_, _, h₂, ⟨_, _, h₃, rfl, rfl⟩, rfl⟩, rfl⟩, rfl⟩
      rw [(hsymbol (by simp)).1 h₁, (hsymbol (by simp)).1 h₂, (hsymbol (by simp)).1 h₃]
    · rintro rfl
      exact ⟨_, ⟨_, _, (hsymbol (by simp)).2 rfl, ⟨_, _, (hsymbol (by simp)).2 rfl,
        ⟨_, _, (hsymbol (by simp)).2 rfl, rfl, rfl⟩, rfl⟩, rfl⟩, rfl⟩
  rw [Term.extract, derives_list_iff (by simp [IsClass, Term.app])]
  simp only [forall₂_pair_iff, hindex]
  constructor
  · rintro ⟨_, ⟨_, d, rfl, hd, rfl⟩, rfl⟩
    exact ⟨d, hd, rfl⟩
  · rintro ⟨d, hd, rfl⟩
    exact ⟨_, ⟨_, d, rfl, hd, rfl⟩, rfl⟩

end Derives

def Problem.parameters (q : Problem) : List (String × Term) := q.params.parameters

/-- The problem's grammar derives the candidate from its first nonterminal. -/
def Problem.Generates (q : Problem) (c : Candidate) : Prop :=
  ∃ start ∈ q.nonterminals.head?, Derives q.parameters q.nonterminals (.atom start.name) c

end Sygus

end BitSynth
