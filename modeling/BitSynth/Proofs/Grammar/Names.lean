import BitSynth.Proofs.Grammar.Derivation
import BitSynth.Proofs.Outcome
import BitSynth.Proofs.Text.Decodable
import BitSynth.Proofs.Usage.Reachable

/-!
# The nonterminals and their names

Usages are told apart by the names of their nonterminals (`name_inj`), and no other symbol of a
production is a nonterminal's name: those all begin with `S`, `C` or `V`.
-/

namespace BitSynth.Sygus

/-! ## The names of usages -/

/-- The counts of a usage, each behind an underscore. -/
def Usage.suffix (u : Usage) : List Char := u.flatMap fun n => '_' :: Text.toDigits 10 n

theorem Usage.toList_name (u : Usage) : u.name.toList = "Start".toList ++ u.suffix := by
  rw [name, String.toList_append, String.toList_join, suffix, List.flatMap_map]
  simp only [String.toList_append, Text.toList_toString_nat]
  rfl

theorem Usage.head?_suffix : ∀ (u : Usage), ∀ c ∈ u.suffix.head?, c.isDigit = false
  | [], c, h => by cases h
  | n :: u, c, h => by
    obtain rfl : '_' = c := by simpa [suffix] using h
    rfl

theorem Usage.suffix_inj : ∀ {u v : Usage}, u.suffix = v.suffix → u = v
  | [], [], _ => rfl
  | [], n :: v, h => by simp [suffix] at h
  | m :: u, [], h => by simp [suffix] at h
  | m :: u, n :: v, h => by
    simp only [suffix, List.flatMap_cons, List.cons_append, List.cons.injEq, true_and] at h
    rw [← suffix, ← suffix] at h
    have hmem {k : Nat} : ∀ c ∈ Text.toDigits 10 k, c.isDigit = true :=
      fun _ => Text.isDigit_of_mem_toDigits
    obtain ⟨hdigits, hsuffix⟩ :=
      Text.append_inj_of_head? hmem hmem (head?_suffix u) (head?_suffix v) h
    rw [Text.toDigits_inj hdigits, suffix_inj hsuffix]

/-- No two usages share a nonterminal. -/
theorem Usage.name_inj {u v : Usage} (h : u.name = v.name) : u = v := by
  have := congrArg String.toList h
  rw [toList_name, toList_name, List.append_cancel_left_eq] at this
  exact suffix_inj this

namespace Grammar

variable (l : TaggedLibrary) (bitWidth : Nat)

/-! ## The nonterminals -/

/-- The nonterminals of the usages, of free constants and of inputs. -/
def all : List Nonterminal :=
  (Usage.reachable l.budgets).map (ofUsage l bitWidth)
    ++ (l.freeWidth.map (anyOf constantName "Constant")).toList
    ++ [anyOf variableName "Variable" bitWidth]

theorem result_nonterminals : (nonterminals l bitWidth).result = .ok (all l bitWidth) := by
  rw [nonterminals, Logged.result_bind_eq_ok_iff]
  exact ⟨(), Logged.forM_emit_result fun _ _ => rfl, rfl⟩

variable {l bitWidth}

theorem mem_all_iff {n : Nonterminal} : n ∈ all l bitWidth ↔
    (∃ u : Usage, u.Within l.budgets ∧ ofUsage l bitWidth u = n)
      ∨ (∃ w, l.freeWidth = some w ∧ anyOf constantName "Constant" w = n)
      ∨ n = anyOf variableName "Variable" bitWidth := by
  simp [all, Usage.mem_reachable_iff]

theorem head?_name {n : Nonterminal} (hn : n ∈ all l bitWidth) :
    n.name.toList.head? = some 'S' ∧ (∃ u : Usage, u.Within l.budgets ∧ ofUsage l bitWidth u = n)
      ∨ n.name.toList.head? = some 'C'
        ∧ (∃ w, l.freeWidth = some w ∧ anyOf constantName "Constant" w = n)
      ∨ n.name.toList.head? = some 'V' ∧ n = anyOf variableName "Variable" bitWidth := by
  rcases mem_all_iff.1 hn with ⟨u, hu, rfl⟩ | ⟨w, hw, rfl⟩ | rfl
  · refine .inl ⟨?_, u, hu, rfl⟩
    show u.name.toList.head? = _
    rw [Usage.toList_name]
    rfl
  · exact .inr (.inl ⟨by simp [anyOf, constantName], w, hw, rfl⟩)
  · exact .inr (.inr ⟨by simp [anyOf, variableName], rfl⟩)

theorem eq_of_name_eq {m n : Nonterminal} (hm : m ∈ all l bitWidth) (hn : n ∈ all l bitWidth)
    (h : m.name = n.name) : m = n := by
  rcases head?_name hm with ⟨hm', u, hu, rfl⟩ | ⟨hm', v, hv, rfl⟩ | ⟨hm', rfl⟩ <;>
  rcases head?_name hn with ⟨hn', u', hu', rfl⟩ | ⟨hn', v', hv', rfl⟩ | ⟨hn', rfl⟩ <;>
    try (rw [h, hn'] at hm'; simp at hm'; done)
  · rw [show u = u' from Usage.name_inj h]
  · rw [show v = v' from Option.some.inj (hv.symm.trans hv')]
  · rfl

def IsSymbol (s : String) : Prop := ∀ c ∈ s.toList.head?, c ≠ 'S' ∧ c ≠ 'C' ∧ c ≠ 'V'

theorem name_ne_of_isSymbol {s : String} (hs : IsSymbol s) :
    ∀ n ∈ all l bitWidth, n.name ≠ s := by
  rintro n hn rfl
  rcases head?_name hn with ⟨h, -⟩ | ⟨h, -⟩ | ⟨h, -⟩
  · exact (hs 'S' h).1 rfl
  · exact (hs 'C' h).2.1 rfl
  · exact (hs 'V' h).2.2 rfl

theorem isSymbol_of_head? {s : String} {c : Char} (h : s.toList.head? = some c)
    (hc : c ≠ 'S' ∧ c ≠ 'C' ∧ c ≠ 'V') : IsSymbol s := by
  intro d hd
  rw [h, Option.mem_some_iff] at hd
  exact hd ▸ hc

theorem isSymbol_zeros (width : Nat) : IsSymbol (Bits.zeros width) :=
  isSymbol_of_head? (c := '#') (by simp [Bits.zeros]) (by decide)

theorem isSymbol_binary (value : Int) (width : Nat) : IsSymbol (Bits.binary value width) :=
  isSymbol_of_head? (c := '#') (by simp [Bits.binary]) (by decide)

theorem isSymbol_wrapperName (k : Kind) : IsSymbol k.wrapperName :=
  isSymbol_of_head? (c := 'o') (by simp [Kind.wrapperName]) (by decide)

theorem isSymbol_toString_nat (n : Nat) : IsSymbol (toString n) := by
  obtain ⟨d, ds, hds, hd, -⟩ := Text.toDigits_eq_cons n
  refine isSymbol_of_head? (c := d) (by rw [Text.toList_toString_nat, hds]; rfl) ?_
  refine ⟨?_, ?_, ?_⟩ <;> rintro rfl <;> cases hd

end Grammar

end BitSynth.Sygus
