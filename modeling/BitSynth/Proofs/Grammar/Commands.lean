import BitSynth.Proofs.Grammar.Plain
import BitSynth.Proofs.Term.Reading

/-!
# The commands of a problem

The text of a problem is put together line by line, and the parentheses of the command with the
grammar are written by hand. To a reader of S-expressions it is still the list of the problem's
commands, each with just the terms that the problem has for it.
-/

namespace BitSynth.Sygus.Problem

open Text Term

/-- The commands in the order of the text. -/
def commands (q : Problem) : List Term :=
  .app "set-logic" [.atom q.logic] :: q.definitions ++ q.spec :: q.declarations
    ++ [.app "synth-fun"
        [.atom "res", q.params, q.sort, .list (q.nonterminals.map Nonterminal.term)],
      q.constraint, .app "check-synth" []]

/-- All atoms of the problem are words. -/
structure Plain (q : Problem) : Prop where
  logic : IsWord q.logic
  definitions : ∀ t ∈ q.definitions, t.Plain
  spec : q.spec.Plain
  declarations : ∀ t ∈ q.declarations, t.Plain
  params : q.params.Plain
  sort : q.sort.Plain
  nonterminals : ∀ n ∈ q.nonterminals, n.term.Plain
  constraint : q.constraint.Plain

variable {p : Program} {s : Settings} {q : Problem}

theorem ofProgram_plain (hp : p.WellFormed) (h : (ofProgram p s).result = .ok q) : q.Plain := by
  obtain ⟨-, l, body, hl, hbody, rfl⟩ := ofProgram_eq_ok_iff.1 h
  have hlibrary := TaggedLibrary.plain_of_ofEntries hl hp.entries
  have hinputs : ∀ x ∈ inputNames p, IsWord x := isWord_names hp.spec.inputs
  have hinputTerms : ∀ t ∈ (inputNames p).map Term.atom, t.Plain := List.forall_mem_map.2 hinputs
  have hlogic : IsWord "BV" := by decide
  have hspec : IsWord "spec" := by decide
  have hres : IsWord "res" := by decide
  have hdeclare : IsWord "declare-var" := by decide
  have hequal : IsWord "=" := by decide
  have hconstraint : IsWord "constraint" := by decide
  exact {
    logic := hlogic
    definitions := List.forall_mem_append.2
      ⟨hlibrary.helpers, TaggedLibrary.plain_wrappers hlibrary _⟩
    spec := plain_defineFun hspec hinputs (plain_bitVec _) (plain_bitVec _)
      (Encoder.encodeFor_plain hp.spec.body hbody)
    declarations := List.forall_mem_map.2 fun x hx =>
      ⟨hdeclare, hinputs x hx, plain_bitVec _, trivial⟩
    params := plain_params hinputs (plain_bitVec _)
    sort := plain_bitVec _
    nonterminals := Grammar.plain_all hlibrary
    constraint := ⟨hconstraint,
      ⟨hequal, .concat (Bits.isWord_binary _ _) (.call hspec hinputTerms), .call hres hinputTerms,
        trivial⟩, trivial⟩ }

/-! ## The text -/

/-- The text, with the lines that hold a single term apart from those of the grammar. -/
theorem toList_text (q : Problem) : q.text.toList =
    (.app "set-logic" [.atom q.logic] :: q.definitions ++ q.spec :: q.declarations).flatMap
        (fun t => [] ++ t.text.toList ++ ['\n'])
      ++ '(' :: ("synth-fun".toList ++ ' ' :: ("res".toList ++ ' ' :: (q.params.text.toList
        ++ ' ' :: (q.sort.text.toList ++ ' ' :: '(' :: '\n' ::
          ((q.nonterminals.map Nonterminal.term).flatMap
            (fun t => [' ', ' '] ++ t.text.toList ++ ['\n'])
          ++ ')' :: ')' :: '\n' :: ([q.constraint, .app "check-synth" []].flatMap
            (fun t => [] ++ t.text.toList ++ ['\n']) ++ [])))))) := by
  simp [text, lines, synthFunLines, Term.text, Term.textAfter, Term.app, List.flatMap_map,
    Nonterminal.text]

theorem Plain.readAll_text (h : q.Plain) : readAll? q.text = some q.commands := by
  have hspace (cs : List Char) : ∀ d ∈ (' ' :: cs).head?, Delimits d :=
    forall_mem_head?_cons delimits_space cs
  have hbefore : ∀ t ∈ .app "set-logic" [.atom q.logic] :: q.definitions ++ q.spec :: q.declarations,
      t.Plain := by
    have hlogic : IsWord "set-logic" := by decide
    exact List.forall_mem_append.2
      ⟨List.forall_mem_cons.2 ⟨⟨hlogic, h.logic, trivial⟩, h.definitions⟩,
        List.forall_mem_cons.2 ⟨h.spec, h.declarations⟩⟩
  have hbehind : ∀ t ∈ [q.constraint, .app "check-synth" []], t.Plain := by
    have hcheck : IsWord "check-synth" := by decide
    exact List.forall_mem_cons.2 ⟨h.constraint, List.forall_mem_singleton.2 ⟨hcheck, trivial⟩⟩
  have hnonterminals : ∀ t ∈ q.nonterminals.map Nonterminal.term, t.Plain :=
    List.forall_mem_map.2 h.nonterminals
  have htokens : tokensOf q.text.toList = tokensAll q.commands := by
    rw [toList_text, tokensOf_lines (List.forall_mem_nil _) hbefore, tokensOf_opening,
      tokensOf_word (by decide) (hspace _), tokensOf_space (by decide),
      tokensOf_word (by decide) (hspace _), tokensOf_space (by decide),
      tokensOf_text h.params (hspace _), tokensOf_space (by decide),
      tokensOf_text h.sort (hspace _), tokensOf_space (by decide), tokensOf_opening,
      tokensOf_space (by decide), tokensOf_lines (by decide) hnonterminals, tokensOf_closing,
      tokensOf_closing, tokensOf_space (by decide),
      tokensOf_lines (List.forall_mem_nil _) hbehind, commands]
    simp [tokensAll, tokensAll_append, tokens, Term.app, tokensOf, tokensBehind, wordToken]
  rw [readAll?, htokens, ofTokens?_tokensAll]

/-- What a reader of S-expressions makes of the text of a problem is the list of its commands. -/
theorem readAll_text_eq_commands {t : String} (hp : (Program.read t).result = .ok p)
    (hq : (ofProgram p s).result = .ok q) : readAll? q.text = some q.commands :=
  (ofProgram_plain (Program.wellFormed_of_read hp) hq).readAll_text

/-- A function without parameters, and an extraction with a negative bound. -/
theorem readAll_text_eq_commands_seven : ∃ p q,
    (Program.read "(lib (fun seven 7) (const 4)) (spec 1 4 x (extract 0 -3 x))").result = .ok p
      ∧ (ofProgram p {}).result = .ok q ∧ readAll? q.text = some q.commands := by
  let p : Program := ⟨⟨4, [⟨"x"⟩], .app ⟨"extract"⟩ [.literal ⟨0, none⟩, .literal ⟨-3, none⟩,
    .ident ⟨"x"⟩]⟩, [.function ⟨"seven"⟩ [] (.literal ⟨7, none⟩), .constant 4 none]⟩
  have hp : (Program.read "(lib (fun seven 7) (const 4)) (spec 1 4 x (extract 0 -3 x))").result
      = .ok p := by
    decide +kernel
  have hsome : (ofProgram p {}).result.toOption.isSome = true := by decide +kernel
  obtain ⟨q, hq⟩ := Option.isSome_iff_exists.1 hsome
  have hq := toOption_eq_some_iff.1 hq
  exact ⟨p, q, hp, hq, readAll_text_eq_commands hp hq⟩

end BitSynth.Sygus.Problem
