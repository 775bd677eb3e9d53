import BitSynth.Proofs.Term.Plain

/-!
# Reading S-expressions

A reader of S-expressions knows words and parentheses and nothing else: its tokens are what white
space and parentheses leave of a text, and it puts the terms together on a stack of open lists. It
reads the text of plain terms back, however the tokens are laid out.
-/

namespace BitSynth

open Text

namespace Term

/-- A parenthesis, or the characters between two delimiters. -/
inductive Token where
  | opening
  | closing
  | word (text : String)
deriving DecidableEq, Repr

/-- The token of the characters gathered so far, if there are any. -/
def wordToken (word : List Char) : List Token :=
  if word = [] then [] else [.word (String.ofList word)]

/-- The tokens of a text behind the characters of a word. -/
def tokensBehind (word : List Char) : List Char → List Token
  | [] => wordToken word
  | c :: cs =>
    if c = '(' then wordToken word ++ .opening :: tokensBehind [] cs
    else if c = ')' then wordToken word ++ .closing :: tokensBehind [] cs
    else if c ∈ whiteSpace then wordToken word ++ tokensBehind [] cs
    else tokensBehind (word ++ [c]) cs

def tokensOf (cs : List Char) : List Token := tokensBehind [] cs

/-- What a token does to the open lists, of which the innermost comes first. -/
def step : List (List Term) → Token → Option (List (List Term))
  | lists, .opening => some ([] :: lists)
  | inner :: outer :: lists, .closing => some ((outer ++ [.list inner]) :: lists)
  | inner :: lists, .word s => some ((inner ++ [.atom s]) :: lists)
  | _, _ => none

/-- The terms that the tokens are the text of. No list may be left open, and none closed that is
not open. -/
def ofTokens? (ts : List Token) : Option (List Term) :=
  match ts.foldlM step [[]] with
  | some [terms] => some terms
  | _ => none

/-- The terms of a text of S-expressions. -/
def readAll? (text : String) : Option (List Term) := ofTokens? (tokensOf text.toList)

mutual

def tokens : Term → List Token
  | .atom s => [.word s]
  | .list ts => .opening :: tokensAll ts ++ [.closing]

def tokensAll : List Term → List Token
  | [] => []
  | t :: ts => t.tokens ++ tokensAll ts

end

/-! ## From tokens to terms -/

section Tokens

mutual

/-- The tokens of a term add it to the innermost list. -/
theorem foldlM_tokens : ∀ (t : Term) (inner : List Term) (lists : List (List Term)),
    t.tokens.foldlM step (inner :: lists) = some ((inner ++ [t]) :: lists)
  | .atom s, inner, lists => rfl
  | .list ts, inner, lists => by
    rw [tokens, List.foldlM_append, List.foldlM_cons]
    show (List.foldlM step ([] :: inner :: lists) (tokensAll ts) >>= _) = _
    rw [foldlM_tokensAll ts [] (inner :: lists)]
    rfl

theorem foldlM_tokensAll : ∀ (ts : List Term) (inner : List Term) (lists : List (List Term)),
    (tokensAll ts).foldlM step (inner :: lists) = some ((inner ++ ts) :: lists)
  | [], inner, lists => by
    rw [List.append_nil]
    rfl
  | t :: ts, inner, lists => by
    rw [tokensAll, List.foldlM_append, foldlM_tokens t inner lists]
    show List.foldlM step ((inner ++ [t]) :: lists) (tokensAll ts) = _
    rw [foldlM_tokensAll ts (inner ++ [t]) lists, List.append_assoc, List.singleton_append]

end

theorem ofTokens?_tokensAll (ts : List Term) : ofTokens? (tokensAll ts) = some ts := by
  rw [ofTokens?, foldlM_tokensAll]
  rfl

theorem tokensAll_append (ts us : List Term) :
    tokensAll (ts ++ us) = tokensAll ts ++ tokensAll us := by
  induction ts with
  | nil => rfl
  | cons t ts ih => rw [List.cons_append, tokensAll, tokensAll, ih, List.append_assoc]

end Tokens

/-! ## From text to tokens -/

section Text

variable {rest : List Char}

theorem tokensOf_opening (cs : List Char) : tokensOf ('(' :: cs) = .opening :: tokensOf cs := rfl

theorem tokensOf_closing (cs : List Char) : tokensOf (')' :: cs) = .closing :: tokensOf cs := rfl

theorem tokensBehind_space {c : Char} (h : c ∈ whiteSpace) (word cs : List Char) :
    tokensBehind word (c :: cs) = wordToken word ++ tokensOf cs := by
  have hopening : c ≠ '(' := by
    rintro rfl
    exact absurd h (by decide)
  have hclosing : c ≠ ')' := by
    rintro rfl
    exact absurd h (by decide)
  rw [tokensBehind, if_neg hopening, if_neg hclosing, if_pos h, tokensOf]

theorem tokensOf_space {c : Char} (h : c ∈ whiteSpace) (cs : List Char) :
    tokensOf (c :: cs) = tokensOf cs := tokensBehind_space h [] cs

theorem tokensOf_blank (rest : List Char) : ∀ {cs : List Char}, (∀ c ∈ cs, c ∈ whiteSpace) →
    tokensOf (cs ++ rest) = tokensOf rest
  | [], _ => rfl
  | c :: cs, h => by
    rw [List.forall_mem_cons] at h
    rw [List.cons_append, tokensOf_space h.1, tokensOf_blank rest h.2]

theorem tokensBehind_append : ∀ {cs : List Char} (word : List Char), (∀ c ∈ cs, ¬ Delimits c) →
    tokensBehind word (cs ++ rest) = tokensBehind (word ++ cs) rest
  | [], word, _ => by rw [List.nil_append, List.append_nil]
  | c :: cs, word, h => by
    rw [List.forall_mem_cons, Delimits, not_or, not_or] at h
    obtain ⟨⟨hspace, hopening, hclosing⟩, hcs⟩ := h
    rw [List.cons_append, tokensBehind, if_neg hopening, if_neg hclosing, if_neg hspace,
      tokensBehind_append (word ++ [c]) hcs, List.append_assoc, List.singleton_append]

theorem tokensBehind_of_delimits (word : List Char) (hrest : ∀ d ∈ rest.head?, Delimits d) :
    tokensBehind word rest = wordToken word ++ tokensOf rest := by
  cases rest with
  | nil => exact (List.append_nil _).symm
  | cons d rest =>
    rcases hrest d rfl with hspace | rfl | rfl
    · rw [tokensBehind_space hspace, tokensOf_space hspace]
    · rfl
    · rfl

/-- A word is one token if a delimiter follows it. -/
theorem tokensOf_word {s : String} (h : IsWord s) (hrest : ∀ d ∈ rest.head?, Delimits d) :
    tokensOf (s.toList ++ rest) = .word s :: tokensOf rest := by
  have hne : s.toList ≠ [] := mt String.toList_eq_nil_iff.1 h.1
  rw [tokensOf, tokensBehind_append [] h.2, tokensBehind_of_delimits _ hrest, wordToken,
    List.nil_append, if_neg hne, String.ofList_toList]
  rfl

mutual

theorem tokensOf_text {rest : List Char} : ∀ {t : Term}, t.Plain →
    (∀ d ∈ rest.head?, Delimits d) → tokensOf (t.text.toList ++ rest) = t.tokens ++ tokensOf rest
  | .atom s, h, hrest => tokensOf_word h hrest
  | .list [], _, _ => rfl
  | .list (t :: ts), h, _ => by
    have htext : (text (.list (t :: ts))).toList ++ rest
        = '(' :: (t.text.toList ++ ((textAfter ts).toList ++ ')' :: rest)) := by
      simp [text]
    rw [htext, tokensOf_opening, tokensOf_text h.1 (delimits_textAfter ts rest),
      tokensOf_textAfter h.2, tokens, tokensAll]
    simp

theorem tokensOf_textAfter {rest : List Char} : ∀ {ts : List Term}, AllPlain ts →
    tokensOf ((textAfter ts).toList ++ ')' :: rest) = tokensAll ts ++ .closing :: tokensOf rest
  | [], _ => rfl
  | t :: ts, h => by
    have htext : (textAfter (t :: ts)).toList ++ ')' :: rest
        = ' ' :: (t.text.toList ++ ((textAfter ts).toList ++ ')' :: rest)) := by
      simp [textAfter]
    rw [htext, tokensOf_space (by decide), tokensOf_text h.1 (delimits_textAfter ts rest),
      tokensOf_textAfter h.2, tokensAll, List.append_assoc]

end

/-- Lines with a term in each, behind some white space. -/
theorem tokensOf_lines {blanks : List Char} (hblanks : ∀ c ∈ blanks, c ∈ whiteSpace) :
    ∀ {ts : List Term}, (∀ t ∈ ts, t.Plain) →
    tokensOf ((ts.flatMap fun t => blanks ++ t.text.toList ++ ['\n']) ++ rest)
      = tokensAll ts ++ tokensOf rest
  | [], _ => rfl
  | t :: ts, h => by
    rw [List.forall_mem_cons] at h
    have hline : '\n' ∈ whiteSpace := by decide
    have hdelimits (cs : List Char) : ∀ d ∈ ('\n' :: cs).head?, Delimits d :=
      forall_mem_head?_cons (.inl hline) cs
    have ih := tokensOf_lines hblanks h.2
    simp only [List.flatMap_cons, List.append_assoc, List.cons_append, List.nil_append] at ih ⊢
    rw [tokensOf_blank _ hblanks, tokensOf_text h.1 (hdelimits _), tokensOf_space hline, ih,
      tokensAll, List.append_assoc]

end Text

end Term

end BitSynth
