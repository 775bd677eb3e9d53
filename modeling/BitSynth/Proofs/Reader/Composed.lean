import BitSynth.Proofs.Reader.Pending
import BitSynth.Proofs.Reader.Reading
import Mathlib.Logic.Function.Iterate

/-!
# Composed readers

All readers of expressions and forms are put together from few kinds: readers of one character,
which report what they miss, white space and widths. An inductive predicate lists the ways to do so,
so that a property that each of them keeps holds of the whole grammar. An expression is read in
terms of itself (`expr_eq`): the bound on its depth never shows.
-/

namespace BitSynth

open Text

namespace Reader

variable {α β : Type}

/-! ## Kinds of readers -/

/-- Reads one character that passes the test, and reports where there is none. -/
def single (holds : Char → Bool) (report : Cursor → Option Failure → Failure) : Reader Char :=
  fun c f =>
    match c.rest.head? with
    | some d => if holds d then (some (d, c.next), f) else (none, some (report c f))
    | none => (none, some (report c f))

/-- Keeps the failures inside the reader to themselves until it is done, and labels them then. -/
def labelled (label : Nat → Failure → Failure) (p : Reader α) : Reader α := fun c f =>
  ((p c none).1, rejoin ((p c none).2.map (label c.offset)) f)

/-- A report adds to the pending failure what the reader missed, and it saw the next character
only. -/
structure Reports (report : Cursor → Option Failure → Failure) : Prop where
  joins (c : Cursor) (f : Option Failure) : ∃ items,
    report c f = Failure.miss c items f ∨ report c f = Failure.merge (Failure.expected c items) f
  congr {c c' : Cursor} (f : Option Failure) :
    c.offset = c'.offset → c.rest.head? = c'.rest.head? → report c f = report c' f

/-- A label leaves a failure alone, or names what was expected at the place of the label. -/
structure Labels (label : Nat → Failure → Failure) : Prop where
  names (n : Nat) (g : Failure) : label n g = g ∨
    g.start = n ∧ ∃ items, label n g = { g with reason := .expected items g.reason.found }

theorem Reports.reaches {report : Cursor → Option Failure → Failure} (h : Reports report) {n : Nat}
    {c : Cursor} {f : Option Failure} :
    Reaches n (some (report c f)) ↔ n ≤ c.offset ∨ Reaches n f := by
  obtain ⟨items, hmiss | hmerge⟩ := h.joins c f
  · rw [hmiss, Failure.reaches_miss]
  · rw [hmerge, Failure.reaches_merge]
    rfl

theorem Labels.start {label : Nat → Failure → Failure} (h : Labels label) (n : Nat) (g : Failure) :
    (label n g).start = g.start := by
  rcases h.names n g with hsame | ⟨-, items, hnamed⟩
  · rw [hsame]
  · rw [hnamed]

theorem Labels.reaches_map {label : Nat → Failure → Failure} (h : Labels label) {m n : Nat}
    {g : Option Failure} : Reaches n (g.map (label m)) ↔ Reaches n g := by
  cases g with
  | none => rfl
  | some g => rw [Option.map_some, reaches_some, reaches_some, h.start]

/-- The class has no colon, and what a message calls it depends on the next character only. -/
class CharClass.Plain (k : CharClass) : Prop where
  colon : k.holds ':' = false
  missed {c c' : Cursor} : c.rest.head? = c'.rest.head? → k.missed c = k.missed c'

theorem CharClass.Plain.ofName {holds : Char → Bool} (h : holds ':' = false) (e : Expectation) :
    (CharClass.ofName holds e).Plain := ⟨h, fun _ => rfl⟩

theorem CharClass.Plain.unnamed {holds : Char → Bool} (h : holds ':' = false) :
    (CharClass.unnamed holds).Plain where
  colon := h
  missed h := by simp only [CharClass.unnamed, List.isEmpty_iff, ← List.head?_eq_none_iff, h]

/-- What a class of characters reports. -/
def CharClass.report (k : CharClass) (c : Cursor) (f : Option Failure) : Failure :=
  Failure.merge (Failure.expected c [k.missed c]) f

theorem expected_congr {c c' : Cursor} (items : List Expectation) (ho : c.offset = c'.offset)
    (hc : c.rest.head? = c'.rest.head?) : Failure.expected c items = Failure.expected c' items := by
  obtain ⟨rest, offset⟩ := c
  obtain ⟨rest', offset'⟩ := c'
  obtain rfl : offset = offset' := ho
  cases rest <;> cases rest' <;> simp_all [Failure.expected, Cursor.next]

theorem reports_miss (items : List Expectation) :
    Reports fun c f => Failure.miss c items f where
  joins _ _ := ⟨items, .inl rfl⟩
  congr f ho hc := by cases f <;> simp only [Failure.miss, expected_congr items ho hc, ho]

theorem CharClass.Plain.reports {k : CharClass} (hk : k.Plain) : Reports k.report where
  joins c _ := ⟨[k.missed c], .inr rfl⟩
  congr f ho hc := by rw [report, report, hk.missed hc, expected_congr _ ho hc]

theorem labels_id : Labels fun _ g => g := ⟨fun _ _ => .inl rfl⟩

theorem labels_named (prod : Production) : Labels (Failure.named prod) where
  names n g := by
    unfold Failure.named
    split_ifs with hstart
    · exact .inr ⟨hstart, _, rfl⟩
    · exact .inl rfl

/-- Reads a text in parentheses. -/
def enclosed (p : Reader α) : Reader α := do
  char '('
  let a ← p
  char ')'
  return a

theorem oneOf_eq (chars : List Char) :
    oneOf chars = single (· ∈ chars) fun c f => Failure.miss c (chars.map .char) f := by
  funext c f
  unfold oneOf single
  cases c.rest.head? <;> simp

theorem charOf_eq (k : CharClass) : charOf k = single k.holds k.report := rfl

theorem apart_eq (p : Reader α) : p.apart = labelled (fun _ g => g) p := by
  funext c f
  simp [apart, labelled]

theorem optional_eq (p : Reader α) : p.optional = (some <$> p <|> pure none) := by
  funext c f
  show _ = Reader.orElse (some <$> p) (fun _ => pure none) c f
  simp only [optional, Reader.orElse, Functor.map]
  rcases p c f with ⟨_ | ⟨a, c'⟩, f'⟩ <;> rfl

/-- A run of characters is read one by one. -/
theorem run_eq (k : CharClass) : run k = many (charOf k) := by
  funext ⟨rest, offset⟩ f
  induction rest generalizing offset with
  | nil =>
    rw [many]
    rfl
  | cons d rest ih =>
    rw [many]
    cases hd : k.holds d with
    | false =>
      simp [run, charOf, Cursor.skip, hd, byteSize]
    | true =>
      have hrun := ih (offset + d.utf8Size)
      simp only [charOf, List.head?_cons, hd, if_true, Cursor.next, List.length_cons,
        Nat.lt_succ_self, ← hrun]
      simp [run, Cursor.skip, hd, byteSize, Nat.add_assoc]

/-! ## The depth of expressions -/

section Depth

variable {n : Nat} {p p' : Reader α} {k k' : α → Reader β} {arg arg' : Reader Expr}

/-- The readers do the same on all texts shorter than that. -/
def Agree (n : Nat) (p p' : Reader α) : Prop := ∀ c f, c.rest.length < n → p c f = p' c f

theorem Agree.bind_left (h : Agree n p p') (k : α → Reader β) : Agree n (p >>= k) (p' >>= k) :=
  fun c f hc => by simp only [Bind.bind, h c f hc]

theorem Agree.map (h : Agree n p p') (g : α → β) : Agree n (g <$> p) (g <$> p') := h.bind_left _

theorem Agree.named (h : Agree n p p') (prod : Production) :
    Agree n (p.named prod) (p'.named prod) :=
  fun c f hc => by simp only [Reader.named, h c none hc]

theorem Agree.orElse {q q' : Reader α} (h : Agree n p p') (hq : Agree n q q') :
    Agree n (p <|> q) (p' <|> q') := by
  intro c f hc
  show Reader.orElse p (fun _ => q) c f = Reader.orElse p' (fun _ => q') c f
  simp only [Reader.orElse, h c f hc, hq c _ hc]

/-- Of what goes on behind `d` characters, only the rest of the text counts. -/
theorem Agree.bind_right {d : Nat} (hp : p.Follows fun cs _ => d ≤ cs.length)
    (h : ∀ a, Agree n (k a) (k' a)) : Agree (n + d) (p >>= k) (p >>= k') := by
  intro c f hc
  rcases hpc : p c f with ⟨_ | ⟨a, c'⟩, f'⟩
  · rw [bind_of_none hpc, bind_of_none hpc]
  · obtain ⟨cs, hcs, hd⟩ := hp c f a c' f' hpc
    rw [bind_of_some hpc, bind_of_some hpc]
    refine h a c' f' ?_
    rw [hcs.rest, List.length_append] at hc
    omega

theorem Agree.many (h : Agree n p p') : Agree n p.many p'.many := by
  intro c
  induction hl : c.rest.length using Nat.strongRecOn generalizing c with
  | _ l ih =>
    intro f hc
    rw [Reader.many, Reader.many, ← h c f (hl ▸ hc)]
    rcases p c f with ⟨_ | ⟨a, c'⟩, f'⟩
    · rfl
    · by_cases hlt : c'.rest.length < c.rest.length
      · simp only [hlt, if_true, ih _ (hl ▸ hlt) c' rfl f' (by omega)]
      · simp only [hlt, if_false]

theorem Agree.spaced (h : Agree n p p') : Agree n (Reader.spaced p) (Reader.spaced p') :=
  Agree.bind_right (follows_space.imp fun _ _ _ => Nat.zero_le _) fun _ => h.bind_left _

theorem Agree.application (h : Agree n arg arg') : Agree n (application arg) (application arg') :=
  Agree.bind_right (follows_ident.spaced fun _ _ _ _ _ _ _ => Nat.zero_le _)
    fun _ => h.spaced.many.bind_left _

theorem Agree.parenthesized (h : Agree n arg arg') :
    Agree (n + 1) (parenthesized arg) (parenthesized arg') := by
  have happlication := h.application.map App.toExpr
  exact Agree.named (Agree.bind_right ((follows_char '(').imp fun _ _ h => by simp [h])
    fun _ => (Agree.orElse (fun _ _ _ => rfl) happlication).bind_left _) .parenthesized

/-- What stands between the parentheses of an expression. -/
def content (arg : Reader Expr) : Reader Expr :=
  (Expr.literal <$> Reader.spaced literal) <|> (App.toExpr <$> Reader.application arg)

theorem parenthesized_eq (arg : Reader Expr) :
    parenthesized arg = named .parenthesized (enclosed (content arg)) := rfl

theorem form_eq : form = named .form (enclosed (application expr)) := rfl

/-- An expression whose arguments are read by `arg`. -/
def expression (arg : Reader Expr) : Reader Expr := named .expression
  (parenthesized arg <|> (Expr.literal <$> literal) <|> (Expr.ident <$> ident))

theorem Agree.expression (h : Agree n arg arg') :
    Agree (n + 1) (expression arg) (expression arg') :=
  Agree.named (h.parenthesized.orElse fun _ _ _ => rfl) .expression

theorem agree_iterate (p p' : Reader Expr) (n : Nat) :
    Agree n (expression^[n] p) (expression^[n] p') := by
  induction n with
  | zero => exact fun _ _ hc => absurd hc (Nat.not_lt_zero _)
  | succ n ih =>
    rw [Function.iterate_succ_apply', Function.iterate_succ_apply']
    exact ih.expression

theorem exprWithin_eq (n : Nat) : exprWithin n = expression^[n] fail := by
  induction n with
  | zero => rfl
  | succ n ih => rw [Function.iterate_succ_apply', ← ih, exprWithin_succ, expression]

/-- Deep enough for the text, the depth does not count, nor does what is read at the bottom. -/
theorem agree_expr (p : Reader Expr) (n : Nat) : Agree n expr (expression^[n] p) := by
  intro c f hc
  obtain ⟨k, rfl⟩ := Nat.exists_eq_add_of_le hc
  have hsplit : expression^[c.rest.length.succ + k] p
      = expression^[c.rest.length + 1] (expression^[k] p) := Function.iterate_add_apply ..
  rw [expr, exprWithin_eq, hsplit]
  exact agree_iterate _ _ _ c f (Nat.lt_succ_self _)

theorem expr_eq : expr = expression expr := by
  funext c f
  rw [expr, exprWithin_eq, Function.iterate_succ_apply']
  exact (Agree.expression fun c f hc => (agree_expr _ _ c f hc).symm) c f (Nat.lt_succ_self _)

end Depth

/-! ## Composition -/

/-- Of such readers expressions and forms are composed. None but that of a width reads a colon. -/
class inductive Composed : {α : Type} → Reader α → Prop
  | pure {α : Type} (a : α) : Composed (pure a : Reader α)
  | bind {α β : Type} {p : Reader α} {k : α → Reader β} (hp : Composed p)
      (hk : ∀ a, Composed (k a)) : Composed (p >>= k)
  | orElse {α : Type} {p q : Reader α} (hp : Composed p) (hq : Composed q) : Composed (p <|> q)
  | many {α : Type} {p : Reader α} (hp : Composed p) : Composed p.many
  | single {holds : Char → Bool} {report : Cursor → Option Failure → Failure}
      (hcolon : holds ':' = false) (hreport : Reports report) : Composed (single holds report)
  | space : Composed space
  | width : Composed (do char ':'; widthNumber)
  | labelled {α : Type} {label : Nat → Failure → Failure} {p : Reader α} (hlabel : Labels label)
      (hp : Composed p) : Composed (labelled label p)
  | deepening {α : Type} {p : Reader α} (q : Nat → Reader α) (hq : ∀ n, Composed (q n))
      (h : ∀ n, Agree n p (q n)) : Composed p

attribute [instance] Composed.pure Composed.space Composed.width

namespace Composed

theorem oneOf {chars : List Char} (h : ':' ∉ chars) : Composed (Reader.oneOf chars) := by
  rw [oneOf_eq]
  exact .single (decide_eq_false h) (reports_miss _)

theorem char {d : Char} (h : d ≠ ':') : Composed (Reader.char d) :=
  Composed.bind (Composed.oneOf (by simpa using h.symm)) fun _ => .pure ()

section Combinators

variable (p : Reader α) [hp : Composed p]

instance sequence (k : α → Reader β) [hk : ∀ a, Composed (k a)] : Composed (p >>= k) := hp.bind hk

instance alternatives (q : Reader α) [hq : Composed q] : Composed (p <|> q) := hp.orElse hq

instance repetition : Composed p.many := hp.many

instance map (g : α → β) : Composed (g <$> p) := hp.bind fun a => .pure (g a)

instance optional : Composed p.optional := by
  rw [optional_eq]
  infer_instance

instance many1 : Composed p.many1 := by
  unfold Reader.many1
  infer_instance

instance apart : Composed p.apart := by
  rw [apart_eq]
  exact hp.labelled labels_id

instance named (prod : Production) : Composed (p.named prod) :=
  hp.labelled (labels_named prod)

instance spaced : Composed (Reader.spaced p) := by
  unfold Reader.spaced
  infer_instance

end Combinators

section Classes

variable (k : CharClass) [hk : k.Plain]

instance charOf : Composed (Reader.charOf k) := .single hk.colon hk.reports

instance run : Composed (Reader.run k) := by
  rw [run_eq]
  infer_instance

instance run1 : Composed (Reader.run1 k) := by
  unfold Reader.run1
  infer_instance

end Classes

/-! ## The grammar -/

instance : digit.Plain := .ofName (by decide) _

instance : hexDigit.Plain := .ofName (by decide) _

instance : identStart.Plain := .unnamed (by decide)

instance : identContinue.Plain := .unnamed (by decide)

instance : Composed (Reader.char '-') := .char (by decide)

instance : Composed (Reader.char '0') := .char (by decide)

instance : Composed (Reader.char '(') := .char (by decide)

instance : Composed (Reader.char ')') := .char (by decide)

instance : Composed (Reader.oneOf ['x', 'X']) := .oneOf (by decide)

instance : Composed (Reader.oneOf ['b', 'B']) := .oneOf (by decide)

instance : Composed (Reader.oneOf ['0', '1']) := .oneOf (by decide)

instance enclosed (p : Reader α) [Composed p] : Composed (Reader.enclosed p) := by
  unfold Reader.enclosed
  infer_instance

instance ident : Composed ident := by
  unfold Reader.ident
  infer_instance

instance hexadecimal : Composed hexadecimal := by
  unfold Reader.hexadecimal
  infer_instance

instance binary : Composed binary := by
  unfold Reader.binary
  infer_instance

instance decimal : Composed decimal := by
  unfold Reader.decimal
  infer_instance

instance magnitude : Composed magnitude := by
  unfold Reader.magnitude
  infer_instance

instance bitWidth : Composed bitWidth := by
  unfold Reader.bitWidth
  infer_instance

instance literal : Composed literal := by
  unfold Reader.literal
  infer_instance

section Arguments

variable (arg : Reader Expr) [Composed arg]

instance application : Composed (Reader.application arg) := by
  unfold Reader.application
  infer_instance

instance content : Composed (Reader.content arg) := by
  unfold Reader.content
  infer_instance

instance parenthesized : Composed (Reader.parenthesized arg) := by
  rw [parenthesized_eq]
  infer_instance

instance expression : Composed (Reader.expression arg) := by
  unfold Reader.expression
  infer_instance

end Arguments

instance expr : Composed expr := by
  have hdepth (n : Nat) : Composed (Reader.expression^[n] (Expr.literal <$> Reader.literal)) := by
    induction n with
    | zero => exact Composed.map ..
    | succ n ih =>
      rw [Function.iterate_succ_apply']
      infer_instance
  exact .deepening _ hdepth (agree_expr (Expr.literal <$> Reader.literal))

instance form : Composed form := by
  rw [form_eq]
  infer_instance

end Composed

end Reader

end BitSynth
