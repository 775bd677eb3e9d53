import BitSynth.Program.Read
import BitSynth.Proofs.Outcome
import BitSynth.Proofs.Program.Shape

/-!
# Runs on machine numbers

A program is read and translated with the unsigned numbers of a machine, from which no larger number
can be taken away and of which those for widths have 32 bits. A run on such numbers breaks off where
one is out of range. It computes the same as a run on natural numbers if it never breaks off and
reports and returns the same (`Machine.Computes`), as the reading of a program does
(`Machine.computes_read`).
-/

namespace BitSynth

/-! ## Runs in sequence -/

namespace Logged

variable {α β γ : Type}

theorem map_id (x : Logged α) : id <$> x = x := by
  obtain ⟨events, result⟩ := x
  cases result with
  | error e => rfl
  | ok a =>
    show (⟨events ++ [], .ok a⟩ : Logged α) = _
    rw [List.append_nil]

theorem bind_assoc (x : Logged α) (f : α → Logged β) (g : β → Logged γ) :
    x >>= f >>= g = x >>= fun a => f a >>= g := by
  cases hx : x.result with
  | error e => rw [bind_of_error hx, bind_of_error hx, bind_of_error rfl]
  | ok a =>
    rw [bind_of_ok hx, bind_of_ok hx]
    cases hf : (f a).result with
    | error e => rw [bind_of_error hf, bind_of_error rfl]
    | ok b => rw [bind_of_ok hf, bind_of_ok rfl, List.append_assoc]

/-- Only the result of a run decides on what follows it. -/
theorem bind_congr_of_ok {x : Logged α} {f g : α → Logged β}
    (h : ∀ a, x.result = .ok a → f a = g a) : x >>= f = x >>= g := by
  cases hx : x.result with
  | error e => rw [bind_of_error hx, bind_of_error hx]
  | ok a => rw [bind_of_ok hx, bind_of_ok hx, h a hx]

theorem ofExcept_bind (x : Except Error α) (f : α → Except Error β) :
    ofExcept (x >>= f) = ofExcept x >>= fun a => ofExcept (f a) := by
  cases x <;> rfl

theorem ofExcept_foldlM (f : β → α → Except Error β) : ∀ (as : List α) (b : β),
    ofExcept (as.foldlM f b) = as.foldlM (fun b a => ofExcept (f b a)) b
  | [], _ => rfl
  | a :: as, b => by
    simp only [List.foldlM_cons, ofExcept_bind, ofExcept_foldlM f as]

end Logged

namespace Machine

variable {α β : Type}

scoped instance : LawfulMonad Logged :=
  LawfulMonad.mk' _ Logged.map_id (fun _ _ => rfl) Logged.bind_assoc

/-- A run on machine numbers. It breaks off, without a result or an error, where one of them is out
of range. -/
abbrev Run := OptionT Logged

/-- A step that has nothing to do with machine numbers. -/
def step (y : Logged α) : Run α := OptionT.lift y

def refuse (e : Error) : Run α := step (.fail e)

/-- A number of 32 bits. -/
def word (n : Nat) : Run Nat := if n < Bits.modulus 32 then pure n else failure

def difference (a b : Nat) : Run Nat := if b ≤ a then pure (a - b) else failure

/-- The value with no more digits than the width asks for. -/
def binary (value : Int) (width : Nat) : Run String :=
  if (Bits.digits value).length ≤ width then pure (Bits.binary value width) else failure

def item (as : List α) (i : Nat) : Run α := OptionT.mk (pure as[i]?)

theorem item_zero (a : α) (as : List α) : item (a :: as) 0 = pure a := rfl

theorem item_succ (a : α) (as : List α) (i : Nat) : item (a :: as) (i + 1) = item as i := rfl

/-- The run on machine numbers never breaks off, and does the same as the other one. -/
def Computes (x : Run α) (y : Logged α) : Prop := x.run = some <$> y

theorem word_eq {n : Nat} (h : n < Bits.modulus 32) : word n = pure n := if_pos h

theorem difference_eq {a b : Nat} (h : b ≤ a) : difference a b = pure (a - b) := if_pos h

theorem binary_eq {n width : Nat} (hw : 0 < width) (h : n < Bits.modulus width) :
    binary n width = pure (Bits.binary n width) := by
  refine if_pos ?_
  rw [Bits.digits, if_neg (Int.not_lt.2 (Int.natCast_nonneg n)), Int.natAbs_natCast]
  exact (Nat.length_toDigits_le_iff (by decide) hw).2 h

namespace Computes

theorem step (y : Logged α) : Computes (step y) y := rfl

theorem pure (a : α) : Computes (Pure.pure a) (Pure.pure a) := rfl

/-- What comes after a step may rely on the result of the step. -/
theorem bind {x : Run α} {y : Logged α} {g : α → Run β} {f : α → Logged β} (h : Computes x y)
    (hgf : ∀ a, y.result = .ok a → Computes (g a) (f a)) : Computes (x >>= g) (y >>= f) := by
  have hrun : (x >>= g).run = y >>= fun a => (g a).run := by
    rw [OptionT.run_bind, Option.elimM, h, bind_map_left]
    rfl
  rw [Computes, hrun, map_bind]
  exact Logged.bind_congr_of_ok hgf

theorem foldlM {g : β → α → Run β} {f : β → α → Logged β} (h : ∀ b a, Computes (g b a) (f b a)) :
    ∀ (as : List α) (b : β), Computes (as.foldlM g b) (as.foldlM f b)
  | [], b => pure b
  | a :: as, b => by
    rw [List.foldlM_cons, List.foldlM_cons]
    exact (h b a).bind fun c _ => foldlM h as c

end Computes

theorem mapM_eq {g : α → Run β} {f : α → β} : ∀ {as : List α},
    (∀ a ∈ as, g a = pure (f a)) → as.mapM g = pure (as.map f)
  | [], _ => List.mapM_nil
  | a :: as, h => by
    rw [List.mapM_cons, h a (List.mem_cons_self ..), pure_bind,
      mapM_eq fun b hb => h b (List.mem_cons_of_mem a hb), pure_bind, List.map_cons]

/-! ## Reading -/

/-- A result that comes about without events, or the error in the form of the program. -/
def shaped (r : Except ShapeError α) : Logged α := .ofExcept (r.mapError Error.shape)

theorem shaped_bind (x : Except ShapeError α) (f : α → Except ShapeError β) :
    shaped (x >>= f) = shaped x >>= fun a => shaped (f a) := by
  cases x <;> rfl

/-- The spec block, from its arguments by their places. -/
def specOfArgs (args : List Expr) : Run Spec := do
  if args.length < 3 then
    refuse (.shape (.spec ⟨⟨Block.spec.name⟩, args⟩))
  else
    let count ← item args 0
    let declared ← step (shaped (count.toNumber .inputCount))
    let width ← item args 1
    let bitWidth ← step (shaped (width.toNumber .bitWidth))
    if bitWidth = 0 then
      refuse (.shape .zeroBitWidth)
    else
      let supplied ← difference args.length 3
      if supplied ≠ declared then
        refuse (.shape (.inputCount declared supplied))
      else
        let names ← step (shaped (Expr.toNames .specInput ((args.drop 2).take declared)))
        let body ← item (args.drop 2) declared
        return ⟨bitWidth, names, body⟩

def addBlock (b : Program.Blocks) (form : App) : Run Program.Blocks :=
  match Block.ofName? form.op.name, b.spec with
  | some .spec, none => do
    let s ← specOfArgs form.args
    return { b with spec := some s }
  | _, _ => step (.ofExcept (b.add form))

def read (text : String) : Run Program := do
  let forms ← step (.ofExcept ((App.readAll text).mapError .lex))
  let blocks ← forms.foldlM addBlock {}
  let p ← step (.ofExcept blocks.program)
  step (.emit .debug .program
    ("Program read: " ++ toString p.spec.inputs.length ++ " inputs at " ++ toString p.spec.bitWidth
      ++ " bits, " ++ toString p.library.length ++ " library entries."))
  return p

theorem computes_specOfArgs (args : List Expr) :
    Computes (specOfArgs args) (shaped (Spec.ofArgs args)) := by
  match args with
  | [] => exact .step _
  | [_] => exact .step _
  | [_, _] => exact .step _
  | count :: width :: first :: rest =>
    obtain ⟨⟨inputs, body⟩, hsplit⟩ : ∃ r, splitLast first rest = r := ⟨_, rfl⟩
    have hlist := splitLast_eq_iff.1 hsplit
    have hlength : rest.length = inputs.length := by
      simpa using congrArg List.length hlist
    have hlong : ¬ (count :: width :: first :: rest).length < 3 := by simp
    have hsupplied : difference (count :: width :: first :: rest).length 3
        = pure inputs.length := by
      rw [difference_eq (Nat.not_lt.1 hlong), ← hlength]
      rfl
    have hnames : (first :: rest).take inputs.length = inputs := by
      rw [hlist, List.take_left]
    have hbody : item (first :: rest) inputs.length = pure body := by
      rw [item, hlist, List.getElem?_concat_length]
      rfl
    rw [specOfArgs, if_neg hlong, Spec.ofArgs, hsplit, hsupplied]
    simp only [shaped_bind, pure_bind, item_zero, item_succ]
    refine (Computes.step _).bind fun declared _ => ?_
    refine (Computes.step _).bind fun bitWidth _ => ?_
    by_cases hzero : bitWidth = 0
    · rw [if_pos hzero, if_pos hzero]
      exact .step _
    rw [if_neg hzero, if_neg hzero]
    by_cases hcount : inputs.length ≠ declared
    · rw [if_pos hcount, if_pos hcount]
      exact .step _
    obtain rfl := not_not.1 hcount
    rw [if_neg hcount, if_neg hcount, shaped_bind, List.drop_succ_cons, List.drop_succ_cons,
      List.drop_zero, hnames, hbody]
    exact (Computes.step _).bind fun names _ => .pure _

theorem computes_addBlock (b : Program.Blocks) (form : App) :
    Computes (addBlock b form) (.ofExcept (b.add form)) := by
  unfold addBlock
  split
  · rename_i hname hspec
    have hadd : Logged.ofExcept (b.add form)
        = shaped (Spec.ofArgs form.args) >>= fun s => pure { b with spec := some s } := by
      rw [Program.Blocks.add, hname, hspec]
      exact Logged.ofExcept_bind _ _
    rw [hadd]
    exact (computes_specOfArgs form.args).bind fun s _ => .pure _
  · exact .step _

/-- Reading a program never takes a number away from a smaller one. -/
theorem computes_read (text : String) : Computes (read text) (Program.read text) := by
  refine (Computes.step _).bind fun forms _ => ?_
  rw [Program.ofForms, Logged.ofExcept_bind, Logged.ofExcept_foldlM, Logged.bind_assoc]
  refine (Computes.foldlM computes_addBlock forms {}).bind fun blocks _ => ?_
  refine (Computes.step _).bind fun p _ => ?_
  exact (Computes.step _).bind fun _ _ => .pure p

end Machine

end BitSynth
