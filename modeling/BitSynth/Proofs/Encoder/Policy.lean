import BitSynth.Proofs.Grammar.Names
import BitSynth.Proofs.Text.Decimal
import BitSynth.Sygus.Problem

/-!
# The two policies for literals

A strict run does what a truncating run does until that truncates a literal, and there it ends with
the literal and its width as the error. So the strict result is the truncating one if there was no
warning, and otherwise it can be told from the first warning alone.
-/

namespace BitSynth

def truncationMessage (value : Int) (width : Nat) : String :=
  "Literal " ++ toString value ++ " does not fit in " ++ toString width ++ " bits, truncating"

theorem truncationMessage_inj {v v' : Int} {w w' : Nat}
    (h : truncationMessage v w = truncationMessage v' w') : v = v' ∧ w = w' := by
  have hspace (v : Int) (rest : List Char) :
      ((toString v).toList ++ ' ' :: rest).takeWhile (· ≠ ' ') = (toString v).toList := by
    rw [List.takeWhile_append_of_pos, List.takeWhile_cons_of_neg (by simp), List.append_nil]
    intro c hc
    rcases Text.of_mem_toString_int hc with rfl | hdigit
    · decide
    · rw [decide_eq_true_eq]
      rintro rfl
      cases hdigit
  have hlist : (toString v).toList ++ ' ' :: ("does not fit in ".toList ++ ((toString w).toList
      ++ " bits, truncating".toList)) = (toString v').toList ++ ' ' :: ("does not fit in ".toList
        ++ ((toString w').toList ++ " bits, truncating".toList)) := by
    have := congrArg (fun s => s.toList.drop 8) h
    simpa [truncationMessage, String.toList_append] using this
  have hv : (toString v).toList = (toString v').toList := by
    rw [← hspace v, hlist, hspace]
  rw [hv, List.append_cancel_left_eq, List.cons.injEq, List.append_cancel_left_eq,
    List.append_cancel_right_eq, String.toList_inj] at hlist
  exact ⟨Text.toString_int_inj (String.toList_inj.1 hv), Text.toString_nat_inj hlist.2⟩

namespace Logged

variable {α β γ : Type}

/-- A truncating run and a strict one: all warnings are of truncations, without any the results are
the same, and otherwise the strict run stopped at the first. -/
structure Agrees (x y : Logged α) : Prop where
  truncations : ∀ m ∈ x.warnings, ∃ v w, m = truncationMessage v w
  same : x.warnings = [] → y.result = x.result
  first : ∀ v w, x.warnings.head? = some (truncationMessage v w) →
    y.result = .error (.literalRange v w)

theorem Agrees.refl {x : Logged α} (h : x.warnings = []) : x.Agrees x := by
  refine ⟨fun m hm => ?_, fun _ => rfl, fun v w hm => ?_⟩
  · rw [h] at hm
    cases hm
  · rw [h] at hm
    cases hm

theorem warnings_bind_of_ok {x : Logged α} {a : α} (h : x.result = .ok a) (f : α → Logged β) :
    (x >>= f).warnings = x.warnings ++ (f a).warnings := by
  rw [bind_of_ok h]
  simp [warnings]

theorem warnings_bind_of_error {x : Logged α} {e : Error} (h : x.result = .error e)
    (f : α → Logged β) : (x >>= f).warnings = x.warnings := by
  rw [bind_of_error h]
  rfl

/-- Runs that agree go on to agree if their continuations do. -/
theorem Agrees.bind {x y : Logged α} {f g : α → Logged β} (h : x.Agrees y)
    (hfg : ∀ a, x.result = .ok a → (f a).Agrees (g a)) : (x >>= f).Agrees (y >>= g) := by
  cases hx : x.result with
  | error e =>
    have hwarn := warnings_bind_of_error hx f
    refine ⟨hwarn ▸ h.truncations, fun hnil => ?_, fun v w hhead => ?_⟩
    · have hy := h.same (hwarn ▸ hnil)
      rw [bind_of_error hx, bind_of_error (hy.trans hx)]
    · rw [bind_of_error (h.first v w (hwarn ▸ hhead))]
  | ok a =>
    have hwarn := warnings_bind_of_ok hx f
    have hf := hfg a hx
    refine ⟨fun m hm => ?_, fun hnil => ?_, fun v w hhead => ?_⟩
    · rw [hwarn, List.mem_append] at hm
      exact hm.elim (h.truncations m) (hf.truncations m)
    · rw [hwarn, List.append_eq_nil_iff] at hnil
      have hy := h.same hnil.1
      rw [bind_of_ok hx, bind_of_ok (hy.trans hx)]
      exact hf.same hnil.2
    · rw [hwarn] at hhead
      by_cases hnil : x.warnings = []
      · have hy := h.same hnil
        rw [hnil, List.nil_append] at hhead
        rw [bind_of_ok (hy.trans hx)]
        exact hf.first v w hhead
      · rw [List.head?_append_of_ne_nil _ hnil] at hhead
        rw [bind_of_error (h.first v w hhead)]

theorem Agrees.map {x y : Logged α} (h : x.Agrees y) (f : α → Logged β)
    (hf : ∀ a, (f a).warnings = []) : (x >>= f).Agrees (y >>= f) :=
  h.bind fun a _ => .refl (hf a)

theorem Agrees.foldlM {f g : β → α → Logged β} (h : ∀ b a, (f b a).Agrees (g b a)) :
    ∀ (as : List α) (b : β), (as.foldlM f b).Agrees (as.foldlM g b)
  | [], b => .refl rfl
  | a :: as, b => by
    rw [List.foldlM_cons, List.foldlM_cons]
    exact (h b a).bind fun c _ => foldlM h as c

theorem warnings_forM {f : α → Logged Unit} (h : ∀ a, (f a).warnings = []) : ∀ as : List α,
    (as.forM f).warnings = []
  | [] => rfl
  | a :: as => by
    show (f a >>= fun _ => as.forM f).warnings = []
    cases ha : (f a).result with
    | error e => rw [warnings_bind_of_error ha, h]
    | ok u => rw [warnings_bind_of_ok ha, h, List.nil_append, warnings_forM h as]

end Logged

open Logged

namespace Encoder

variable (bitWidth : Nat)

theorem checkFit_agrees (value : Int) (width : Nat) :
    (checkFit ⟨bitWidth, .truncate⟩ value width).Agrees
      (checkFit ⟨bitWidth, .strict⟩ value width) := by
  unfold checkFit
  split_ifs
  · exact .refl rfl
  · exact .refl rfl
  · refine ⟨fun m hm => ?_, fun hnil => ?_, fun v w hhead => ?_⟩
    · exact ⟨value, width, List.mem_singleton.1 hm⟩
    · cases hnil
    · obtain ⟨rfl, rfl⟩ := truncationMessage_inj (Option.some.inj hhead)
      rfl

theorem encodeBits_agrees (value : Int) (width : Nat) :
    (encodeBits ⟨bitWidth, .truncate⟩ value width).Agrees
      (encodeBits ⟨bitWidth, .strict⟩ value width) :=
  (checkFit_agrees bitWidth value width).map _ fun _ => rfl

theorem encodeConstant_agrees (value : Int) (width : Nat) :
    (encodeConstant ⟨bitWidth, .truncate⟩ value width).Agrees
      (encodeConstant ⟨bitWidth, .strict⟩ value width) :=
  (checkFit_agrees bitWidth value width).map _ fun _ => rfl

theorem encodeLiteral_agrees (l : Literal) :
    (encodeLiteral ⟨bitWidth, .truncate⟩ l).Agrees (encodeLiteral ⟨bitWidth, .strict⟩ l) :=
  encodeBits_agrees bitWidth l.value (l.width.getD bitWidth)

mutual

theorem encodeFor_agrees : ∀ (use : Operator.Use) (x : Expr),
    (encodeFor ⟨bitWidth, .truncate⟩ use x).Agrees (encodeFor ⟨bitWidth, .strict⟩ use x)
  | use, .ident x => by
    rw [encodeFor, encodeFor]
    exact .refl rfl
  | use, .literal l => by
    rw [encodeFor, encodeFor]
    exact (encodeLiteral_agrees bitWidth l).map _ fun _ => rfl
  | use, .app op args => by
    rw [encodeFor.eq_def, encodeFor.eq_def]
    by_cases hop : op.name = Extraction.operator
    · simp only [if_pos hop]
      split
      · rename_i operand
        exact (encodeFor_agrees .value operand).map _ fun _ => rfl
      · exact .refl rfl
    · simp only [if_neg hop]
      exact (encodeArgs_agrees _ args).map _ fun _ => rfl

theorem encodeArgs_agrees : ∀ (first : Operator.Use) (xs : List Expr),
    (encodeArgs ⟨bitWidth, .truncate⟩ first xs).Agrees (encodeArgs ⟨bitWidth, .strict⟩ first xs)
  | first, [] => by
    rw [encodeArgs, encodeArgs]
    exact .refl rfl
  | first, x :: xs => by
    rw [encodeArgs, encodeArgs]
    exact (encodeFor_agrees first x).bind fun t _ =>
      (encodeArgs_agrees .value xs).map _ fun _ => rfl

end

end Encoder

namespace Sygus

variable (bitWidth : Nat)

theorem Library.add_agrees (l : Library) (entry : LibraryEntry) :
    (Library.add ⟨bitWidth, .truncate⟩ l entry).Agrees
      (Library.add ⟨bitWidth, .strict⟩ l entry) := by
  cases entry with
  | operator name => exact .refl rfl
  | constant width value =>
    cases value with
    | none =>
      simp only [Library.add]
      split
      · split_ifs <;> exact .refl rfl
      · exact .refl rfl
    | some literal =>
      exact (Encoder.encodeConstant_agrees bitWidth literal.value width).map _ fun _ => rfl
  | function name params body =>
    simp only [Library.add]
    split_ifs
    · exact (Agrees.refl rfl).map _ fun _ => rfl
    · exact (Encoder.encodeFor_agrees bitWidth .value body).map _ fun _ => rfl

theorem TaggedLibrary.ofEntries_agrees (entries : List LibraryEntry) (tagBits : Nat) :
    (TaggedLibrary.ofEntries entries ⟨bitWidth, .truncate⟩ ⟨tagBits, .truncate⟩).Agrees
      (TaggedLibrary.ofEntries entries ⟨bitWidth, .strict⟩ ⟨tagBits, .strict⟩) := by
  refine (Agrees.foldlM (Library.add_agrees bitWidth) entries {}).bind fun l _ => ?_
  refine (Agrees.refl rfl).bind fun _ _ => ?_
  refine Agrees.bind (.refl (warnings_forM ?_ _)) fun _ _ => .refl rfl
  exact fun k => rfl

theorem Grammar.warnings_nonterminals (l : TaggedLibrary) :
    (Grammar.nonterminals l bitWidth).warnings = [] := by
  unfold Grammar.nonterminals
  rw [warnings_bind_of_ok (a := ()) (Logged.forM_emit_result fun _ _ => rfl),
    warnings_forM fun _ => rfl]
  rfl

namespace Problem

theorem ofProgram_agrees (p : Program) (tagBits : Nat) :
    (ofProgram p ⟨tagBits, .truncate⟩).Agrees (ofProgram p ⟨tagBits, .strict⟩) := by
  refine (Agrees.refl rfl).bind fun _ _ => ?_
  refine (TaggedLibrary.ofEntries_agrees _ p.library tagBits).bind fun l _ => ?_
  refine (Agrees.refl rfl).bind fun _ _ => ?_
  refine (Encoder.encodeFor_agrees _ .value p.spec.body).bind fun body _ => ?_
  exact (Agrees.refl (Grammar.warnings_nonterminals _ l)).map _ fun _ => rfl

/-- Without a warning the strict result is the truncating one, be it a problem or an error. With
warnings, all of which are of truncated literals, it is the error that tells the value and the width
of the first, whatever the truncating run ends with. -/
theorem strict_result (p : Program) (tagBits : Nat) :
    (∀ m ∈ (ofProgram p ⟨tagBits, .truncate⟩).warnings, ∃ v w, m = truncationMessage v w)
      ∧ ((ofProgram p ⟨tagBits, .truncate⟩).warnings = [] →
          (ofProgram p ⟨tagBits, .strict⟩).result = (ofProgram p ⟨tagBits, .truncate⟩).result)
      ∧ ∀ v w rest, (ofProgram p ⟨tagBits, .truncate⟩).warnings = truncationMessage v w :: rest →
          (ofProgram p ⟨tagBits, .strict⟩).result = .error (.literalRange v w) := by
  have h := ofProgram_agrees p tagBits
  refine ⟨h.truncations, h.same, fun v w rest hwarn => h.first v w ?_⟩
  rw [hwarn, List.head?_cons]

/-- A sum with a literal that is too wide, over a library with a constant that is too wide. -/
def oversized : Program where
  spec := ⟨4, [⟨"x"⟩], .app ⟨"add"⟩ [.ident ⟨"x"⟩, .literal ⟨99, none⟩]⟩
  library := [.operator ⟨"add"⟩, .constant 4 (some ⟨20, none⟩)]

/-- The constants of the library come before the literals of the body. -/
theorem strict_result_oversized : (ofProgram oversized ⟨4, .truncate⟩).warnings
      = [truncationMessage 20 4, truncationMessage 99 4]
    ∧ (ofProgram oversized ⟨4, .strict⟩).result = .error (.literalRange 20 4) := by
  have hwarn : (ofProgram oversized ⟨4, .truncate⟩).warnings
      = [truncationMessage 20 4, truncationMessage 99 4] := rfl
  exact ⟨hwarn, (strict_result oversized 4).2.2 20 4 _ hwarn⟩

end Problem

end Sygus

end BitSynth
