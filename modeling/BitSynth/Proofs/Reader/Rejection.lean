import BitSynth.Program.Read
import BitSynth.Proofs.Outcome
import BitSynth.Proofs.Reader.CorrectPrefix

/-!
# What an error says of the text

Where something else was expected, the error describes the text: it tells the character at its place
and spans just that one, or it is the end of the text and tells none. A bit width out of range is
the exception. Its error spans the digits and yet tells no character, as if the text ended there.
Every rejection is of one of the two sorts and none is of both (`describes_iff_not_ofWidth`).
-/

namespace BitSynth

open Text Reader

namespace LexError

/-- The error is the empty range at the end of the text exactly if it tells no character, and a
character that it tells is the one that it spans. -/
structure Describes (text : String) (e : LexError) : Prop where
  atEnd : e.found = none ↔ e.start = byteSize text.toList ∧ e.stop = byteSize text.toList
  found : ∀ d ∈ e.found, ∃ u w, text.toList = u ++ d :: w ∧ byteSize u = e.start ∧
    e.stop = e.start + d.utf8Size

/-- The digits behind some colon are no number of 32 bits. The error spans them and tells no
character. -/
def OfWidth (text : String) (e : LexError) : Prop :=
  ∃ u w, text.toList = u ++ ':' :: w ∧
    ¬ ofDigits 10 (w.takeWhile Char.isDigit) < Bits.modulus 32 ∧
    e.start = byteSize (u ++ [':']) ∧
    e.stop = e.start + byteSize (w.takeWhile Char.isDigit) ∧
    e.found = none ∧
    e.message = "bit width out of range: " ++ String.ofList (w.takeWhile Char.isDigit)

variable {text : String} {e : LexError} {g : Failure}

theorem describes_of_missed (h : Missed text.toList g) : (ofFailure g).Describes text := by
  obtain ⟨⟨rest, offset⟩, items, ⟨u, ⟨htext, hoffset⟩, -⟩, rfl⟩ := h
  obtain rfl : offset = byteSize u := hoffset.trans (Nat.zero_add _)
  have htext : text.toList = u ++ rest := htext
  cases rest with
  | nil =>
    have hsize : byteSize u = byteSize text.toList := by rw [htext, List.append_nil]
    exact ⟨iff_of_true rfl ⟨hsize, hsize⟩, by rintro d ⟨⟩⟩
  | cons d w =>
    refine ⟨iff_of_false nofun fun hend => ?_, ?_⟩
    · have hsize : byteSize u = byteSize text.toList := hend.1
      have := d.utf8Size_pos
      rw [htext, byteSize_append, byteSize_cons] at hsize
      omega
    · rintro _ ⟨⟩
      exact ⟨u, w, htext, rfl, rfl⟩

theorem ofWidth_of_outOfRange (h : OutOfRange text.toList g) : (ofFailure g).OfWidth text := by
  obtain ⟨c, c', ⟨u, hu, -⟩, hcolon, hlt, rfl⟩ := h
  have hbetween := hu.trans hcolon
  refine ⟨u, c'.rest, ?_, hlt, ?_, rfl, rfl, rfl⟩
  · simpa using hbetween.rest
  · exact hbetween.offset.trans (Nat.zero_add _)

/-- The end of the text is no place for digits. -/
theorem OfWidth.not_describes (h : e.OfWidth text) : ¬ e.Describes text := by
  obtain ⟨u, w, -, hlt, -, hstop, hfound, -⟩ := h
  intro hdescribes
  obtain ⟨hstart, hend⟩ := hdescribes.atEnd.1 hfound
  have hnil : w.takeWhile Char.isDigit = [] := eq_nil_of_byteSize (by omega)
  rw [hnil] at hlt
  exact hlt (by decide)

theorem describes_iff_of_parse {α : Type} {p : Reader α} [hp : Composed p]
    (h : p.parse text = .error e) : e.Describes text ↔ ¬ e.OfWidth text := by
  obtain ⟨g, hg, rfl⟩ := (parse_eq_error_iff hp.regular).1 h
  refine ⟨fun hdescribes hwidth => hwidth.not_describes hdescribes, fun hwidth => ?_⟩
  rcases honest_whole hg with hmissed | hrange
  · exact describes_of_missed hmissed
  · exact absurd (ofWidth_of_outOfRange hrange) hwidth

end LexError

/-! ## Programs -/

namespace Program

theorem ofExpr_ne_lex {x : Expr} {e : LexError} : LibraryEntry.ofExpr x ≠ .error (.lex e) := by
  intro h
  unfold LibraryEntry.ofExpr at h
  split at h
  · cases h
  · cases h
  · split at h
    · obtain ⟨_, -, h⟩ := mapError_eq_error_iff.1 h
      cases h
    · obtain ⟨_, -, h⟩ := mapError_eq_error_iff.1 h
      cases h
    · cases h

theorem add_ne_lex {b : Blocks} {form : App} {e : LexError} : b.add form ≠ .error (.lex e) := by
  intro h
  unfold Blocks.add at h
  split at h
  · cases h
  · split_ifs at h
    · cases h
    rcases of_bind_eq_error h with h | ⟨s, -, h⟩
    · obtain ⟨_, -, h⟩ := mapError_eq_error_iff.1 h
      cases h
    · cases h
  · split_ifs at h
    · cases h
    rcases of_bind_eq_error h with h | ⟨l, -, h⟩
    · unfold LibraryEntry.ofArgs at h
      split_ifs at h
      · cases h
      obtain ⟨x, -, h⟩ := exists_mem_of_mapM_eq_error h
      exact ofExpr_ne_lex h
    · cases h

/-- Forms that were read are not rejected as a text any more. -/
theorem ofForms_ne_lex {forms : List App} {e : LexError} : ofForms forms ≠ .error (.lex e) := by
  intro h
  rcases of_bind_eq_error h with h | ⟨b, -, h⟩
  · obtain ⟨form, -, b, h⟩ := exists_mem_of_foldlM_eq_error h
    exact add_ne_lex h
  · unfold Blocks.program at h
    split at h <;> cases h

theorem readAll_of_read {text : String} {e : LexError}
    (h : (read text).result = .error (.lex e)) : App.readAll text = .error e := by
  rw [read, Logged.result_bind, Logged.result_ofExcept] at h
  rcases of_bind_eq_error h with h | ⟨forms, -, h⟩
  · obtain ⟨_, h, ⟨⟩⟩ := mapError_eq_error_iff.1 h
    exact h
  · rw [Logged.result_bind, Logged.result_ofExcept] at h
    rcases of_bind_eq_error h with h | ⟨p, -, h⟩
    · exact absurd h ofForms_ne_lex
    · cases h

end Program

/-- The error of a rejection describes the text, unless it is that a bit width is out of range. -/
theorem LexError.describes_iff_not_ofWidth {text : String} {e : LexError}
    (h : Expr.read text = .error e ∨ App.readAll text = .error e ∨
      (Program.read text).result = .error (.lex e)) : e.Describes text ↔ ¬ e.OfWidth text := by
  rcases h with h | h | h
  · exact describes_iff_of_parse h
  · exact describes_iff_of_parse h
  · exact describes_iff_of_parse (Program.readAll_of_read h)

/-- The place of the number sign is counted in bytes. The number sign behind the width is never
told. -/
theorem LexError.describes_numberSign :
    (∃ e, Expr.read "(add é #)" = .error e ∧ e.start = 8 ∧ e.Describes "(add é #)") ∧
      ∃ e, (Program.read "(lib 5:4294967296 #)").result = .error (.lex e) ∧
        ¬ e.Describes "(lib 5:4294967296 #)" := by
  have hexpr : Expr.read "(add é #)"
      = .error ⟨some '#', 8, 9, "found '#' expected expression, or ')'"⟩ := by decide +kernel
  have hprogram : (Program.read "(lib 5:4294967296 #)").result
      = .error (.lex ⟨none, 7, 17, "bit width out of range: 4294967296"⟩) := by decide +kernel
  refine ⟨⟨_, hexpr, rfl, (describes_iff_not_ofWidth (.inl hexpr)).2 ?_⟩, _, hprogram, fun h => ?_⟩
  · rintro ⟨u, w, -, -, -, -, hfound, -⟩
    cases hfound
  · refine (describes_iff_not_ofWidth (.inr (.inr hprogram))).1 h ?_
    exact ⟨"(lib 5".toList, "4294967296 #)".toList, by decide⟩

/-- The error lies in front of the end and yet tells no character. -/
theorem LexError.not_describes_width :
    ∃ e, Expr.read "5:4294967296" = .error e ∧ ¬ e.Describes "5:4294967296" := by
  have hread : Expr.read "5:4294967296"
      = .error ⟨none, 2, 12, "bit width out of range: 4294967296"⟩ := by decide +kernel
  exact ⟨_, hread, fun h => absurd (h.atEnd.1 rfl) (by decide)⟩

end BitSynth
