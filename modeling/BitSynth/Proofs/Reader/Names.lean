import BitSynth.Proofs.Reader.Reading

/-!
# Names that are read

The rule for names is there twice: as what the reader takes for one, and as what `Ident.ofString?`
makes one of. The two agree on every text, and nothing that is read has a name of another kind in
it (`Ident.read_eq_ok_iff_ofString?`).
-/

namespace BitSynth

namespace Expr

mutual

/-- All names in the expression, of operators as well as of variables. -/
def names : Expr → List Ident
  | .ident x => [x]
  | .literal _ => []
  | .app op args => op :: namesAll args

def namesAll : List Expr → List Ident
  | [] => []
  | e :: es => e.names ++ namesAll es

end

mutual

theorem Valid.names : ∀ {e : Expr}, e.Valid → ∀ x ∈ e.names, x.Valid
  | .ident _, h => List.forall_mem_singleton.2 h
  | .literal _, _ => List.forall_mem_nil _
  | .app _ _, h => List.forall_mem_cons.2 ⟨h.1, AllValid.namesAll h.2⟩

theorem AllValid.namesAll : ∀ {es : List Expr}, AllValid es → ∀ x ∈ namesAll es, x.Valid
  | [], _ => List.forall_mem_nil _
  | _ :: _, h => List.forall_mem_append.2 ⟨Valid.names h.1, AllValid.namesAll h.2⟩

end

theorem valid_of_read {text : String} {e : Expr} (h : Expr.read text = .ok e) : e.Valid := by
  obtain ⟨l, -, -, hwrites⟩ := exists_layout_of_read h
  exact Reader.valid_of_writes hwrites fun _ ht => ht

end Expr

namespace Ident

variable {x : Ident}

theorem Valid.ofString? (h : x.Valid) : Ident.ofString? x.name = some x :=
  ofString?_eq_some_iff.2 ⟨rfl, h⟩

/-- Wherever the reader of names stands and whatever has failed before, the constructor makes the
same name of the characters that it takes. -/
theorem follows_ofString? : Reader.ident.Follows fun cs x =>
    Ident.ofString? (String.ofList cs) = some x := by
  intro c f x c' f' h
  obtain ⟨cs, hbetween, hcs, rfl⟩ := Reader.follows_ident c f x c' f' h
  refine ⟨cs, hbetween, ofString?_eq_some_iff.2 ⟨rfl, ?_⟩⟩
  rwa [Valid, String.toList_ofList]

theorem read_of_ofString? {text : String} (h : Ident.ofString? text = some x) :
    read text = .ok x := by
  obtain ⟨rfl, hx⟩ := ofString?_eq_some_iff.1 h
  have htakes : Reader.ident.Takes x.name.toList [] ⟨String.ofList x.name.toList⟩ :=
    Reader.takes_ident hx (by rintro c ⟨⟩)
  rw [String.ofList_toList] at htakes
  exact htakes.parse

theorem ofString?_of_read {text : String} (h : read text = .ok x) :
    Ident.ofString? text = some x := by
  have hmade := follows_ofString?.parse h
  rwa [String.ofList_toList] at hmade

/-- A name is read from a text exactly if the constructor makes it of the text. The constructor also
makes all names in an expression or in forms that are read, and every name that the reader takes on
the way, be it for something that is read in the end or not. -/
theorem read_eq_ok_iff_ofString? (text : String) :
    (∀ x, read text = .ok x ↔ Ident.ofString? text = some x)
      ∧ (∀ e, Expr.read text = .ok e → ∀ x ∈ e.names, Ident.ofString? x.name = some x)
      ∧ (∀ forms, App.readAll text = .ok forms →
          ∀ a ∈ forms, ∀ x ∈ a.toExpr.names, Ident.ofString? x.name = some x)
      ∧ Reader.ident.Follows fun cs x => Ident.ofString? (String.ofList cs) = some x := by
  refine ⟨fun x => ⟨ofString?_of_read, read_of_ofString?⟩, fun e h x hx => ?_,
    fun forms h a ha x hx => ?_, follows_ofString?⟩
  · exact ((Expr.valid_of_read h).names x hx).ofString?
  · exact ((App.valid_of_readAll h a ha).names x hx).ofString?

/-- A text that is an expression and a form, with names for an operator in each position. -/
theorem read_eq_ok_iff_ofString?_nested : ∃ e forms,
    Expr.read "(add x1.lo\n(.f 0b12 _y) (g))" = .ok e
      ∧ e.names = [⟨"add"⟩, ⟨"x1.lo"⟩, ⟨".f"⟩, ⟨"_y"⟩, ⟨"g"⟩]
      ∧ (∀ x ∈ e.names, Ident.ofString? x.name = some x)
      ∧ App.readAll "(add x1.lo\n(.f 0b12 _y) (g))" = .ok forms ∧ forms ≠ []
      ∧ (∀ a ∈ forms, ∀ x ∈ a.toExpr.names, Ident.ofString? x.name = some x)
      ∧ read "x1.lo" = .ok ⟨"x1.lo"⟩ := by
  obtain ⟨-, hexpr, hforms, -⟩ := read_eq_ok_iff_ofString? "(add x1.lo\n(.f 0b12 _y) (g))"
  have he : Expr.read "(add x1.lo\n(.f 0b12 _y) (g))" = .ok (.app ⟨"add"⟩ [.ident ⟨"x1.lo"⟩,
      .app ⟨".f"⟩ [.literal ⟨1, none⟩, .literal ⟨2, none⟩, .ident ⟨"_y"⟩], .app ⟨"g"⟩ []]) := by
    decide +kernel
  have ha : App.readAll "(add x1.lo\n(.f 0b12 _y) (g))" = .ok [⟨⟨"add"⟩, [.ident ⟨"x1.lo"⟩,
      .app ⟨".f"⟩ [.literal ⟨1, none⟩, .literal ⟨2, none⟩, .ident ⟨"_y"⟩], .app ⟨"g"⟩ []]⟩] := by
    decide +kernel
  exact ⟨_, _, he, rfl, hexpr _ he, ha, by simp, hforms _ ha,
    ((read_eq_ok_iff_ofString? "x1.lo").1 _).2 (by decide)⟩

end Ident

end BitSynth
