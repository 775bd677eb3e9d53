import BitSynth.Console.Arguments
import Mathlib.Tactic.Common

/-!
# Options as they come from a command line

The value of an option that is a path is never empty, because an empty argument is no path.
-/

namespace BitSynth.Console

variable {args : List String} {o : Options} {dir path : String}

theorem ne_empty_of_path? {text : String} (h : path? text = some path) : path ≠ "" := by
  unfold path? at h
  split_ifs at h with hempty
  exact Option.some.inj h ▸ hempty

theorem outDir_of_add? {o o' : Options} {item : Item} (h : o.add? item = some o')
    (hdir : o.outDir ≠ some "") : o'.outDir ≠ some "" := by
  cases item with
  | input text =>
    obtain ⟨_, -, rfl⟩ := Option.map_eq_some_iff.1 h
    exact hdir
  | flag f =>
    cases f with
    | verbose => exact Option.some.inj h ▸ hdir
    | strict =>
      rw [Options.add?] at h
      split_ifs at h
      exact Option.some.inj h ▸ hdir
    | help => cases h
    | version => cases h
  | value p text =>
    cases p with
    | outDir =>
      rw [Options.add?] at h
      split_ifs at h
      obtain ⟨_, hpath, rfl⟩ := Option.map_eq_some_iff.1 h
      exact fun hsome => ne_empty_of_path? hpath (Option.some.inj hsome)
    | target | tagBits | settingsFile =>
      rw [Options.add?] at h
      split_ifs at h
      obtain ⟨_, -, rfl⟩ := Option.map_eq_some_iff.1 h
      exact hdir
  | invalid => cases h

theorem outDir_of_ofItems : ∀ {items : List Item} {o o' : Options},
    Request.ofItems o items = .convert o' → o.outDir ≠ some "" → o'.outDir ≠ some ""
  | [], o, o', h, hdir => by
    rw [Request.ofItems] at h
    split_ifs at h
    exact Request.convert.inj h ▸ hdir
  | item :: items, o, o', h, hdir => by
    unfold Request.ofItems at h
    split at h
    · contradiction
    · cases h
    · cases h
    · rename_i heq
      obtain ⟨rfl, rfl⟩ := List.cons_eq_cons.1 heq
      cases hadd : o.add? item with
      | none =>
        rw [hadd] at h
        cases h
      | some o₁ =>
        rw [hadd] at h
        exact outDir_of_ofItems h (outDir_of_add? hadd hdir)

theorem outDir_ne_empty (hargs : Request.ofArgs args = .convert o) (hdir : o.outDir = some dir) :
    dir ≠ "" := by
  rintro rfl
  exact outDir_of_ofItems hargs (by simp) hdir

end BitSynth.Console
