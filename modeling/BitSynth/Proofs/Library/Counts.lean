import BitSynth.Proofs.Library.Entries
import Mathlib.Algebra.BigOperators.Group.List.Lemmas
import Mathlib.Algebra.GroupWithZero.Nat

/-!
# The counts of a library

Every entry but the free constants has a key (`LibraryEntry.key?`). A library has a kind for each
of the keys, in the order in which they first appear (`map_key_of_foldlM`), and the count of the
kind is the number of the entries with the key (`Library.count_eq`). So no entry is lost, and none
is counted twice.
-/

namespace BitSynth

namespace LibraryEntry

/-- What an entry is counted under: the name of an operator, that of the helper of a function, and
the low bits of a constant behind zeros up to the width. A free constant is not counted. -/
def key? (bitWidth : Nat) : LibraryEntry → Option String
  | .operator name => some name.name
  | .constant _ none => none
  | .constant width (some literal) =>
    some (Bits.binary (Bits.truncate literal.value (min width bitWidth)) bitWidth)
  | .function name _ _ => some (Operator.helperName name.name)

def isFree : LibraryEntry → Bool
  | .constant _ none => true
  | _ => false

theorem isSome_key? (bitWidth : Nat) (a : LibraryEntry) :
    (a.key? bitWidth).isSome = !a.isFree := by
  cases a with
  | operator name => rfl
  | constant width value => cases value <;> rfl
  | function name params body => rfl

end LibraryEntry

namespace Sygus

/-! ## Repeated keys -/

section Keys

theorem eraseDups_concat (keys : List String) (key : String) : (keys ++ [key]).eraseDups
    = if key ∈ keys then keys.eraseDups else keys.eraseDups ++ [key] := by
  rw [List.eraseDups_append]
  split_ifs with h
  · simp [List.removeAll, h]
  · simp [List.removeAll, h, List.eraseDups_cons]

theorem nodup_eraseDups (keys : List String) : keys.eraseDups.Nodup := by
  induction keys using List.reverseRecOn with
  | nil => exact List.nodup_nil
  | append_singleton keys key ih =>
    rw [eraseDups_concat]
    split_ifs with h
    · exact ih
    · rw [List.nodup_append]
      refine ⟨ih, List.nodup_singleton key, fun k hk k' hk' => ?_⟩
      obtain rfl := List.mem_singleton.1 hk'
      rintro rfl
      exact h (List.mem_eraseDups.1 hk)

/-- The numbers of times that the keys come up add up to the number of all. -/
theorem sum_count_eraseDups (keys : List String) :
    (keys.eraseDups.map fun key => keys.count key).sum = keys.length := by
  have hperm : keys.eraseDups.Perm keys.dedup := by
    refine (List.perm_ext_iff_of_nodup (nodup_eraseDups keys) (List.nodup_dedup keys)).2 fun k => ?_
    rw [List.mem_eraseDups, List.mem_dedup]
  rw [(hperm.map _).sum_eq, List.sum_map_count_dedup_eq_length]

theorem Kind.map_key_tally (key : String) (form : KindForm) : ∀ kinds : List Kind,
    (tally key form kinds).map Kind.key
      = if key ∈ kinds.map Kind.key then kinds.map Kind.key else kinds.map Kind.key ++ [key]
  | [] => rfl
  | k :: kinds => by
    have ih := map_key_tally key form kinds
    rw [tally]
    by_cases hk : k.key = key
    · simp [hk]
    · have hmem : key ∈ k.key :: kinds.map Kind.key ↔ key ∈ kinds.map Kind.key :=
        List.mem_cons.trans (or_iff_right (Ne.symm hk))
      rw [if_neg hk, List.map_cons, ih, List.map_cons, if_congr hmem rfl rfl]
      split_ifs <;> rfl

end Keys

/-! ## The keys of a library -/

namespace Library

variable {e : Encoder} {a : LibraryEntry} {es : List LibraryEntry} {l l' : Library}

/-- The key of a constant is what the encoder writes for it. -/
theorem key?_of_encodeConstant {width : Nat} {literal : Literal} {key : String}
    (h : (e.encodeConstant literal.value width).result = .ok key) :
    (LibraryEntry.constant width (some literal)).key? e.bitWidth = some key := by
  rw [Encoder.encodeConstant, Logged.result_bind_eq_ok_iff] at h
  obtain ⟨_, -, h⟩ := h
  exact congrArg some (Except.ok.inj h)

/-- The kinds change by the key of an entry, if it has one. -/
theorem map_key_add (h : (add e l a).result = .ok l') : l'.kinds.map Kind.key =
    match a.key? e.bitWidth with
    | none => l.kinds.map Kind.key
    | some key => if key ∈ l.kinds.map Kind.key then l.kinds.map Kind.key
        else l.kinds.map Kind.key ++ [key] := by
  rcases add_cases h with ⟨name, rfl, rfl⟩ | ⟨width, rfl, -, rfl⟩ |
    ⟨width, literal, key, rfl, hkey, rfl⟩ | ⟨name, params, body, helpers, rfl, -, rfl⟩
  · exact Kind.map_key_tally ..
  · rfl
  · rw [key?_of_encodeConstant hkey]
    exact Kind.map_key_tally ..
  · exact Kind.map_key_tally ..

theorem map_key_of_foldlM (h : (es.foldlM (add e) {}).result = .ok l) :
    l.kinds.map Kind.key = (es.filterMap (LibraryEntry.key? e.bitWidth)).eraseDups := by
  induction es using List.reverseRecOn generalizing l with
  | nil =>
    obtain rfl := Except.ok.inj h
    rfl
  | append_singleton es a ih =>
    obtain ⟨l', hl', hadd⟩ := foldlM_concat_eq_ok_iff.1 h
    rw [map_key_add hadd, ih hl', List.filterMap_append]
    cases hkey : a.key? e.bitWidth with
    | none => simp [hkey]
    | some key => simp [hkey, eraseDups_concat]

/-! ## The counts of the kinds -/

theorem map_key_contribution? (h : Admitted e es) (ha : a ∈ es) :
    (contribution? e a).map Contribution.key = a.key? e.bitWidth := by
  cases a with
  | operator name => rfl
  | constant width value =>
    cases value with
    | none => rfl
    | some literal =>
      obtain ⟨key, hkey⟩ := h.constants width literal ha
      rw [contribution?, toOption_eq_some_iff.2 hkey, key?_of_encodeConstant hkey]
      rfl
  | function name params body => rfl

theorem countOf_eq (h : Admitted e es) (key : String) :
    countOf e es key = (es.filterMap (LibraryEntry.key? e.bitWidth)).count key := by
  have hkeys : (contributions e es).map Contribution.key
      = es.filterMap (LibraryEntry.key? e.bitWidth) := by
    rw [contributions, List.map_filterMap]
    exact List.filterMap_congr fun a ha => map_key_contribution? h ha
  rw [← hkeys, countOf, List.count, List.countP_map]
  rfl

theorem count_eq (h : (es.foldlM (add e) {}).result = .ok l) {k : Kind} (hk : k ∈ l.kinds) :
    k.count = (es.filterMap (LibraryEntry.key? e.bitWidth)).count k.key := by
  have hgathers := gathers_of_foldlM h
  have hfind := Kind.find?_of_mem hgathers.keys hk
  rw [hgathers.kinds] at hfind
  obtain ⟨c, -, hkind⟩ := Option.map_eq_some_iff.1 hfind
  rw [← countOf_eq (admitted_of_foldlM h)]
  exact congrArg Kind.count hkind.symm

/-- Each entry is counted once or is a free constant. -/
theorem sum_count_add_countP (h : (es.foldlM (add e) {}).result = .ok l) :
    (l.kinds.map Kind.count).sum + es.countP LibraryEntry.isFree = es.length := by
  have hcounts : l.kinds.map Kind.count = (l.kinds.map Kind.key).map fun key =>
      (es.filterMap (LibraryEntry.key? e.bitWidth)).count key := by
    rw [List.map_map]
    exact List.map_congr_left fun k hk => count_eq h hk
  rw [hcounts, map_key_of_foldlM h, sum_count_eraseDups, List.length_filterMap_eq_countP,
    List.length_eq_countP_add_countP LibraryEntry.isFree, Nat.add_comm]
  simp only [LibraryEntry.isSome_key?, Bool.not_eq_true, Bool.decide_eq_false]

end Library

namespace TaggedLibrary

variable {e : Encoder} {s : Settings} {es : List LibraryEntry} {l : TaggedLibrary}

/-- A library has a kind for each key of its entries, no two for one key, in the order in which the
keys first appear. A kind counts the entries with its key, so with the free constants all entries
are counted once. There is a width of the free constant if there are such entries and all of them
have that width. -/
theorem ofEntries_counts (h : (ofEntries es e s).result = .ok l) :
    (l.kinds.map Kind.key).Nodup
      ∧ l.kinds.map Kind.key = (es.filterMap (LibraryEntry.key? e.bitWidth)).eraseDups
      ∧ (∀ k ∈ l.kinds, k.count = es.countP fun a => a.key? e.bitWidth = some k.key)
      ∧ (l.kinds.map Kind.count).sum + es.countP LibraryEntry.isFree = es.length
      ∧ ∀ width, l.freeWidth = some width ↔ (∃ v, .constant v none ∈ es)
          ∧ ∀ v, .constant v none ∈ es → v = width := by
  obtain ⟨hfold, -, -⟩ := ofEntries_eq_ok_iff.1 h
  have hgathers := Library.gathers_of_foldlM hfold
  have hadmitted := Library.admitted_of_foldlM hfold
  refine ⟨hgathers.keys, Library.map_key_of_foldlM hfold, fun k hk => ?_,
    Library.sum_count_add_countP hfold, fun width => ?_⟩
  · rw [Library.count_eq hfold hk, List.count_filterMap]
    exact List.countP_congr fun a _ => by rw [beq_iff_eq, decide_eq_true_eq]
  · rw [hgathers.freeWidth]
    constructor
    · exact fun hwidth => ⟨⟨width, hwidth⟩, fun v hv => hadmitted.widths v width hv hwidth⟩
    · rintro ⟨⟨v, hv⟩, hall⟩
      exact hall v hv ▸ hv

/-- Constants of two widths with the same low bits, an operator that has the name of a helper, and a
free constant that is listed twice. -/
def mixedEntries : List LibraryEntry := [
  .operator ⟨"xor"⟩, .constant 4 none, .constant 4 (some ⟨1, none⟩),
  .function ⟨"twice"⟩ [⟨"a"⟩] (.app ⟨"add"⟩ [.ident ⟨"a"⟩, .ident ⟨"a"⟩]), .operator ⟨"xor"⟩,
  .operator ⟨"cust_twice"⟩, .constant 8 (some ⟨17, none⟩), .constant 4 none]

theorem ofEntries_counts_mixedEntries : ∃ l,
    (ofEntries mixedEntries ⟨4, .strict⟩ {}).result = .ok l
      ∧ l.kinds.map Kind.key = ["xor", "#b0001", "cust_twice"] ∧ (l.kinds.map Kind.key).Nodup
      ∧ (∀ k ∈ l.kinds, k.count = mixedEntries.countP fun a => a.key? 4 = some k.key)
      ∧ (l.kinds.map Kind.count).sum + 2 = 8 ∧ l.freeWidth = some 4 := by
  obtain ⟨l, hl⟩ : ∃ l, (ofEntries mixedEntries ⟨4, .strict⟩ {}).result = .ok l := ⟨_, rfl⟩
  obtain ⟨hnodup, hkeys, hcounts, htotal, hfree⟩ := ofEntries_counts hl
  refine ⟨l, hl, hkeys.trans ?_, hnodup, hcounts, htotal, (hfree 4).2 ⟨⟨4, ?_⟩, fun v hv => ?_⟩⟩
  · decide +kernel
  · exact .tail _ (.head _)
  · simpa [mixedEntries] using hv

end TaggedLibrary

end Sygus

end BitSynth
