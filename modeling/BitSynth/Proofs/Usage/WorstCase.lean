import BitSynth.Proofs.Usage.Tree

/-!
# The most uses of a tree

The table behind `Usage.worstCase` is filled from the budgets down to no use at all, so every entry
is computed from finished ones: at the end it solves the equation that each of its entries was
computed by (`getElem?_table`). A tree that keeps the budgets therefore has no more uses of a kind
than its usage's entry, up to the limit of the counts (`min_uses_le_most`).
-/

namespace BitSynth.Sygus

namespace Usage

variable {budgets arities : List Nat} {u : Usage}

/-! ## The table -/

/-- The table with the entries of further usages, in their order. -/
def fill (budgets arities : List Nat) (table : Std.TreeMap Usage (List Nat)) (us : List Usage) :
    Std.TreeMap Usage (List Nat) :=
  us.foldl (fun table u => table.insert u (usesFrom budgets arities table u)) table

def table (budgets arities : List Nat) : Std.TreeMap Usage (List Nat) :=
  fill budgets arities ∅ (reachable budgets).reverse

/-- An entry looks only at those of the successors. -/
theorem usesFrom_congr {t t' : Std.TreeMap Usage (List Nat)}
    (h : ∀ v ∈ u.successors budgets, t[v]? = t'[v]?) :
    usesFrom budgets arities t u = usesFrom budgets arities t' u := by
  refine List.foldl_ext _ _ _ fun most k hk => ?_
  rw [h _ (mem_successors_iff.2 ⟨k, mem_affordable_iff.1 hk, rfl⟩)]

theorem getElem?_insert_of_ne {t : Std.TreeMap Usage (List Nat)} {u v : Usage} {e : List Nat}
    (h : u ≠ v) : (t.insert u e)[v]? = t[v]? := by
  rw [Std.TreeMap.getElem?_insert, if_neg]
  rwa [Std.LawfulEqCmp.compare_eq_iff_eq]

/-- The usages that come late enough to leave an entry as it is. -/
theorem getElem?_fill_of_notMem {v : Usage} : ∀ {us : List Usage}
    {t : Std.TreeMap Usage (List Nat)}, v ∉ us → (fill budgets arities t us)[v]? = t[v]?
  | [], t, _ => rfl
  | u :: us, t, h => by
    rw [List.mem_cons, not_or] at h
    rw [fill, List.foldl_cons, ← fill, getElem?_fill_of_notMem h.2,
      getElem?_insert_of_ne (Ne.symm h.1)]

/-- Where no usage comes before its successors and none comes twice, all entries solve their
equation in the finished table. -/
theorem getElem?_fill : ∀ {us : List Usage} {t : Std.TreeMap Usage (List Nat)}, us.Nodup →
    us.Pairwise (fun u v => v ∉ u.successors budgets) → (∀ u ∈ us, u ∉ u.successors budgets) →
    ∀ u ∈ us, (fill budgets arities t us)[u]?
      = some (usesFrom budgets arities (fill budgets arities t us) u)
  | v :: us, t, hnodup, hpair, hself, u, hu => by
    rw [List.nodup_cons] at hnodup
    rw [List.pairwise_cons] at hpair
    have ih := getElem?_fill (t := t.insert v (usesFrom budgets arities t v)) hnodup.2 hpair.2
      fun w hw => hself w (List.mem_cons_of_mem v hw)
    rw [fill, List.foldl_cons, ← fill]
    rcases List.mem_cons.1 hu with rfl | hu
    · rw [getElem?_fill_of_notMem hnodup.1, Std.TreeMap.getElem?_insert_self]
      -- the successors of `u` were there before it, and nothing after it touches them
      refine congrArg some (usesFrom_congr fun w hw => ?_)
      have hwus : w ∉ us := fun h => hpair.1 w h hw
      have hne : u ≠ w := by
        rintro rfl
        exact hself u (List.mem_cons_self ..) hw
      rw [getElem?_fill_of_notMem hwus, getElem?_insert_of_ne hne]
    · exact ih u hu

theorem total_of_mem_successors {v : Usage} (hu : u.Within budgets)
    (h : v ∈ u.successors budgets) : v.total = u.total + 1 := by
  obtain ⟨k, hk, rfl⟩ := mem_successors_iff.1 h
  exact total_spend u (hu.1 ▸ lt_length_of_affords hk)

/-- Each entry of the table is the one computed from the others. -/
theorem getElem?_table (hu : u.Within budgets) :
    (table budgets arities)[u]? = some (usesFrom budgets arities (table budgets arities) u) := by
  refine getElem?_fill ?_ ?_ (fun v hv hs => ?_) u (List.mem_reverse.2 (mem_reachable_iff.2 hu))
  · exact List.nodup_reverse.2 (nodup_reachable budgets)
  · rw [List.pairwise_reverse]
    refine (pairwise_total_reachable budgets).imp_of_mem fun {v w} _ hw hle hs => ?_
    have := total_of_mem_successors (mem_reachable_iff.1 hw) hs
    omega
  · have := total_of_mem_successors (mem_reachable_iff.1 (List.mem_reverse.1 hv)) hs
    omega

/-! ## The entries -/

/-- For each kind, the most uses from the usage on. -/
def most (budgets arities : List Nat) (u : Usage) : List Nat :=
  (table budgets arities).getD u (zero budgets.length)

theorem worstCase_eq_most (budgets arities : List Nat) :
    worstCase budgets arities = most budgets arities (zero budgets.length) := rfl

theorem getElem?_table_eq_most (hu : u.Within budgets) :
    (table budgets arities)[u]? = some (most budgets arities u) := by
  rw [most, Std.TreeMap.getD_eq_getD_getElem?, getElem?_table hu, Option.getD_some]

/-- The greatest of what the affordable kinds make of the entries of their successors. -/
theorem most_eq (hu : u.Within budgets) :
    most budgets arities u = (u.affordable budgets).foldl
      (fun n k => List.zipWith max n
        (usesAt k (arities.getD k 0) (most budgets arities (u.spend k))))
      (zero budgets.length) := by
  have h : some (most budgets arities u) = some _ :=
    (getElem?_table_eq_most hu).symm.trans (getElem?_table hu)
  refine (Option.some.inj h).trans (List.foldl_ext _ _ _ fun n k hk => ?_)
  rw [getElem?_table_eq_most (hu.spend (mem_affordable_iff.1 hk))]

theorem length_usesAt (k arity : Nat) (below : List Nat) :
    (usesAt k arity below).length = below.length := List.length_mapIdx

theorem getD_usesAt {k arity i : Nat} {below : List Nat} (hi : i < below.length) :
    (usesAt k arity below).getD i 0
      = min countLimit ((if i = k then 1 else 0) + arity * below.getD i 0) := by
  simp [usesAt, hi]

theorem length_foldl_zipWith_max {f : Nat → List Nat} {n : Nat} : ∀ {ks : List Nat} {l : List Nat},
    l.length = n → (∀ k ∈ ks, (f k).length = n) →
    (ks.foldl (fun l k => List.zipWith max l (f k)) l).length = n
  | [], _, hl, _ => hl
  | k :: ks, l, hl, hf => by
    rw [List.foldl_cons]
    refine length_foldl_zipWith_max ?_ fun j hj => hf j (List.mem_cons_of_mem k hj)
    rw [List.length_zipWith, hl, hf k (List.mem_cons_self ..), Nat.min_self]

theorem length_most (hu : u.Within budgets) :
    (most budgets arities u).length = budgets.length := by
  -- by the uses that the budgets leave
  induction hd : total budgets - u.total using Nat.strongRecOn generalizing u with
  | _ d ih =>
    rw [most_eq hu]
    refine length_foldl_zipWith_max (length_zero _) fun k hk => ?_
    have hk := mem_affordable_iff.1 hk
    have htotal := total_spend u (hu.1 ▸ lt_length_of_affords hk)
    have hle := (hu.spend hk).total_le
    rw [length_usesAt]
    exact ih _ (by omega) (hu.spend hk) rfl

theorem getD_zipWith_max {l m : List Nat} (h : l.length = m.length) (i : Nat) :
    (List.zipWith max l m).getD i 0 = max (l.getD i 0) (m.getD i 0) := by
  by_cases hi : i < l.length
  · simp only [List.getD_eq_getElem?_getD, List.getElem?_zipWith, hi, getElem?_pos, h ▸ hi,
      Option.getD_some]
  · have hl := List.getElem?_eq_none (Nat.not_lt.1 hi)
    have hm := List.getElem?_eq_none (h ▸ Nat.not_lt.1 hi)
    simp only [List.getD_eq_getElem?_getD, List.getElem?_zipWith, hl, hm, Option.getD_none,
      Nat.max_self]

theorem getD_foldl_zipWith_max {f : Nat → List Nat} {n i : Nat} : ∀ {ks : List Nat} {l : List Nat},
    l.length = n → (∀ k ∈ ks, (f k).length = n) →
    (ks.foldl (fun l k => List.zipWith max l (f k)) l).getD i 0
      = ks.foldl (fun m k => max m ((f k).getD i 0)) (l.getD i 0)
  | [], _, _, _ => rfl
  | k :: ks, l, hl, hf => by
    have hk := hf k (List.mem_cons_self ..)
    rw [List.foldl_cons, List.foldl_cons, ← getD_zipWith_max (hl.trans hk.symm)]
    refine getD_foldl_zipWith_max ?_ fun j hj => hf j (List.mem_cons_of_mem k hj)
    rw [List.length_zipWith, hl, hk, Nat.min_self]

/-- What a solution from the usage on can make of the kind `i` when its root is of the kind `k`. -/
def mostAt (budgets arities : List Nat) (u : Usage) (i k : Nat) : Nat :=
  min countLimit
    ((if i = k then 1 else 0) + arities.getD k 0 * (most budgets arities (u.spend k)).getD i 0)

theorem getD_most_eq {i : Nat} (hu : u.Within budgets) (hi : i < budgets.length) :
    (most budgets arities u).getD i 0
      = (u.affordable budgets).foldl (fun m k => max m (mostAt budgets arities u i k)) 0 := by
  have hlen : ∀ k ∈ u.affordable budgets,
      (most budgets arities (u.spend k)).length = budgets.length := fun k hk =>
    length_most (hu.spend (mem_affordable_iff.1 hk))
  rw [most_eq hu, getD_foldl_zipWith_max (length_zero _), getD_zero]
  · exact List.foldl_ext _ _ _ fun m k hk => by rw [getD_usesAt (hlen k hk ▸ hi), mostAt]
  · exact fun k hk => (length_usesAt ..).trans (hlen k hk)

theorem le_foldl_max {f : Nat → Nat} : ∀ {ks : List Nat} {m : Nat},
    m ≤ ks.foldl (fun m k => max m (f k)) m
      ∧ ∀ k ∈ ks, f k ≤ ks.foldl (fun m k => max m (f k)) m
  | [], m => ⟨Nat.le_refl m, fun _ h => absurd h List.not_mem_nil⟩
  | j :: ks, m => by
    obtain ⟨hm, hks⟩ : max m (f j) ≤ ks.foldl (fun m k => max m (f k)) (max m (f j)) ∧ _ :=
      le_foldl_max
    refine ⟨Nat.le_trans (Nat.le_max_left ..) hm, fun k hk => ?_⟩
    rcases List.mem_cons.1 hk with rfl | hk
    · exact Nat.le_trans (Nat.le_max_right ..) hm
    · exact hks k hk

theorem mostAt_le_most {i k : Nat} (hu : u.Within budgets) (hk : u.Affords budgets k)
    (hi : i < budgets.length) :
    mostAt budgets arities u i k ≤ (most budgets arities u).getD i 0 := by
  rw [getD_most_eq hu hi]
  exact le_foldl_max.2 k (mem_affordable_iff.2 hk)

/-- A tree that keeps the budgets has at most as many uses of a kind as the table tells. A count at
the limit tells nothing. -/
theorem min_uses_le_most {α : Type} {t : Tree α} {i : Nat} (ht : t.OfArity arities)
    (hu : u.Within budgets) (hkeeps : t.Keeps budgets u) (hi : i < budgets.length) :
    min countLimit (t.uses i) ≤ (most budgets arities u).getD i 0 := by
  induction t generalizing u with
  | leaf a => simp [Tree.uses]
  | node k ts ih =>
    cases ht with
    | node hlen hts =>
      obtain ⟨hk, hops⟩ := (Tree.keeps_node_iff hu).1 hkeeps
      refine Nat.le_trans ?_ (mostAt_le_most hu hk hi)
      have hop : ∀ t ∈ ts, min countLimit (t.uses i)
          ≤ (most budgets arities (u.spend k)).getD i 0 := fun t ht =>
        ih t ht (hts t ht) (hu.spend hk) (hops t ht)
      rw [mostAt, Tree.uses, ← hlen]
      generalize (most budgets arities (u.spend k)).getD i 0 = n at hop
      by_cases hn : n < countLimit
      · -- below the limit the counts are exact
        have hall : Tree.usesAll i ts ≤ ts.length * n :=
          Tree.usesAll_le fun t ht => by have := hop t ht; omega
        omega
      · cases ts with
        | nil => simp [Tree.usesAll]
        | cons t ts =>
          have : countLimit ≤ (t :: ts).length * n :=
            Nat.le_trans (Nat.not_lt.1 hn) (Nat.le_mul_of_pos_left n (Nat.succ_pos _))
          omega

end Usage

end BitSynth.Sygus
