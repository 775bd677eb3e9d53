import BitSynth.Proofs.Usage.Reachable

/-!
# The search with a queue

A breadth-first search keeps the usages that it has found and not visited yet in a queue. It visits
the first of them, and those of its successors that were never found before wait behind all others.
When such a search begins with a level of `Usage.levels`, the level it has gone through leaves just
the next one in the queue. So it comes to an end, and the order of its visits is that of
`Usage.reachable` (`visits_start_iff`).
-/

namespace BitSynth.Sygus

namespace Usage

variable {budgets : List Nat}

/-- The usages that wait to be visited, and all that were ever found. -/
structure Frontier where
  waiting : List Usage
  found : Std.TreeSet Usage

/-- A usage that was never found before waits behind the others. -/
def Frontier.find (f : Frontier) (u : Usage) : Frontier :=
  if f.found.contains u then f else ⟨f.waiting ++ [u], f.found.insert u⟩

/-- From a frontier the search visits these usages, in this order, and ends. -/
inductive Visits (budgets : List Nat) : Frontier → List Usage → Prop
  | done (found : Std.TreeSet Usage) : Visits budgets ⟨[], found⟩ []
  | visit {u : Usage} {waiting order : List Usage} {found : Std.TreeSet Usage}
      (h : Visits budgets ((u.successors budgets).foldl Frontier.find ⟨waiting, found⟩) order) :
      Visits budgets ⟨u :: waiting, found⟩ (u :: order)

def Frontier.start (budgets : List Nat) : Frontier :=
  ⟨[zero budgets.length], (∅ : Std.TreeSet Usage).insert (zero budgets.length)⟩

variable {us vs waiting order : List Usage} {u : Usage} {found : Std.TreeSet Usage} {d : Nat}

theorem visits_nil_iff : Visits budgets ⟨[], found⟩ order ↔ order = [] := by
  constructor
  · rintro ⟨⟩
    rfl
  · rintro rfl
    exact .done found

theorem visits_cons_iff : Visits budgets ⟨u :: waiting, found⟩ order ↔
    ∃ rest, order = u :: rest ∧
      Visits budgets ((u.successors budgets).foldl Frontier.find ⟨waiting, found⟩) rest := by
  constructor
  · rintro (_ | h)
    exact ⟨_, rfl, h⟩
  · rintro ⟨rest, rfl, h⟩
    exact .visit h

/-! ## What is found -/

/-- The set with what is new among the usages. -/
def remember (found : Std.TreeSet Usage) (us : List Usage) : Std.TreeSet Usage :=
  us.foldl (fun found u => if found.contains u then found else found.insert u) found

theorem mem_insert_iff {v : Usage} : v ∈ found.insert u ↔ v = u ∨ v ∈ found := by
  rw [Std.TreeSet.mem_insert, Std.LawfulEqCmp.compare_eq_iff_eq, eq_comm]

theorem mem_remember_iff {v : Usage} : v ∈ remember found us ↔ v ∈ us ∨ v ∈ found := by
  induction us generalizing found with
  | nil => simp [remember]
  | cons u us ih =>
    rw [remember, List.foldl_cons, ← remember, ih, List.mem_cons]
    split_ifs with hu
    · rw [Std.TreeSet.contains_iff_mem] at hu
      constructor
      · exact Or.imp_left .inr
      · rintro ((rfl | h) | h)
        · exact .inr hu
        · exact .inl h
        · exact .inr h
    · rw [mem_insert_iff, or_left_comm, or_assoc]

theorem foldl_find : ∀ {us waiting : List Usage} {found : Std.TreeSet Usage},
    us.foldl Frontier.find ⟨waiting, found⟩
      = ⟨waiting ++ distinct.go found us, remember found us⟩
  | [], waiting, found => by simp [distinct.go, remember]
  | u :: us, waiting, found => by
    rw [List.foldl_cons, remember, List.foldl_cons, ← remember, Frontier.find, distinct.go]
    split_ifs
    · exact foldl_find
    · rw [foldl_find, List.append_assoc, List.singleton_append]

theorem distinct_go_append : ∀ {us vs : List Usage} {found : Std.TreeSet Usage},
    distinct.go found (us ++ vs) = distinct.go found us ++ distinct.go (remember found us) vs
  | [], vs, found => rfl
  | u :: us, vs, found => by
    rw [List.cons_append, distinct.go, distinct.go, remember, List.foldl_cons, ← remember]
    split_ifs
    · exact distinct_go_append
    · rw [distinct_go_append, List.cons_append]

/-- Only what was found of the usages themselves decides which of them are new. -/
theorem distinct_go_congr : ∀ {us : List Usage} {s t : Std.TreeSet Usage},
    (∀ u ∈ us, u ∈ s ↔ u ∈ t) → distinct.go s us = distinct.go t us
  | [], s, t, _ => rfl
  | u :: us, s, t, h => by
    have hu : s.contains u = t.contains u := by
      rw [Bool.eq_iff_iff, Std.TreeSet.contains_iff_mem, Std.TreeSet.contains_iff_mem]
      exact h u (List.mem_cons_self ..)
    have hus : ∀ v ∈ us, v ∈ s ↔ v ∈ t := fun v hv => h v (List.mem_cons_of_mem u hv)
    rw [distinct.go, distinct.go, hu]
    split_ifs
    · exact distinct_go_congr hus
    · refine congrArg (u :: ·) (distinct_go_congr fun v hv => ?_)
      rw [mem_insert_iff, mem_insert_iff, hus v hv]

/-! ## A level at a time -/

/-- Usages at the front of the queue are visited first, and leave behind the others what is new of
their successors. -/
theorem visits_append_iff : Visits budgets ⟨us ++ waiting, found⟩ order ↔
    ∃ rest, order = us ++ rest ∧
      Visits budgets ⟨waiting ++ distinct.go found (us.flatMap (successors budgets)),
        remember found (us.flatMap (successors budgets))⟩ rest := by
  induction us generalizing waiting found order with
  | nil => simp [distinct.go, remember]
  | cons u us ih =>
    have hremember : remember found ((u :: us).flatMap (successors budgets))
        = remember (remember found (u.successors budgets)) (us.flatMap (successors budgets)) := by
      rw [List.flatMap_cons, remember, List.foldl_append, ← remember, ← remember]
    rw [List.cons_append, visits_cons_iff, foldl_find, List.append_assoc]
    simp only [ih]
    rw [hremember, List.flatMap_cons, distinct_go_append, ← List.append_assoc]
    constructor
    · rintro ⟨_, rfl, rest, rfl, h⟩
      exact ⟨rest, rfl, h⟩
    · rintro ⟨rest, rfl, h⟩
      exact ⟨_, rfl, rest, rfl, h⟩

/-- All usages up to a level were found, and no others. -/
def Explored (budgets : List Nat) (d : Nat) (found : Std.TreeSet Usage) : Prop :=
  ∀ u, u ∈ found ↔ u.Within budgets ∧ u.total ≤ d

theorem explored_start (budgets : List Nat) :
    Explored budgets 0 (Frontier.start budgets).found := fun u => by
  have hlevel : u ∈ level budgets 0 ↔ u.Within budgets ∧ u.total = 0 := mem_level_iff
  rw [Nat.le_zero, ← hlevel, level, List.mem_singleton]
  exact mem_insert_iff.trans (or_iff_left Std.TreeSet.not_mem_emptyc)

theorem mem_flatMap_successors_iff :
    u ∈ (level budgets d).flatMap (successors budgets) ↔ u ∈ level budgets (d + 1) :=
  mem_distinct_iff.symm

theorem Explored.next (h : Explored budgets d found) :
    Explored budgets (d + 1) (remember found ((level budgets d).flatMap (successors budgets))) :=
  fun u => by
    rw [mem_remember_iff, mem_flatMap_successors_iff, mem_level_iff, h, ← and_or_left,
      Nat.le_succ_iff, or_comm]

/-- The next level was not found before. -/
theorem Explored.distinct_go_eq (h : Explored budgets d found) :
    distinct.go found ((level budgets d).flatMap (successors budgets)) = level budgets (d + 1) := by
  refine distinct_go_congr fun u hu => iff_of_false (fun hfound => ?_) Std.TreeSet.not_mem_emptyc
  have htotal := (mem_level_iff.1 (mem_flatMap_successors_iff.1 hu)).2
  have := ((h u).1 hfound).2
  omega

theorem level_eq_nil (h : total budgets < d) : level budgets d = [] := by
  refine List.eq_nil_iff_forall_not_mem.2 fun u hu => ?_
  obtain ⟨hu, htotal⟩ := mem_level_iff.1 hu
  have := hu.total_le
  omega

/-- The search goes through a level and has the next one in its queue. -/
theorem Explored.visits_iff (h : Explored budgets d found) :
    Visits budgets ⟨level budgets d, found⟩ order ↔ ∃ rest, order = level budgets d ++ rest ∧
      Visits budgets ⟨level budgets (d + 1),
        remember found ((level budgets d).flatMap (successors budgets))⟩ rest := by
  have happend : Visits budgets ⟨level budgets d ++ [], found⟩ order ↔ _ := visits_append_iff
  rwa [List.append_nil, List.nil_append, h.distinct_go_eq] at happend

theorem visits_level_iff : ∀ (depth : Nat) {d : Nat} {found : Std.TreeSet Usage},
    Explored budgets d found → total budgets = d + depth → ∀ order,
      Visits budgets ⟨level budgets d, found⟩ order ↔
        order = (levels budgets depth (level budgets d)).flatten
  | 0, d, found, h, hd, order => by
    have hlast : level budgets (d + 1) = [] := level_eq_nil (by omega)
    rw [h.visits_iff, hlast]
    simp [visits_nil_iff, levels]
  | depth + 1, d, found, h, hd, order => by
    have ih := visits_level_iff depth h.next (by omega)
    rw [h.visits_iff]
    simp only [ih, exists_eq_right]
    rw [levels, List.flatten_cons, level]

/-- The search with a queue ends, and visits the usages level by level. -/
theorem visits_start_iff :
    Visits budgets (Frontier.start budgets) order ↔ order = reachable budgets :=
  visits_level_iff (total budgets) (explored_start budgets) (Nat.zero_add _).symm order

end Usage

end BitSynth.Sygus
