import Refutation.Proofs.Course

/-!
# The books of a saturation

Clauses are added to a store one by one, each with a number above all that are in use, and each is
counted.  Numbers are used up by resolvents that are not kept as well, so the clauses added do not
follow one another without gaps; but what is added lies above what was there, and the store never
refuses it.  All of this outlasts the end of a run and holds when the next one begins where the last
one ended.

## Main definitions

* `Saturation.Books` — which clauses have been added to the first ones, and that they are in order.

## Main results

* `Saturation.Books.keepAll` — clauses with new numbers are all stored, and the books stay in order.
* `Run.books_step` — a step keeps the books in order.
* `Saturation.Reaches.books` — **the books are in order at every step of any number of runs**.
-/

namespace Refutation

/-- The clauses `added` have been stored after those of `base`, under numbers above theirs. -/
structure Saturation.Books (base : Saturation) (added : List Clause) (s : Saturation) : Prop where
  /-- The clauses of `base` stand first and unchanged. -/
  toList : s.store.toList = base.store.toList ++ added
  limit : s.limit = base.limit
  /-- Every number fits a word. -/
  lastId_le : s.lastId ≤ maxId
  /-- No clause has a number that has not been issued. -/
  le_lastId : ∀ c ∈ s.store.toList, c.id ≤ s.lastId
  pairwise : added.Pairwise fun x y => x.id < y.id
  lt : ∀ x ∈ added, ∀ c ∈ base.store.toList, c.id < x.id
  isEmpty : ∀ x ∈ added, x.isEmpty = false
  admits : ∀ x ∈ added, base.limit.admits x.size = true
  /-- Each clause added has been counted. -/
  kept : s.kept = base.kept + (s.store.size - base.store.size)

namespace Saturation.Books

variable {base s : Saturation} {added : List Clause} {c : Clause}

/-- Nothing has been added at the start. -/
theorem refl (hlast : s.lastId ≤ maxId) (hids : ∀ c ∈ s.store.toList, c.id ≤ s.lastId) :
    s.Books [] s where
  toList := (List.append_nil _).symm
  limit := rfl
  lastId_le := hlast
  le_lastId := hids
  pairwise := List.Pairwise.nil
  lt := fun _ hx => by cases hx
  isEmpty := fun _ hx => by cases hx
  admits := fun _ hx => by cases hx
  kept := by rw [Nat.sub_self, Nat.add_zero]

theorem size_le (h : base.Books added s) : base.store.size ≤ s.store.size := by
  rw [← Store.length_toList, ← Store.length_toList, h.toList, List.length_append]
  exact Nat.le_add_right _ _

/-- Issuing numbers leaves the books in order. -/
theorem issue (h : base.Books added s) {id : Nat} (hle : s.lastId ≤ id) (hmax : id ≤ maxId) :
    base.Books added { s with lastId := id } :=
  { h with
    lastId_le := hmax
    le_lastId := fun c hc => (h.le_lastId c hc).trans hle }

/-- A clause with a number above all others is not refused. -/
theorem exists_push? (hlt : ∀ d ∈ s.store.toList, d.id < c.id) :
    ∃ store, s.store.push? c = some store := by
  cases hpush : s.store.push? c with
  | some store => exact ⟨store, rfl⟩
  | none =>
    obtain ⟨last, hlast, hle⟩ := Store.push?_eq_none_iff.1 hpush
    exact absurd (hlt last (List.mem_of_getLast? hlast)) (Nat.not_lt.2 hle)

/-- Storing a clause and counting it keeps the books in order. -/
theorem push (h : base.Books added s) {store : Store} (hpush : s.store.push? c = some store)
    (hlt : ∀ d ∈ s.store.toList, d.id < c.id) (hle : c.id ≤ s.lastId)
    (hempty : c.isEmpty = false) (hadmits : base.limit.admits c.size = true) :
    base.Books (added ++ [c]) { s with store := store, kept := s.kept + 1 } where
  toList := by
    rw [Store.toList_of_push? hpush, h.toList, List.append_assoc]
  limit := h.limit
  lastId_le := h.lastId_le
  le_lastId := by
    intro d hd
    rw [Store.toList_of_push? hpush] at hd
    rcases List.mem_append.1 hd with hd | hd
    · exact h.le_lastId d hd
    · rw [List.mem_singleton.1 hd]
      exact hle
  pairwise := by
    refine List.pairwise_append.2 ⟨h.pairwise, List.pairwise_singleton _ _, ?_⟩
    intro x hx y hy
    rw [List.mem_singleton.1 hy]
    refine hlt x ?_
    rw [h.toList]
    exact List.mem_append_right _ hx
  lt := by
    intro x hx d hd
    rcases List.mem_append.1 hx with hx | hx
    · exact h.lt x hx d hd
    · rw [List.mem_singleton.1 hx]
      refine hlt d ?_
      rw [h.toList]
      exact List.mem_append_left _ hd
  isEmpty := by
    intro x hx
    rcases List.mem_append.1 hx with hx | hx
    · exact h.isEmpty x hx
    · rw [List.mem_singleton.1 hx]
      exact hempty
  admits := by
    intro x hx
    rcases List.mem_append.1 hx with hx | hx
    · exact h.admits x hx
    · rw [List.mem_singleton.1 hx]
      exact hadmits
  kept := by
    have hsize := congrArg List.length (Store.toList_of_push? hpush)
    rw [List.length_append, List.length_singleton, Store.length_toList,
      Store.length_toList] at hsize
    show s.kept + 1 = base.kept + (store.size - base.store.size)
    rw [h.kept, hsize, Nat.sub_add_comm h.size_le, Nat.add_assoc]

/-- Clauses with new and increasing numbers are all stored, and the books stay in order with every
one of them. -/
theorem keepAll {cs : List Clause} (h : base.Books added s)
    (hinc : cs.Pairwise fun x y => x.id < y.id)
    (hlt : ∀ x ∈ cs, ∀ d ∈ s.store.toList, d.id < x.id) (hle : ∀ x ∈ cs, x.id ≤ s.lastId)
    (hempty : ∀ x ∈ cs, x.isEmpty = false)
    (hadmits : ∀ x ∈ cs, base.limit.admits x.size = true) :
    (s.keepAll cs).2 = true ∧ base.Books (added ++ cs) (s.keepAll cs).1 := by
  induction cs generalizing s added with
  | nil =>
    rw [List.append_nil]
    exact ⟨rfl, h⟩
  | cons c cs ih =>
    have hmem : ∀ {x : Clause}, x ∈ cs → x ∈ c :: cs := List.mem_cons_of_mem c
    have hnew := hlt c List.mem_cons_self
    obtain ⟨hfirst, hrest⟩ := List.pairwise_cons.1 hinc
    obtain ⟨store, hpush⟩ := exists_push? hnew
    rw [Saturation.keepAll, hpush, List.append_cons]
    refine ih (h.push hpush hnew (hle c List.mem_cons_self) (hempty c List.mem_cons_self)
      (hadmits c List.mem_cons_self)) hrest ?_ (fun x hx => hle x (hmem hx))
      (fun x hx => hempty x (hmem hx)) fun x hx => hadmits x (hmem hx)
    -- the clause just stored has a lower number than those that follow
    intro x hx d hd
    rw [Store.toList_of_push? hpush] at hd
    rcases List.mem_append.1 hd with hd | hd
    · exact hlt x (hmem hx) d hd
    · rw [List.mem_singleton.1 hd]
      exact hfirst x hx

/-- What two clauses of the store give is stored, however much of it. -/
theorem keepAll_resolve (h : base.Books added s) (c d : Clause) {pre : List Clause}
    (hpre : pre <+: (c.resolve s.limit s.lastId d).kept)
    (hmax : (c.resolve s.limit s.lastId d).lastId ≤ maxId) :
    ({ s with lastId := (c.resolve s.limit s.lastId d).lastId }.keepAll pre).2 = true ∧
      base.Books (added ++ pre)
        ({ s with lastId := (c.resolve s.limit s.lastId d).lastId }.keepAll pre).1 := by
  have hkept : ∀ x ∈ pre, s.lastId < x.id ∧ x.id ≤ (c.resolve s.limit s.lastId d).lastId ∧
      x.isEmpty = false ∧ s.limit.admits x.size = true :=
    fun x hx => (Clause.resolventOn_of_mem_kept (hpre.subset hx)).2
  have hissue := h.issue (Clause.le_lastId_resolveOn s.limit c d s.lastId _) hmax
  refine hissue.keepAll ?_ ?_ (fun x hx => (hkept x hx).2.1) (fun x hx => (hkept x hx).2.2.1) ?_
  · exact (Clause.pairwise_kept_resolveOn s.limit c d s.lastId _).sublist hpre.sublist
  · intro x hx e he
    exact (h.le_lastId e he).trans_lt (hkept x hx).1
  · intro x hx
    rw [← h.limit]
    exact (hkept x hx).2.2.2

/-- Numbers that are different at the start stay different. -/
theorem nodup_id (h : base.Books added s) (hnodup : (base.store.toList.map Clause.id).Nodup) :
    (s.store.toList.map Clause.id).Nodup := by
  rw [h.toList, List.map_append, List.nodup_append]
  refine ⟨hnodup, (List.pairwise_map.2 h.pairwise).imp Nat.ne_of_lt, ?_⟩
  intro a ha b hb
  obtain ⟨c, hc, rfl⟩ := List.mem_map.1 ha
  obtain ⟨x, hx, rfl⟩ := List.mem_map.1 hb
  exact Nat.ne_of_lt (h.lt x hx c hc)

end Saturation.Books

/-! ### Steps and runs -/

namespace Run

variable {r : Run} {base : Saturation} {added : List Clause}

/-- Taking in a pair keeps the books in order, and no clause is refused. -/
theorem books_settle (h : base.Books added r.state) (c d : Clause) :
    (∃ added, base.Books added (r.settle (c.resolve r.state.limit r.state.lastId d)).state) ∧
      (r.settle (c.resolve r.state.limit r.state.lastId d)).status ≠ .failed .notIncreasing := by
  unfold settle
  split
  · -- the numbers have run out, and nothing is stored
    refine ⟨⟨added, h.issue h.lastId_le (Nat.le_refl maxId)⟩, ?_⟩
    intro hfail
    cases hfail
  · next hmax =>
    obtain ⟨hall, hbooks⟩ := h.keepAll_resolve c d (List.prefix_refl _) (Nat.le_of_not_lt hmax)
    generalize Saturation.keepAll _ (c.resolve r.state.limit r.state.lastId d).kept = result
      at hall hbooks ⊢
    obtain ⟨state, all⟩ := result
    dsimp only at hall hbooks ⊢
    subst hall
    refine ⟨⟨_, hbooks⟩, ?_⟩
    intro hfail
    split at hfail
    · next hrefused => cases hrefused
    · split at hfail
      · cases hfail
      · cases hfail

/-- A step keeps the books in order, and no clause is refused. -/
theorem books_step (h : base.Books added r.state) (hfine : r.status ≠ .failed .notIncreasing) :
    (∃ added, base.Books added r.step.state) ∧ r.step.status ≠ .failed .notIncreasing := by
  cases hact : r.action with
  | resolve c d =>
    rw [step_of_resolve hact]
    exact books_settle h c d
  | skip =>
    rw [step, hact]
    exact ⟨⟨added, h⟩, hfine⟩
  | advance =>
    rw [step, hact]
    exact ⟨⟨added, h⟩, hfine⟩
  | stop =>
    rw [step, hact]
    refine ⟨⟨added, h⟩, ?_⟩
    intro hfail
    cases hfail
  | rest =>
    rw [step, hact]
    exact ⟨⟨added, h⟩, hfine⟩

end Run

namespace Saturation

variable {s : Saturation} {r : Run}

/-- Any number of steps leads on. -/
theorem Reaches.steps (h : s.Reaches r) (n : Nat) : s.Reaches (Run.steps n r) := by
  induction n with
  | zero => exact h
  | succ n ih =>
    rw [Run.steps_succ_last]
    exact ih.step

/-- The books are in order whatever is reached, and no clause has been refused. -/
theorem Reaches.exists_books (h : s.Reaches r) (hlast : s.lastId ≤ maxId)
    (hids : ∀ c ∈ s.store.toList, c.id ≤ s.lastId) :
    (∃ added, s.Books added r.state) ∧ r.status ≠ .failed .notIncreasing := by
  have hstart : Status.running ≠ .failed .notIncreasing := by
    intro hfail
    cases hfail
  induction h with
  | start => exact ⟨⟨[], .refl hlast hids⟩, hstart⟩
  | step _ ih =>
    obtain ⟨⟨added, hbooks⟩, hfine⟩ := ih
    exact Run.books_step hbooks hfine
  | again _ _ ih => exact ⟨ih.1, hstart⟩

/-- **The books are in order at every step of any number of runs**, and no clause is refused.  They
are in order within a step as well, with each clause that a pair has given and that is stored. -/
theorem Reaches.books {cs : List Clause} {lastId : Nat} {limit : Limit}
    (h : (initial cs lastId limit).Reaches r) (hlast : lastId ≤ maxId)
    (hids : ∀ c ∈ cs, c.id ≤ lastId) :
    (∃ added, (initial cs lastId limit).Books added r.state) ∧
      r.status ≠ .failed .notIncreasing ∧
      ∀ c d, r.action = .resolve c d →
        (c.resolve r.state.limit r.state.lastId d).lastId ≤ maxId →
        ∀ pre, pre <+: (c.resolve r.state.limit r.state.lastId d).kept →
          ∃ t added, { r.state with
              lastId := (c.resolve r.state.limit r.state.lastId d).lastId }.keepAll pre =
                (t, true) ∧
            (initial cs lastId limit).Books (added ++ pre) t := by
  obtain ⟨⟨added, hbooks⟩, hfine⟩ := h.exists_books hlast hids
  refine ⟨⟨added, hbooks⟩, hfine, ?_⟩
  intro c d _ hmax pre hpre
  obtain ⟨hall, hmore⟩ := hbooks.keepAll_resolve c d hpre hmax
  exact ⟨_, added, Prod.ext rfl hall, hmore⟩

/-- The first run of these clauses has kept two, and the second has kept one more after five
steps. -/
theorem Reaches.books_second_run :
    let s : Saturation := .initial [⟨1, [⟨true, "p", [.const "a"]⟩, ⟨true, "q", []⟩]⟩,
      ⟨2, [⟨false, "p", [.var ⟨"X", 2⟩]⟩]⟩] 2 .unlimited
    let r := Run.steps 5 (Run.start (Run.steps 15 (Run.start s)).state)
    s.Reaches r ∧ r.state.kept = 3 ∧ (∃ added, s.Books added r.state) ∧
      r.status ≠ .failed .notIncreasing := by
  intro s r
  have hreach : s.Reaches r :=
    (Reaches.again (Reaches.start.steps 15) (o := .satisfiable) (by decide +kernel)).steps 5
  obtain ⟨hbooks, hfine, -⟩ := hreach.books (by decide) (by decide)
  exact ⟨hreach, by decide +kernel, hbooks, hfine⟩

end Saturation
end Refutation
