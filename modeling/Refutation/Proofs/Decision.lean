import Refutation.Proofs.Bookkeeping
import Refutation.Proofs.Coverage

/-!
# Runs that keep nothing

Below the limit one no resolvent is kept, for the empty one ends the run and any other has too many
literals.  So the store stays as it is, and each turn ends when the index has come to the end of it.
Two clauses give the empty one only if each is a single literal.  The run is a decision whether there
are two such clauses that contradict one another.

## Main results

* `Run.exists_next_turn`, `Run.exists_end` — a turn ends, and so does the run, if the store keeps
  its size.
* `Run.decides_contradicts` — **below the limit one a run decides whether two units contradict one
  another**.
-/

namespace Refutation
namespace Run

variable {r : Run} {n : Nat}

/-! ### The end of a run -/

/-- A step ends the run, or goes on in the store, or begins the turn of the next clause. -/
theorem step_progress (hrun : r.status = .running) :
    r.step.status ≠ .running ∨
      (r.step.cursor = r.cursor ∧ r.step.index = r.index + 1 ∧ r.index < r.state.store.size) ∨
      (r.step.cursor = r.cursor + 1 ∧ r.cursor + 1 < r.state.store.size) := by
  have hnext := r.next_step
  generalize r.step = t at hnext
  cases hnext with
  | resolve hact hsettles =>
    cases hsettles with
    | stored =>
      exact Or.inr (Or.inl ⟨rfl, rfl, Store.lt_size_of_get? (action_eq_resolve_iff.1 hact).2.2.2.1⟩)
    | failed =>
      refine Or.inl fun hfail => ?_
      cases hfail
  | skip _ _ _ hd => exact Or.inr (Or.inl ⟨rfl, rfl, Store.lt_size_of_get? hd⟩)
  | advance _ hmore => exact Or.inr (Or.inr ⟨rfl, hmore⟩)
  | stop =>
    refine Or.inl fun hstop => ?_
    cases hstop
  | rest hend => exact absurd hrun hend

/-- A turn ends if the store keeps its size. -/
theorem exists_next_turn (hsize : ∀ k, (steps k r).state.store.size = n) :
    ∃ k, (steps k r).status ≠ .running ∨
      ((steps k r).cursor = r.cursor + 1 ∧ r.cursor + 1 < n) := by
  -- the index comes nearer to the end of the store
  induction hleft : n - r.index using Nat.strong_induction_on generalizing r with
  | h left ih =>
    by_cases hrun : r.status = .running
    · have hstart : r.state.store.size = n := hsize 0
      rcases step_progress hrun with hend | ⟨hcursor, hindex, hlt⟩ | ⟨hcursor, hmore⟩
      · exact ⟨1, Or.inl hend⟩
      · obtain ⟨k, hk⟩ := ih (n - r.step.index) (by omega) (fun k => hsize (k + 1)) rfl
        rw [hcursor] at hk
        exact ⟨k + 1, hk⟩
      · exact ⟨1, Or.inr ⟨hcursor, hstart ▸ hmore⟩⟩
    · exact ⟨0, Or.inl hrun⟩

/-- A run ends if the store keeps its size. -/
theorem exists_end (hsize : ∀ k, (steps k r).state.store.size = n) :
    ∃ k, (steps k r).status ≠ .running := by
  induction hleft : n - r.cursor using Nat.strong_induction_on generalizing r with
  | h left ih =>
    obtain ⟨k, hend | ⟨hcursor, hmore⟩⟩ := exists_next_turn hsize
    · exact ⟨k, hend⟩
    · have hlater : ∀ k', (steps k' (steps k r)).state.store.size = n := by
        intro k'
        rw [← steps_add, hsize]
      obtain ⟨k', hend⟩ := ih (n - (steps k r).cursor) (by omega) hlater rfl
      exact ⟨k + k', by rwa [steps_add]⟩

end Run

/-! ### The limit one -/

/-- Nothing is added below the limit one. -/
theorem Saturation.Books.eq_nil {base s : Saturation} {added : List Clause}
    (h : base.Books added s) (hlimit : base.limit = .below 1) : added = [] := by
  rw [List.eq_nil_iff_forall_not_mem]
  intro x hx
  have hne := h.isEmpty x hx
  have hadmits := h.admits x hx
  rw [hlimit, Limit.admits, decide_eq_true_eq, Nat.lt_one_iff] at hadmits
  rw [Clause.isEmpty, List.isEmpty_iff_length_eq_zero.2 hadmits] at hne
  cases hne

namespace Run

variable {s : Saturation}

/-- The books stay as they are below the limit one. -/
theorem books_below_one (hlimit : s.limit = .below 1) (hlast : s.lastId ≤ maxId)
    (hids : ∀ c ∈ s.store.toList, c.id ≤ s.lastId) (n : Nat) :
    s.Books [] (steps n (start s)).state ∧
      (steps n (start s)).status ≠ .failed .notIncreasing := by
  obtain ⟨⟨added, hbooks⟩, hfine⟩ :=
    (Saturation.Reaches.start.steps n).exists_books hlast hids
  have hnil := hbooks.eq_nil hlimit
  subst hnil
  exact ⟨hbooks, hfine⟩

/-- A run comes to an outcome if the store keeps its size and nothing is at fault. -/
theorem exists_yields {r : Run} (hsize : ∀ k, (steps k r).state.store.size = n)
    (hfine : ∀ k fault, (steps k r).status ≠ .failed fault) : ∃ o, r.Yields o := by
  obtain ⟨k, hend⟩ := exists_end hsize
  cases hstatus : (steps k r).status with
  | running => exact absurd hstatus hend
  | finished o => exact ⟨o, k, hstatus⟩
  | failed fault => exact absurd hstatus (hfine k fault)

/-- Clauses are found unsatisfiable by two of them that contradict one another. -/
theorem exists_contradicts (h : (start s).Yields .unsatisfiable) :
    ∃ n, ∃ c ∈ (steps n (start s)).state.store.toList,
      ∃ d ∈ (steps n (start s)).state.store.toList, c.id ≠ d.id ∧ c.Contradicts d := by
  obtain ⟨n, hrun, hend⟩ := exists_step_of_yields (r := start s) rfl h
  obtain ⟨c, d, hact, hrefuted⟩ := (next_step _).exists_refuted hrun hend
  obtain ⟨hc, hd⟩ := mem_of_action_eq_resolve hact
  exact ⟨n, c, hc, d, hd, (action_eq_resolve_iff.1 hact).2.2.2.2,
    Clause.contradicts_of_refuted hrefuted⟩

/-- Two clauses that contradict one another do not meet in a run that saturates. -/
theorem not_contradicts_of_meets {r : Run} {c d : Clause}
    (h : (steps n r).status = .finished .satisfiable) (hmeets : r.Meets c d) :
    ¬ c.Contradicts d := by
  obtain ⟨k, hact⟩ := hmeets
  have hgoes := (goesOn_of_satisfiable (finished_of_steps h k) hact).refuted
  intro hcontra
  rw [hcontra.refuted] at hgoes
  cases hgoes

/-- **Below the limit one a run decides whether two units contradict one another.**  It ends, if the
numbers do not run out, and leaves the store as it was.  Its answer is that the clauses are
unsatisfiable exactly if there are two such clauses, in whatever order they are taken. -/
theorem decides_contradicts {cs : List Clause} {lastId : Nat}
    (hnodup : (cs.map Clause.id).Nodup) (hids : ∀ c ∈ cs, c.id ≤ lastId) (hlast : lastId ≤ maxId)
    (hroom : ∀ n, (steps n (start (.initial cs lastId (.below 1)))).status ≠ .failed .exhausted) :
    (∀ n, (steps n (start (.initial cs lastId (.below 1)))).state.store.toList = cs ∧
      (steps n (start (.initial cs lastId (.below 1)))).state.kept = 0) ∧
    (∃ o, (start (.initial cs lastId (.below 1))).Yields o ∧
      (o = .unsatisfiable ↔ ∃ c ∈ cs, ∃ d ∈ cs, c.id ≠ d.id ∧ c.Contradicts d)) ∧
    ∀ c d : Clause, c.Contradicts d ↔ d.Contradicts c := by
  have hbooks := books_below_one (s := .initial cs lastId (.below 1)) rfl hlast hids
  have hstore : ∀ n,
      (steps n (start (.initial cs lastId (.below 1)))).state.store.toList = cs := by
    intro n
    rw [(hbooks n).1.toList, List.append_nil]
    rfl
  have hsize : ∀ n, (steps n (start (.initial cs lastId (.below 1)))).state.store.size =
      cs.length := fun n => congrArg List.length (hstore n)
  refine ⟨fun n => ⟨hstore n, ?_⟩, ?_, fun c d => ⟨.symm, .symm⟩⟩
  · rw [(hbooks n).1.kept, hsize]
    show 0 + (cs.length - cs.length) = 0
    rw [Nat.sub_self]
  · have hfine : ∀ k fault,
        (steps k (start (.initial cs lastId (.below 1)))).status ≠ .failed fault := by
      intro k fault
      cases fault with
      | exhausted => exact hroom k
      | notIncreasing => exact (hbooks k).2
    obtain ⟨o, n, ho⟩ := exists_yields hsize hfine
    refine ⟨o, ⟨n, ho⟩, ?_⟩
    constructor
    · rintro rfl
      obtain ⟨k, hcontra⟩ := exists_contradicts ⟨n, ho⟩
      rwa [hstore] at hcontra
    · rintro ⟨c, hc, d, hd, hid, hcontra⟩
      cases o with
      | unsatisfiable => rfl
      | satisfiable =>
        -- nothing has been added, so all clauses have met
        have hmeets := (forall_meets_or_meets_iff ho ⟨hnodup, hids⟩).2 (hsize n)
        rw [hstore] at hmeets
        rcases hmeets c hc d hd hid with hmeets | hmeets
        · exact absurd hcontra (not_contradicts_of_meets ho hmeets)
        · exact absurd hcontra.symm (not_contradicts_of_meets ho hmeets)

/-- The first clause has too many literals to contradict one of the others, which do contradict one
another. -/
theorem decides_contradicts_three :
    let cs : List Clause := [⟨4, [⟨true, "p", [.const "a"]⟩, ⟨true, "q", []⟩]⟩,
      ⟨2, [⟨false, "p", [.var ⟨"X", 2⟩, .const "b"]⟩]⟩,
      ⟨7, [⟨true, "p", [.const "a", .var ⟨"X", 7⟩]⟩]⟩]
    (cs.map Clause.id).Nodup ∧ (∀ c ∈ cs, c.id ≤ 7) ∧ 7 ≤ maxId ∧
      (∀ n, (steps n (start (.initial cs 7 (.below 1)))).status ≠ .failed .exhausted) ∧
      (start (.initial cs 7 (.below 1))).Yields .unsatisfiable ∧
      ∃ c ∈ cs, ∃ d ∈ cs, c.id ≠ d.id ∧ c.Contradicts d := by
  intro cs
  have hyields : (start (.initial cs 7 (.below 1))).Yields .unsatisfiable := ⟨20, by decide +kernel⟩
  have hroom := fun n => hyields.ne_failed n .exhausted
  obtain ⟨-, ⟨o, ho, hiff⟩, -⟩ := @decides_contradicts cs 7 (by decide) (by decide) (by decide) hroom
  exact ⟨by decide, by decide, by decide, hroom, hyields, hiff.1 (ho.unique hyields)⟩

end Run
end Refutation
