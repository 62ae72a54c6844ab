import Refutation.Proofs.Resolving
import Refutation.Saturation

/-!
# The course of a run

Everything a single step can do is said once, as the relation `Run.Next`, and what holds all along a
run is read off from it.  The store only grows, the limit stays, and a run that has ended stays as
it is.

## Main definitions

* `Run.Settles` — what taking in a pair can lead to.
* `Run.Next` — what a step can lead to.
* `Run.Keeps` — what a step has to store.

## Main results

* `Run.next_step` — a step leads to nothing else.
* `Run.isPrefix_toList_steps` — clauses stay where they were stored.
* `Run.Next.exists_refuted` — the answer that clauses are unsatisfiable comes from a pair that was
  refuted.
-/

namespace Refutation

/-! ### Storing clauses -/

namespace Store

theorem get?_eq_none_iff {s : Store} {i : Nat} : s.get? i = none ↔ s.size ≤ i :=
  Array.getElem?_eq_none_iff

theorem exists_get?_of_lt {s : Store} {i : Nat} (h : i < s.size) : ∃ c, s.get? i = some c :=
  ⟨_, Array.getElem?_eq_getElem h⟩

theorem lt_size_of_get? {s : Store} {i : Nat} {c : Clause} (h : s.get? i = some c) :
    i < s.size := by
  rw [← getElem?_toList] at h
  exact (List.getElem?_eq_some_iff.1 h).1

theorem mem_of_get? {s : Store} {i : Nat} {c : Clause} (h : s.get? i = some c) :
    c ∈ s.toList :=
  List.mem_of_getElem? ((getElem?_toList s i).trans h)

theorem exists_get?_of_mem {s : Store} {c : Clause} (h : c ∈ s.toList) :
    ∃ i, s.get? i = some c := by
  obtain ⟨i, hi⟩ := List.mem_iff_getElem?.1 h
  exact ⟨i, (getElem?_toList s i).symm.trans hi⟩

theorem get?_of_isPrefix {s t : Store} {i : Nat} {c : Clause} (h : s.toList <+: t.toList)
    (hc : s.get? i = some c) : t.get? i = some c := by
  obtain ⟨post, hpost⟩ := h
  rw [← getElem?_toList] at hc ⊢
  rw [← hpost, List.getElem?_append_left (List.getElem?_eq_some_iff.1 hc).1, hc]

end Store

namespace Saturation

/-- Clauses are stored up to the first that is refused. -/
theorem exists_isPrefix_keepAll (s : Saturation) (cs : List Clause) :
    ∃ pre, pre <+: cs ∧ (s.keepAll cs).1.store.toList = s.store.toList ++ pre ∧
      ((s.keepAll cs).2 = true → pre = cs) := by
  induction cs generalizing s with
  | nil => exact ⟨[], List.prefix_refl [], (List.append_nil _).symm, fun _ => rfl⟩
  | cons c cs ih =>
    rw [keepAll]
    cases hpush : s.store.push? c with
    | none =>
      refine ⟨[], List.nil_prefix, (List.append_nil _).symm, ?_⟩
      intro h
      cases h
    | some store =>
      obtain ⟨pre, hpre, hstore, hall⟩ := ih { s with store := store, kept := s.kept + 1 }
      refine ⟨c :: pre, List.cons_prefix_cons.2 ⟨rfl, hpre⟩, ?_, ?_⟩
      · rw [hstore, Store.toList_of_push? hpush, List.append_assoc]
        rfl
      · intro h
        rw [hall h]

@[simp] theorem lastId_keepAll (s : Saturation) (cs : List Clause) :
    (s.keepAll cs).1.lastId = s.lastId := by
  induction cs generalizing s with
  | nil => rfl
  | cons c cs ih =>
    rw [keepAll]
    split
    · rfl
    · exact ih _

@[simp] theorem limit_keepAll (s : Saturation) (cs : List Clause) :
    (s.keepAll cs).1.limit = s.limit := by
  induction cs generalizing s with
  | nil => rfl
  | cons c cs ih =>
    rw [keepAll]
    split
    · rfl
    · exact ih _

end Saturation

namespace Run

/-! ### What a step can do -/

theorem action_eq_resolve_iff {r : Run} {c d : Clause} :
    r.action = .resolve c d ↔
      r.status = .running ∧ r.cursor + 1 < r.state.store.size ∧
        r.state.store.get? r.cursor = some c ∧ r.state.store.get? r.index = some d ∧
        c.id ≠ d.id := by
  unfold action
  constructor
  · intro h
    split at h
    · next hrun =>
      split at h
      · next hmore =>
        split at h
        · next hc hd =>
          split at h
          · cases h
          · next hid =>
            cases h
            refine ⟨hrun, hmore, hc, hd, ?_⟩
            intro heq
            exact hid (beq_iff_eq.2 heq)
        · cases h
      · cases h
    · cases h
  · rintro ⟨hrun, hmore, hc, hd, hid⟩
    rw [hrun]
    dsimp only
    rw [if_pos hmore, hc, hd]
    refine if_neg ?_
    intro hsame
    exact hid (beq_iff_eq.1 hsame)

/-- The two clauses that are resolved are in the store. -/
theorem mem_of_action_eq_resolve {r : Run} {c d : Clause} (h : r.action = .resolve c d) :
    c ∈ r.state.store.toList ∧ d ∈ r.state.store.toList := by
  obtain ⟨-, -, hc, hd, -⟩ := action_eq_resolve_iff.1 h
  exact ⟨Store.mem_of_get? hc, Store.mem_of_get? hd⟩

/-- What taking in a pair can lead to: all clauses are stored, or the run fails on the way. -/
inductive Settles (r : Run) (pair : PairOutcome) : Run → Prop where
  /-- All clauses that the pair gave are stored. -/
  | stored {state : Saturation}
      (hstore : state.store.toList = r.state.store.toList ++ pair.kept)
      (hlastId : state.lastId = pair.lastId) (hlimit : state.limit = r.state.limit) :
      Settles r pair ⟨state, r.cursor, r.index + 1,
        if pair.refuted then .finished .unsatisfiable else .running⟩
  /-- The numbers are at fault, and only some of the clauses are stored. -/
  | failed {state : Saturation} {pre : List Clause} {index : Nat} {fault : IdFault}
      (hpre : pre <+: pair.kept) (hstore : state.store.toList = r.state.store.toList ++ pre)
      (hlimit : state.limit = r.state.limit) :
      Settles r pair ⟨state, r.cursor, index, .failed fault⟩

theorem settles_settle (r : Run) (pair : PairOutcome) : r.Settles pair (r.settle pair) := by
  unfold settle
  split
  · exact .failed List.nil_prefix (List.append_nil _).symm rfl
  · obtain ⟨pre, hpre, hstore, hall⟩ :=
      { r.state with lastId := pair.lastId }.exists_isPrefix_keepAll pair.kept
    -- storing does not touch the number and the limit
    have hlastId := { r.state with lastId := pair.lastId }.lastId_keepAll pair.kept
    have hlimit := { r.state with lastId := pair.lastId }.limit_keepAll pair.kept
    cases hkeep : { r.state with lastId := pair.lastId }.keepAll pair.kept with
    | mk state all =>
      rw [hkeep] at hstore hall hlastId hlimit
      dsimp only at hstore hall hlastId hlimit ⊢
      cases all with
      | false => exact .failed hpre hstore hlimit
      | true =>
        rw [hall rfl] at hstore
        exact .stored hstore hlastId hlimit

theorem step_of_resolve {r : Run} {c d : Clause} (h : r.action = .resolve c d) :
    r.step = r.settle (c.resolve r.state.limit r.state.lastId d) := by
  rw [step, h]

/-- What a step can lead to. -/
inductive Next (r : Run) : Run → Prop where
  /-- Two clauses are resolved. -/
  | resolve {c d : Clause} {t : Run} (hact : r.action = .resolve c d)
      (hsettles : r.Settles (c.resolve r.state.limit r.state.lastId d) t) : Next r t
  /-- The clause at the index is the current one. -/
  | skip {c d : Clause} (hrun : r.status = .running) (hmore : r.cursor + 1 < r.state.store.size)
      (hc : r.state.store.get? r.cursor = some c) (hd : r.state.store.get? r.index = some d)
      (hid : c.id = d.id) : Next r { r with index := r.index + 1 }
  /-- The current clause has met every other. -/
  | advance (hrun : r.status = .running) (hmore : r.cursor + 1 < r.state.store.size)
      (hend : r.state.store.size ≤ r.index) : Next r { r with cursor := r.cursor + 1, index := 0 }
  /-- The current clause would be the last one. -/
  | stop (hrun : r.status = .running) (hlast : r.state.store.size ≤ r.cursor + 1) :
      Next r { r with status := .finished .satisfiable }
  /-- The run has ended. -/
  | rest (hrun : r.status ≠ .running) : Next r r

/-- A step does one of the things it can do. -/
theorem next_step (r : Run) : r.Next r.step := by
  -- the cases are the decisions of `action`, in its order
  by_cases hrun : r.status = .running
  · by_cases hmore : r.cursor + 1 < r.state.store.size
    · obtain ⟨c, hc⟩ := Store.exists_get?_of_lt (Nat.lt_of_succ_lt hmore)
      cases hd : r.state.store.get? r.index with
      | none =>
        have hact : r.action = .advance := by
          rw [action, hrun]
          dsimp only
          rw [if_pos hmore, hc, hd]
        have hstep : r.step = { r with cursor := r.cursor + 1, index := 0 } := by
          rw [step, hact]
        rw [hstep]
        exact .advance hrun hmore (Store.get?_eq_none_iff.1 hd)
      | some d =>
        by_cases hid : c.id = d.id
        · have hact : r.action = .skip := by
            rw [action, hrun]
            dsimp only
            rw [if_pos hmore, hc, hd]
            exact if_pos (beq_iff_eq.2 hid)
          have hstep : r.step = { r with index := r.index + 1 } := by
            rw [step, hact]
          rw [hstep]
          exact .skip hrun hmore hc hd hid
        · have hact : r.action = .resolve c d :=
            action_eq_resolve_iff.2 ⟨hrun, hmore, hc, hd, hid⟩
          rw [step_of_resolve hact]
          exact .resolve hact (r.settles_settle _)
    · have hact : r.action = .stop := by
        rw [action, hrun]
        exact if_neg hmore
      have hstep : r.step = { r with status := .finished .satisfiable } := by
        rw [step, hact]
      rw [hstep]
      exact .stop hrun (Nat.le_of_not_lt hmore)
  · have hact : r.action = .rest := by
      unfold action
      split
      · next h => exact absurd h hrun
      · rfl
    have hstep : r.step = r := by
      rw [step, hact]
    rw [hstep]
    exact .rest hrun

/-! ### Along a run -/

theorem steps_add (m n : Nat) (r : Run) : steps (m + n) r = steps n (steps m r) := by
  induction m generalizing r with
  | zero => rw [Nat.zero_add, steps_zero]
  | succ m ih => rw [Nat.succ_add, steps_succ, steps_succ, ih]

/-- The last of some steps. -/
theorem steps_succ_last (n : Nat) (r : Run) : steps (n + 1) r = (steps n r).step :=
  steps_add n 1 r

theorem Next.eq_of_not_running {r t : Run} (h : r.Next t) (hrun : r.status ≠ .running) :
    t = r := by
  cases h with
  | resolve hact => exact absurd (action_eq_resolve_iff.1 hact).1 hrun
  | skip h => exact absurd h hrun
  | advance h => exact absurd h hrun
  | stop h => exact absurd h hrun
  | rest => rfl

/-- A run that has ended stays as it is. -/
theorem steps_of_not_running {r : Run} (h : r.status ≠ .running) (n : Nat) : steps n r = r := by
  induction n with
  | zero => rfl
  | succ n ih => rw [steps_succ, r.next_step.eq_of_not_running h, ih]

/-- The next step resolves `c` and `d`, which gives `x` to keep. -/
def Keeps (r : Run) (c d x : Clause) : Prop :=
  r.action = .resolve c d ∧ x ∈ (c.resolve r.state.limit r.state.lastId d).kept

/-- What a step stores has come from the pair that it resolved. -/
theorem Next.exists_toList {r t : Run} (h : r.Next t) :
    ∃ pre, t.state.store.toList = r.state.store.toList ++ pre ∧ ∀ x ∈ pre, ∃ c d,
      r.Keeps c d x := by
  have hnone : ∃ pre, r.state.store.toList = r.state.store.toList ++ pre ∧ ∀ x ∈ pre, ∃ c d,
      r.Keeps c d x :=
    ⟨[], (List.append_nil _).symm, fun x hx => by cases hx⟩
  cases h with
  | @resolve c d _ hact hsettles =>
    cases hsettles with
    | stored hstore => exact ⟨_, hstore, fun x hx => ⟨c, d, hact, hx⟩⟩
    | failed hpre hstore => exact ⟨_, hstore, fun x hx => ⟨c, d, hact, hpre.subset hx⟩⟩
  | skip => exact hnone
  | advance => exact hnone
  | stop => exact hnone
  | rest => exact hnone

theorem Next.isPrefix_toList {r t : Run} (h : r.Next t) :
    r.state.store.toList <+: t.state.store.toList := by
  obtain ⟨pre, hpre, -⟩ := h.exists_toList
  exact ⟨pre, hpre.symm⟩

/-- Clauses stay where they were stored. -/
theorem isPrefix_toList_steps (n : Nat) (r : Run) :
    r.state.store.toList <+: (steps n r).state.store.toList := by
  induction n generalizing r with
  | zero => exact List.prefix_refl _
  | succ n ih => exact r.next_step.isPrefix_toList.trans (ih r.step)

theorem size_le_size_steps (n : Nat) (r : Run) :
    r.state.store.size ≤ (steps n r).state.store.size :=
  (isPrefix_toList_steps n r).length_le

theorem isPrefix_toList_of_le {m n : Nat} (h : m ≤ n) (r : Run) :
    (steps m r).state.store.toList <+: (steps n r).state.store.toList := by
  obtain ⟨k, rfl⟩ := Nat.exists_eq_add_of_le h
  rw [steps_add]
  exact isPrefix_toList_steps k (steps m r)

theorem size_le_of_le {m n : Nat} (h : m ≤ n) (r : Run) :
    (steps m r).state.store.size ≤ (steps n r).state.store.size :=
  (isPrefix_toList_of_le h r).length_le

/-- What has been added to the store has come from a pair that was resolved. -/
theorem exists_keeps_of_get? {k i : Nat} {r : Run} {x : Clause}
    (hx : (steps k r).state.store.get? i = some x) (hi : r.state.store.size ≤ i) :
    ∃ t < k, ∃ c d, (steps t r).Keeps c d x := by
  induction k with
  | zero =>
    rw [steps_zero, Store.get?_eq_none_iff.2 hi] at hx
    cases hx
  | succ k ih =>
    obtain ⟨pre, hstore, hpre⟩ := (steps k r).next_step.exists_toList
    rw [steps_succ_last, ← Store.getElem?_toList, hstore] at hx
    by_cases hlt : i < (steps k r).state.store.toList.length
    · rw [List.getElem?_append_left hlt, Store.getElem?_toList] at hx
      obtain ⟨t, ht, hkeeps⟩ := ih hx
      exact ⟨t, ht.trans (Nat.lt_succ_self k), hkeeps⟩
    · rw [List.getElem?_append_right (Nat.le_of_not_lt hlt)] at hx
      exact ⟨k, Nat.lt_succ_self k, hpre x (List.mem_of_getElem? hx)⟩

theorem Next.limit {r t : Run} (h : r.Next t) : t.state.limit = r.state.limit := by
  cases h with
  | resolve _ hsettles =>
    cases hsettles with
    | stored _ _ hlimit => exact hlimit
    | failed _ _ hlimit => exact hlimit
  | skip => rfl
  | advance => rfl
  | stop => rfl
  | rest => rfl

@[simp] theorem limit_steps (n : Nat) (r : Run) : (steps n r).state.limit = r.state.limit := by
  induction n generalizing r with
  | zero => rfl
  | succ n ih => rw [steps_succ, ih, r.next_step.limit]

/-- A run comes to an outcome in some one step. -/
theorem exists_step_of_yields {r : Run} {o : Outcome} (hrun : r.status = .running)
    (h : r.Yields o) :
    ∃ n, (steps n r).status = .running ∧ (steps n r).step.status = .finished o := by
  obtain ⟨n, hn⟩ := h
  induction n generalizing r with
  | zero =>
    rw [steps_zero, hrun] at hn
    cases hn
  | succ n ih =>
    by_cases hstep : r.step.status = .running
    · obtain ⟨k, hk⟩ := ih hstep hn
      exact ⟨k + 1, hk⟩
    · rw [steps_succ, steps_of_not_running hstep] at hn
      exact ⟨0, hrun, hn⟩

/-- The clauses are found unsatisfiable when two of them are refuted. -/
theorem Next.exists_refuted {r t : Run} (h : r.Next t) (hrun : r.status = .running)
    (ht : t.status = .finished .unsatisfiable) :
    ∃ c d, r.action = .resolve c d ∧
      (c.resolve r.state.limit r.state.lastId d).refuted = true := by
  cases h with
  | @resolve c d _ hact hsettles =>
    cases hsettles with
    | stored =>
      dsimp only at ht
      split at ht
      · next hrefuted => exact ⟨c, d, hact, hrefuted⟩
      · cases ht
    | failed => cases ht
  | skip =>
    dsimp only at ht
    rw [hrun] at ht
    cases ht
  | advance =>
    dsimp only at ht
    rw [hrun] at ht
    cases ht
  | stop => cases ht
  | rest hend => exact absurd hrun hend

/-! ### Runs that saturate -/

/-- No step past the end makes a difference, wherever in the run one begins. -/
theorem steps_steps_of_not_running {n : Nat} {r : Run} (h : (steps n r).status ≠ .running)
    (k : Nat) : steps n (steps k r) = steps n r := by
  rw [← steps_add, Nat.add_comm, steps_add, steps_of_not_running h]

/-- A run ends in one way only. -/
theorem steps_eq_of_not_running {m n : Nat} {r : Run} (hm : (steps m r).status ≠ .running)
    (hn : (steps n r).status ≠ .running) : steps m r = steps n r := by
  rw [← steps_steps_of_not_running hn m, steps_of_not_running hm]

theorem ne_running_of_finished {r : Run} {o : Outcome} (h : r.status = .finished o) :
    r.status ≠ .running := by
  rw [h]
  intro hrun
  cases hrun

theorem finished_of_steps {n : Nat} {r : Run} {o : Outcome}
    (h : (steps n r).status = .finished o) (k : Nat) :
    (steps n (steps k r)).status = .finished o := by
  rw [steps_steps_of_not_running (ne_running_of_finished h), h]

/-- A run comes to one outcome only. -/
theorem Yields.unique {r : Run} {o o' : Outcome} (h : r.Yields o) (h' : r.Yields o') : o = o' := by
  obtain ⟨n, hn⟩ := h
  obtain ⟨n', hn'⟩ := h'
  have hsame := steps_eq_of_not_running (ne_running_of_finished hn) (ne_running_of_finished hn')
  rw [hsame, hn'] at hn
  exact (Status.finished.inj hn).symm

theorem Yields.ne_failed {r : Run} {o : Outcome} (h : r.Yields o) (n : Nat) (fault : IdFault) :
    (steps n r).status ≠ .failed fault := by
  obtain ⟨k, hk⟩ := h
  intro hfail
  have hrun : (steps n r).status ≠ .running := by
    rw [hfail]
    intro hrun
    cases hrun
  rw [← steps_eq_of_not_running (ne_running_of_finished hk) hrun, hk] at hfail
  cases hfail

/-- No step of a run that saturates fails or refutes the clauses. -/
theorem step_status_of_satisfiable {n : Nat} {r : Run}
    (h : (steps n r).status = .finished .satisfiable) :
    r.step.status = .running ∨ r.step.status = .finished .satisfiable := by
  have hend := steps_steps_of_not_running (ne_running_of_finished h) 1
  by_cases hstep : r.step.status = .running
  · exact Or.inl hstep
  · rw [steps_succ, steps_zero, steps_of_not_running hstep] at hend
    rw [hend]
    exact Or.inr h

/-- All that a pair came to has been stored, and the run goes on. -/
structure GoesOn (r : Run) (pair : PairOutcome) (t : Run) : Prop where
  refuted : pair.refuted = false
  status : t.status = .running
  cursor : t.cursor = r.cursor
  index : t.index = r.index + 1
  toList : t.state.store.toList = r.state.store.toList ++ pair.kept
  lastId : t.state.lastId = pair.lastId
  limit : t.state.limit = r.state.limit

/-- In a run that saturates every pair that is resolved is taken in, and none is refuted. -/
theorem goesOn_of_satisfiable {n : Nat} {r : Run} {c d : Clause}
    (h : (steps n r).status = .finished .satisfiable) (hact : r.action = .resolve c d) :
    r.GoesOn (c.resolve r.state.limit r.state.lastId d) r.step := by
  have hstatus := step_status_of_satisfiable h
  have hsettles := r.settles_settle (c.resolve r.state.limit r.state.lastId d)
  rw [← step_of_resolve hact] at hsettles
  generalize r.step = t at hstatus hsettles ⊢
  cases hsettles with
  | stored hstore hlastId hlimit =>
    dsimp only at hstatus
    cases hrefuted : (c.resolve r.state.limit r.state.lastId d).refuted with
    | false => exact ⟨hrefuted, rfl, rfl, rfl, hstore, hlastId, hlimit⟩
    | true =>
      rw [hrefuted, if_pos rfl] at hstatus
      rcases hstatus with hstatus | hstatus
      · cases hstatus
      · cases hstatus
  | failed =>
    rcases hstatus with hstatus | hstatus
    · cases hstatus
    · cases hstatus

/-- What a step has to store is stored, in a run that saturates. -/
theorem Keeps.mem_steps {n t : Nat} {r : Run} {c d x : Clause}
    (h : (steps n r).status = .finished .satisfiable) (hkeeps : (steps t r).Keeps c d x) :
    x ∈ (steps (t + 1) r).state.store.toList := by
  rw [steps_succ_last, (goesOn_of_satisfiable (finished_of_steps h t) hkeeps.1).toList]
  exact List.mem_append_right _ hkeeps.2

theorem Keeps.size_lt {n t : Nat} {r : Run} {c d x : Clause}
    (h : (steps n r).status = .finished .satisfiable) (hkeeps : (steps t r).Keeps c d x) :
    (steps t r).state.store.size < (steps (t + 1) r).state.store.size := by
  have hstore := (goesOn_of_satisfiable (finished_of_steps h t) hkeeps.1).toList
  have hpos := List.length_pos_of_mem hkeeps.2
  rw [steps_succ_last, ← Store.length_toList, ← Store.length_toList, hstore, List.length_append]
  omega

end Run
end Refutation
