import Refutation.Proofs.Scopes
import Refutation.Source.Clause

/-!
# Which pairs a run resolves

A clause that becomes the current one is resolved with every clause that is stored before the next
clause takes its place.  Every clause but the last becomes the current one, so two clauses are
resolved with one another unless the later is the last of all.  With the last clause, only those
are resolved whose turn was not over when it was stored.

## Main definitions

* `Run.Meets` — two clauses are resolved in the course of a run.
* `Run.InTime` — a clause is stored before the turn of another is over.

## Main results

* `Run.exists_steps_enter` — every clause but the last becomes the current one.
* `Run.meets_of_lt` — clauses before the last one are resolved with one another.
* `Run.forall_meets_or_meets_iff` — all pairs are resolved only if nothing is added.
* `Run.meets_or_meets_iff_of_readClauses` — **which pairs are resolved in a run that saturates**.
-/

namespace Refutation

/-- A clause that is not the last one has a place before it. -/
theorem Store.exists_get?_of_ne_last {s : Store} {c e : Clause}
    (hlast : s.toList.getLast? = some e) (hc : c ∈ s.toList) (hne : c ≠ e) :
    ∃ i, s.get? i = some c ∧ i + 1 < s.size := by
  obtain ⟨i, hi⟩ := exists_get?_of_mem hc
  refine ⟨i, hi, Nat.lt_of_le_of_ne (lt_size_of_get? hi) ?_⟩
  intro heq
  refine hne ?_
  rw [List.getLast?_eq_getElem?, length_toList, getElem?_toList, ← heq, Nat.succ_sub_one,
    hi] at hlast
  exact Option.some.inj hlast

namespace Run

/-- The clauses `c` and `d` are resolved in the course of a run, when `c` is the current clause. -/
def Meets (r : Run) (c d : Clause) : Prop := ∃ k, (steps k r).action = .resolve c d

variable {r : Run} {n : Nat} {c d : Clause} {i j : Nat}

/-! ### Places in the store -/

theorem isPrefix_toList_of_finished {o : Outcome} (h : (steps n r).status = .finished o)
    (k : Nat) : (steps k r).state.store.toList <+: (steps n r).state.store.toList := by
  have hpre := isPrefix_toList_steps n (steps k r)
  rwa [steps_steps_of_not_running (ne_running_of_finished h)] at hpre

theorem size_le_of_finished {o : Outcome} (h : (steps n r).status = .finished o) (k : Nat) :
    (steps k r).state.store.size ≤ (steps n r).state.store.size :=
  (isPrefix_toList_of_finished h k).length_le

/-- A clause that is stored stays at its place to the end. -/
theorem get?_final {o : Outcome} (h : (steps n r).status = .finished o) {k : Nat}
    (hc : (steps k r).state.store.get? i = some c) :
    (steps n r).state.store.get? i = some c :=
  Store.get?_of_isPrefix (isPrefix_toList_of_finished h k) hc

theorem get?_of_final {o : Outcome} (h : (steps n r).status = .finished o) {k : Nat}
    (hi : i < (steps k r).state.store.size)
    (hc : (steps n r).state.store.get? i = some c) :
    (steps k r).state.store.get? i = some c := by
  obtain ⟨d, hd⟩ := Store.exists_get?_of_lt hi
  cases (get?_final h hd).symm.trans hc
  exact hd

/-! ### The turn of a clause -/

/-- As long as a run that saturates goes on, the index moves on, or the cursor does, or the run
stops. -/
theorem step_cases (h : (steps n r).status = .finished .satisfiable)
    (hrun : r.status = .running) :
    (r.cursor + 1 < r.state.store.size ∧ r.index < r.state.store.size ∧
      r.step.status = .running ∧ r.step.cursor = r.cursor ∧ r.step.index = r.index + 1) ∨
    (r.cursor + 1 < r.state.store.size ∧ r.state.store.size ≤ r.index ∧
      r.step.status = .running ∧ r.step.cursor = r.cursor + 1 ∧ r.step.index = 0) ∨
    (r.state.store.size ≤ r.cursor + 1 ∧ r.step = { r with status := .finished .satisfiable }) := by
  have hgoes := fun c d => goesOn_of_satisfiable (c := c) (d := d) h
  have hnext := r.next_step
  generalize r.step = t at hgoes hnext ⊢
  cases hnext with
  | @resolve c d _ hact =>
    obtain ⟨-, hmore, -, hd, -⟩ := action_eq_resolve_iff.1 hact
    have ht := hgoes c d hact
    exact Or.inl ⟨hmore, Store.lt_size_of_get? hd, ht.status, ht.cursor, ht.index⟩
  | skip _ hmore _ hd => exact Or.inl ⟨hmore, Store.lt_size_of_get? hd, hrun, rfl, rfl⟩
  | advance _ hmore hend => exact Or.inr (Or.inl ⟨hmore, hend, hrun, rfl, rfl⟩)
  | stop _ hlast => exact Or.inr (Or.inr ⟨hlast, rfl⟩)
  | rest hend => exact absurd hrun hend

/-- A clause that is stored before the turn of the current clause is over has its index come up. -/
theorem exists_steps_index (h : (steps n r).status = .finished .satisfiable)
    (hrun : r.status = .running) (hmore : r.cursor + 1 < r.state.store.size)
    (hindex : r.index ≤ j) (hj : j < r.state.store.size) :
    ∃ k, (steps k r).status = .running ∧ (steps k r).cursor = r.cursor ∧
      (steps k r).index = j := by
  -- the induction is on the steps left to the end; the store only grows, so `j` stays in reach
  induction n generalizing r with
  | zero => exact absurd hrun (ne_running_of_finished h)
  | succ n ih =>
    by_cases heq : r.index = j
    · exact ⟨0, hrun, rfl, heq⟩
    · have hsize : r.state.store.size ≤ r.step.state.store.size := size_le_size_steps 1 r
      rcases step_cases h hrun with ⟨-, -, hstatus, hcursor, hstep⟩ | ⟨-, hend, -⟩ | ⟨hlast, -⟩
      · obtain ⟨k, hk⟩ := ih h hstatus (by omega) (by omega) (by omega)
        rw [hcursor] at hk
        exact ⟨k + 1, hk⟩
      -- the turn is not over, for there is a clause at the index
      · omega
      · omega

/-- After the turn of a clause it is the turn of the next, unless that is the last. -/
theorem exists_steps_cursor (h : (steps n r).status = .finished .satisfiable)
    (hrun : r.status = .running) (hmore : r.cursor + 1 < (steps n r).state.store.size) :
    ∃ k, (steps k r).status = .running ∧ (steps k r).cursor = r.cursor + 1 ∧
      (steps k r).index = 0 := by
  induction n generalizing r with
  | zero => exact absurd hrun (ne_running_of_finished h)
  | succ n ih =>
    rcases step_cases h hrun with ⟨-, -, hstatus, hcursor, -⟩ | ⟨-, -, hnext⟩ | ⟨hlast, hstep⟩
    · obtain ⟨k, hk⟩ := ih h hstatus (by rwa [hcursor])
      rw [hcursor] at hk
      exact ⟨k + 1, hk⟩
    · exact ⟨1, hnext⟩
    · have hend : r.step.status ≠ .running := ne_running_of_finished (by rw [hstep])
      rw [steps_succ, steps_of_not_running hend, hstep] at hmore
      exact absurd hmore (Nat.not_lt.2 hlast)

/-- The run stops only at the last clause. -/
theorem cursor_lt_of_satisfiable (h : (steps n r).status = .finished .satisfiable)
    (hrun : r.status = .running) (hmore : r.cursor + 1 < (steps n r).state.store.size) :
    r.cursor + 1 < r.state.store.size := by
  rcases step_cases h hrun with ⟨hlt, -⟩ | ⟨hlt, -⟩ | ⟨-, hstep⟩
  · exact hlt
  · exact hlt
  · have hend : r.step.status ≠ .running := ne_running_of_finished (by rw [hstep])
    rwa [steps_eq_of_not_running (n := 1) (ne_running_of_finished h) hend, steps_succ, steps_zero,
      hstep] at hmore

/-! ### Whole runs -/

section Whole

variable {s : Saturation}

/-- Every clause but the last becomes the current one. -/
theorem exists_steps_enter (h : (steps n (start s)).status = .finished .satisfiable)
    (hi : i + 1 < (steps n (start s)).state.store.size) :
    ∃ k, (steps k (start s)).status = .running ∧ (steps k (start s)).cursor = i ∧
      (steps k (start s)).index = 0 := by
  induction i with
  | zero => exact ⟨0, rfl, rfl, rfl⟩
  | succ i ih =>
    obtain ⟨k, hrun, hcursor, -⟩ := ih (Nat.lt_of_succ_lt hi)
    have hend := steps_steps_of_not_running (ne_running_of_finished h) k
    obtain ⟨k', hk'⟩ := exists_steps_cursor (finished_of_steps h k) hrun
      (by rw [hend, hcursor]; omega)
    rw [← steps_add, hcursor] at hk'
    exact ⟨k + k', hk'⟩

/-- Every index that the turn of a clause has passed has come up in it. -/
theorem exists_steps_before (h : (steps n (start s)).status = .finished .satisfiable) {k : Nat}
    (hj : j < (steps k (start s)).index) :
    ∃ k', (steps k' (start s)).status = .running ∧
      (steps k' (start s)).cursor = (steps k (start s)).cursor ∧
      (steps k' (start s)).index = j ∧
      (steps k' (start s)).cursor + 1 < (steps k' (start s)).state.store.size ∧
      j < (steps k' (start s)).state.store.size := by
  induction k with
  | zero => cases hj
  | succ k ih =>
    rw [steps_succ_last] at hj ⊢
    by_cases hrun : (steps k (start s)).status = .running
    · rcases step_cases (finished_of_steps h k) hrun with
        ⟨hmore, hlt, -, hcursor, hindex⟩ | ⟨-, -, -, -, hindex⟩ | ⟨-, hstep⟩
      · rw [hcursor]
        rw [hindex] at hj
        rcases Nat.lt_succ_iff_lt_or_eq.1 hj with hj | rfl
        · exact ih hj
        · exact ⟨k, hrun, rfl, rfl, hmore, hlt⟩
      · rw [hindex] at hj
        cases hj
      · rw [hstep] at hj ⊢
        exact ih hj
    · rw [(steps k (start s)).next_step.eq_of_not_running hrun] at hj ⊢
      exact ih hj

/-- The clauses at the cursor and at the index are resolved. -/
theorem action_of_get? (h : (steps n r).status = .finished .satisfiable) {k : Nat}
    (hrun : (steps k r).status = .running)
    (hmore : (steps k r).cursor + 1 < (steps k r).state.store.size)
    (hindex : (steps k r).index < (steps k r).state.store.size)
    (hc : (steps n r).state.store.get? (steps k r).cursor = some c)
    (hd : (steps n r).state.store.get? (steps k r).index = some d) (hid : c.id ≠ d.id) :
    (steps k r).action = .resolve c d :=
  action_eq_resolve_iff.2 ⟨hrun, hmore, get?_of_final h (Nat.lt_of_succ_lt hmore) hc,
    get?_of_final h hindex hd, hid⟩

/-- The current clause is resolved with those that the rest of its turn comes to. -/
theorem meets_of_cursor (h : (steps n r).status = .finished .satisfiable) {k : Nat}
    (hrun : (steps k r).status = .running)
    (hmore : (steps k r).cursor + 1 < (steps k r).state.store.size)
    (hindex : (steps k r).index ≤ j) (hj : j < (steps k r).state.store.size)
    (hc : (steps n r).state.store.get? (steps k r).cursor = some c)
    (hd : (steps n r).state.store.get? j = some d) (hid : c.id ≠ d.id) : r.Meets c d := by
  obtain ⟨k', hrun', hcursor', hindex'⟩ :=
    exists_steps_index (finished_of_steps h k) hrun hmore hindex hj
  have hsize := size_le_size_steps k' (steps k r)
  rw [← steps_add] at hrun' hcursor' hindex' hsize
  refine ⟨k + k', action_of_get? h hrun' ?_ ?_ ?_ ?_ hid⟩
  · omega
  · omega
  · rwa [hcursor']
  · rwa [hindex']

/-- Of two clauses before the last one, the later is resolved with the earlier. -/
theorem meets_of_lt (h : (steps n (start s)).status = .finished .satisfiable) (hij : i < j)
    (hj : j + 1 < (steps n (start s)).state.store.size)
    (hc : (steps n (start s)).state.store.get? i = some c)
    (hd : (steps n (start s)).state.store.get? j = some d) (hid : c.id ≠ d.id) :
    (start s).Meets d c := by
  obtain ⟨k, hrun, hcursor, hindex⟩ := exists_steps_enter h hj
  have hend := steps_steps_of_not_running (ne_running_of_finished h) k
  have hmore : (steps k (start s)).cursor + 1 < (steps k (start s)).state.store.size :=
    cursor_lt_of_satisfiable (finished_of_steps h k) hrun (by rw [hend, hcursor]; exact hj)
  exact meets_of_cursor h hrun hmore (by omega) (by omega) (by rwa [hcursor]) hc (Ne.symm hid)

/-- Clauses other than the last are resolved with one another. -/
theorem meets_or_meets_of_ne_last (h : (steps n (start s)).status = .finished .satisfiable)
    {e : Clause} (hlast : (steps n (start s)).state.store.toList.getLast? = some e)
    (hc : c ∈ (steps n (start s)).state.store.toList)
    (hd : d ∈ (steps n (start s)).state.store.toList) (hce : c ≠ e) (hde : d ≠ e)
    (hid : c.id ≠ d.id) : (start s).Meets c d ∨ (start s).Meets d c := by
  obtain ⟨i, hi, hilast⟩ := Store.exists_get?_of_ne_last hlast hc hce
  obtain ⟨j, hj, hjlast⟩ := Store.exists_get?_of_ne_last hlast hd hde
  have hij : i ≠ j := by
    rintro rfl
    cases hi.symm.trans hj
    exact hid rfl
  rcases Nat.lt_or_gt_of_ne hij with hlt | hgt
  · exact Or.inr (meets_of_lt h hlt hjlast hi hj hid)
  · exact Or.inl (meets_of_lt h hgt hilast hj hi hid.symm)

/-- A run that has saturated has the last clause as its current one. -/
theorem size_le_cursor_of_satisfiable (h : (steps n (start s)).status = .finished .satisfiable) :
    (steps n (start s)).state.store.size ≤ (steps n (start s)).cursor + 1 := by
  obtain ⟨k, hrun, hstop⟩ := exists_step_of_yields (r := start s) rfl ⟨n, h⟩
  have hend : (steps 1 (steps k (start s))).status = .finished .satisfiable := hstop
  have hsame : steps n (start s) = steps (k + 1) (start s) :=
    steps_eq_of_not_running (ne_running_of_finished h)
      (ne_running_of_finished (by rw [steps_succ_last, hstop]))
  rcases step_cases hend hrun with ⟨-, -, hgo, -⟩ | ⟨-, -, hgo, -⟩ | ⟨hsize, hstep⟩
  · exact absurd hgo (ne_running_of_finished hstop)
  · exact absurd hgo (ne_running_of_finished hstop)
  · rw [hsame, steps_succ_last, hstep]
    exact hsize

/-- The clause at `j` is stored before the turn of the clause at `i` is over. -/
def InTime (r : Run) (i j : Nat) : Prop :=
  ∃ k, (steps k r).cursor = i ∧ j < (steps k r).state.store.size

/-- The current clause is resolved with whatever is stored before its turn is over. -/
theorem meets_of_inTime (h : (steps n (start s)).status = .finished .satisfiable)
    (hij : i < j) (hin : (start s).InTime i j)
    (hc : (steps n (start s)).state.store.get? i = some c)
    (hd : (steps n (start s)).state.store.get? j = some d) (hid : c.id ≠ d.id) :
    (start s).Meets c d := by
  obtain ⟨k, rfl, hj⟩ := hin
  -- either the index is still to come or it has come up before
  by_cases hindex : (steps k (start s)).index ≤ j
  · have hrun : (steps k (start s)).status = .running := by
      by_contra hrun
      have hlast := size_le_cursor_of_satisfiable h
      have hsame := steps_eq_of_not_running hrun (ne_running_of_finished h)
      rw [hsame] at hj hij
      omega
    exact meets_of_cursor h hrun (by omega) hindex hj hc hd hid
  · obtain ⟨k', hrun, hcursor, hindex', hmore, hsize⟩ :=
      exists_steps_before h (Nat.lt_of_not_le hindex)
    refine ⟨k', action_of_get? h hrun hmore ?_ ?_ ?_ hid⟩
    · rwa [hindex']
    · rwa [hcursor]
    · rwa [hindex']

/-! ### Which pairs are resolved -/

/-- The places of two clauses that are resolved. -/
theorem exists_places_of_meets (h : (steps n (start s)).status = .finished .satisfiable)
    (hnum : s.Numbered) (hc : (steps n (start s)).state.store.get? i = some c)
    (hd : (steps n (start s)).state.store.get? j = some d) (hmeets : (start s).Meets c d) :
    ∃ k, (steps k (start s)).cursor = i ∧ i + 1 < (steps k (start s)).state.store.size ∧
      j < (steps k (start s)).state.store.size := by
  obtain ⟨k, hact⟩ := hmeets
  obtain ⟨-, hmore, hc', hd', -⟩ := action_eq_resolve_iff.1 hact
  have hfinal := numbered_steps (r := start s) h hnum n
  have hi := hfinal.eq_of_get?_eq (get?_final h hc') hc
  have hj := hfinal.eq_of_get?_eq (get?_final h hd') hd
  exact ⟨k, hi, hi ▸ hmore, hj ▸ Store.lt_size_of_get? hd'⟩

/-- Two clauses are resolved with one another exactly if the later is not the last of all or was
stored before the turn of the earlier was over. -/
theorem meets_or_meets_iff_of_lt (h : (steps n (start s)).status = .finished .satisfiable)
    (hnum : s.Numbered) (hij : i < j) (hc : (steps n (start s)).state.store.get? i = some c)
    (hd : (steps n (start s)).state.store.get? j = some d) :
    (start s).Meets c d ∨ (start s).Meets d c ↔
      j + 1 < (steps n (start s)).state.store.size ∨ (start s).InTime i j := by
  constructor
  · rintro (hmeets | hmeets)
    · obtain ⟨k, hcursor, -, hj⟩ := exists_places_of_meets h hnum hc hd hmeets
      exact Or.inr ⟨k, hcursor, hj⟩
    · obtain ⟨k, -, hmore, -⟩ := exists_places_of_meets h hnum hd hc hmeets
      exact Or.inl (hmore.trans_le (size_le_of_finished h k))
  · have hid := (numbered_steps (r := start s) h hnum n).id_ne_of_get? (Nat.ne_of_lt hij) hc hd
    rintro (hj | hin)
    · exact Or.inr (meets_of_lt h hij hj hc hd hid)
    · exact Or.inl (meets_of_inTime h hij hin hc hd hid)

theorem cursor_le_cursor_steps (r : Run) (n : Nat) : r.cursor ≤ (steps n r).cursor := by
  induction n generalizing r with
  | zero => exact Nat.le_refl _
  | succ n ih =>
    refine Nat.le_trans ?_ (ih r.step)
    have hnext := r.next_step
    generalize r.step = t at hnext
    cases hnext with
    | resolve _ hsettles =>
      cases hsettles with
      | stored => exact Nat.le_refl _
      | failed => exact Nat.le_refl _
    | skip => exact Nat.le_refl _
    | advance => exact Nat.le_succ _
    | stop => exact Nat.le_refl _
    | rest => exact Nat.le_refl _

theorem cursor_le_of_le {k k' : Nat} (h : k ≤ k') (r : Run) :
    (steps k r).cursor ≤ (steps k' r).cursor := by
  obtain ⟨m, rfl⟩ := Nat.exists_eq_add_of_le h
  rw [steps_add]
  exact cursor_le_cursor_steps (steps k r) m

/-- What is stored before the turn of a clause is over is so before the turn of any later one that
comes up. -/
theorem InTime.mono {i' : Nat} (hin : r.InTime i j) (hle : i ≤ i') {k : Nat}
    (hk : (steps k r).cursor = i') : r.InTime i' j := by
  obtain ⟨k₀, hcursor, hj⟩ := hin
  rcases Nat.le_total k₀ k with hkk | hkk
  · exact ⟨k, hk, hj.trans_le (size_le_of_le hkk r)⟩
  · have hback := cursor_le_of_le hkk r
    exact ⟨k₀, by omega, hj⟩

/-- What is not stored when a later turn has begun is not stored in time. -/
theorem not_inTime {k : Nat} (hsize : (steps k r).state.store.size ≤ j)
    (hcursor : i < (steps k r).cursor) : ¬ r.InTime i j := by
  rintro ⟨k', hk', hj⟩
  rcases Nat.le_total k' k with hkk | hkk
  · have hmono := size_le_of_le hkk r
    omega
  · have hmono := cursor_le_of_le hkk r
    omega

/-- The last clause is stored in the first turn only if it was there from the start: what the first
clause gives with another is given again in the turn of that one. -/
theorem size_eq_of_first_turn (h : (steps n (start s)).status = .finished .satisfiable)
    (hnum : s.Numbered) {k : Nat} (hcursor : (steps k (start s)).cursor = 0)
    (hsize : (steps k (start s)).state.store.size = (steps n (start s)).state.store.size) :
    (steps n (start s)).state.store.size = s.store.size := by
  by_contra hne
  have hgrown : s.store.size < (steps k (start s)).state.store.size := by
    have hle : s.store.size ≤ (steps k (start s)).state.store.size :=
      size_le_size_steps k (start s)
    omega
  obtain ⟨x, hget⟩ := Store.exists_get?_of_lt hgrown
  obtain ⟨t, htk, c, d, hkeeps⟩ := exists_keeps_of_get? (r := start s) hget (Nat.le_refl _)
  obtain ⟨-, -, hc, hd, hid⟩ := action_eq_resolve_iff.1 hkeeps.1
  -- the pair comes up in the first turn
  have hfirst : (steps t (start s)).cursor = 0 := by
    have hle := cursor_le_of_le htk.le (start s)
    omega
  rw [hfirst] at hc
  have hindex : 0 < (steps t (start s)).index := by
    rcases Nat.eq_zero_or_pos (steps t (start s)).index with hzero | hpos
    · rw [hzero] at hd
      cases hc.symm.trans hd
      exact absurd rfl hid
    · exact hpos
  have hgrows : (steps t (start s)).index + 1 < (steps n (start s)).state.store.size := by
    have hlt := Store.lt_size_of_get? hd
    have hstored := hkeeps.size_lt h
    have hle := size_le_of_finished h (t + 1)
    omega
  -- it comes up again the other way round, and gives something again
  obtain ⟨t', hact'⟩ := meets_of_lt h hindex hgrows (get?_final h hc) (get?_final h hd) hid
  obtain ⟨y, hagain⟩ : ∃ y, (steps t' (start s)).Keeps d c y := by
    have hx := hkeeps.2
    have hrefuted := (goesOn_of_satisfiable (finished_of_steps h t') hact').refuted
    rw [limit_steps] at hx hrefuted
    obtain ⟨y, hy⟩ := Clause.exists_mem_kept_resolve_comm hx hrefuted
    exact ⟨y, hact', by rwa [limit_steps]⟩
  -- but the store is complete from step `k` on, and the later turn begins after that
  have hlater : k ≤ t' := by
    by_contra hlt
    have hle := cursor_le_of_le (Nat.le_of_not_le hlt) (start s)
    have hplace := (numbered_steps (r := start s) h hnum n).eq_of_get?_eq
      (get?_final h (action_eq_resolve_iff.1 hact').2.2.1) (get?_final h hd)
    omega
  have hmono := size_le_of_le hlater (start s)
  have hstored := hagain.size_lt h
  have hle := size_le_of_finished h (t' + 1)
  omega

/-- All clauses are resolved with one another exactly if none has been added to the store. -/
theorem forall_meets_or_meets_iff (h : (steps n (start s)).status = .finished .satisfiable)
    (hnum : s.Numbered) :
    (∀ c ∈ (steps n (start s)).state.store.toList, ∀ d ∈ (steps n (start s)).state.store.toList,
      c.id ≠ d.id → (start s).Meets c d ∨ (start s).Meets d c) ↔
      (steps n (start s)).state.store.size = s.store.size := by
  have hfinal := numbered_steps (r := start s) h hnum n
  constructor
  · intro hall
    by_cases hmany : 1 < (steps n (start s)).state.store.size
    · obtain ⟨c, hc⟩ := Store.exists_get?_of_lt (Nat.lt_of_succ_lt hmany)
      obtain ⟨d, hd⟩ := Store.exists_get?_of_lt (Nat.sub_one_lt_of_lt hmany)
      have hij : 0 < (steps n (start s)).state.store.size - 1 := by omega
      have hmeets := hall c (Store.mem_of_get? hc) d (Store.mem_of_get? hd)
        (hfinal.id_ne_of_get? (Nat.ne_of_lt hij) hc hd)
      rcases (meets_or_meets_iff_of_lt h hnum hij hc hd).1 hmeets with hlt | ⟨k, hcursor, hlt⟩
      · omega
      · have hle := size_le_of_finished h k
        exact size_eq_of_first_turn h hnum hcursor (by omega)
    · -- a single clause makes no pair, and the run stops where it starts
      have hle := size_le_of_finished h 0
      rw [steps_zero] at hle
      rcases step_cases h rfl with ⟨hlt, -⟩ | ⟨hlt, -⟩ | ⟨-, hstep⟩
      · exact absurd (hlt.trans_le hle) hmany
      · exact absurd (hlt.trans_le hle) hmany
      · have hend : (steps 1 (start s)).status ≠ .running :=
          ne_running_of_finished (by rw [steps_succ, steps_zero, hstep])
        rw [steps_eq_of_not_running (ne_running_of_finished h) hend, steps_succ, steps_zero, hstep]
        rfl
  · intro hsize
    have hmeets : ∀ {i j : Nat} {c d : Clause}, i < j →
        (steps n (start s)).state.store.get? i = some c →
        (steps n (start s)).state.store.get? j = some d →
        (start s).Meets c d ∨ (start s).Meets d c := by
      intro i j c d hij hc hd
      have hj := Store.lt_size_of_get? hd
      obtain ⟨k, -, hk, -⟩ := exists_steps_enter (i := i) h (by omega)
      have hin : (start s).InTime 0 j := ⟨0, rfl, hj.trans_eq hsize⟩
      exact (meets_or_meets_iff_of_lt h hnum hij hc hd).2 (Or.inr (hin.mono (Nat.zero_le i) hk))
    intro c hc d hd hid
    obtain ⟨i, hi⟩ := Store.exists_get?_of_mem hc
    obtain ⟨j, hj⟩ := Store.exists_get?_of_mem hd
    have hij : i ≠ j := by
      rintro rfl
      cases hi.symm.trans hj
      exact hid rfl
    rcases Nat.lt_or_gt_of_ne hij with hij | hij
    · exact hmeets hij hi hj
    · exact (hmeets hij hj hi).symm

/-- **Which pairs are resolved in a run that saturates.**  Two clauses are resolved with one another
exactly if the later is not the last of all or was stored before the turn of the earlier was over;
and so are all of them exactly if nothing was added to the clauses that were read. -/
theorem meets_or_meets_iff_of_readClauses {source : List Char} {cs : List Clause} {limit : Limit}
    (hread : readClauses 0 source = .ok cs)
    (h : (steps n (start (.ofRead cs limit))).status = .finished .satisfiable) :
    (∀ i j c d, i < j → (steps n (start (.ofRead cs limit))).state.store.get? i = some c →
      (steps n (start (.ofRead cs limit))).state.store.get? j = some d →
      ((start (.ofRead cs limit)).Meets c d ∨ (start (.ofRead cs limit)).Meets d c ↔
        j + 1 < (steps n (start (.ofRead cs limit))).state.store.size ∨
          (start (.ofRead cs limit)).InTime i j)) ∧
    ((∀ c ∈ (steps n (start (.ofRead cs limit))).state.store.toList,
      ∀ d ∈ (steps n (start (.ofRead cs limit))).state.store.toList, c.id ≠ d.id →
        (start (.ofRead cs limit)).Meets c d ∨ (start (.ofRead cs limit)).Meets d c) ↔
      (steps n (start (.ofRead cs limit))).state.store.toList = cs) := by
  have hnum := numbered_of_readClauses hread limit
  refine ⟨?_, ?_⟩
  · intro i j c d hij hc hd
    exact meets_or_meets_iff_of_lt h hnum hij hc hd
  · rw [forall_meets_or_meets_iff h hnum]
    have hpre : cs <+: (steps n (start (.ofRead cs limit))).state.store.toList :=
      isPrefix_toList_steps n (start (.ofRead cs limit))
    constructor
    · intro hsize
      exact (hpre.eq_of_length hsize.symm).symm
    · intro hsame
      exact congrArg List.length hsame

theorem meets_or_meets_of_readClauses_below_one :
    ∃ cs, readClauses 0 "p(a)|q(b)\n-p(X)".toList = .ok cs ∧
      (steps 4 (start (.ofRead cs (.below 1)))).status = .finished .satisfiable ∧
      ∀ c ∈ (steps 4 (start (.ofRead cs (.below 1)))).state.store.toList,
        ∀ d ∈ (steps 4 (start (.ofRead cs (.below 1)))).state.store.toList, c.id ≠ d.id →
          (start (.ofRead cs (.below 1))).Meets c d ∨
            (start (.ofRead cs (.below 1))).Meets d c := by
  have hread : readClauses 0 "p(a)|q(b)\n-p(X)".toList =
      .ok [⟨1, [⟨true, "p", [.const "a"]⟩, ⟨true, "q", [.const "b"]⟩]⟩,
        ⟨2, [⟨false, "p", [.var ⟨"X", 2⟩]⟩]⟩] := eq_ok_of_toOption (by decide +kernel)
  refine ⟨_, hread, by decide +kernel, ?_⟩
  exact (meets_or_meets_iff_of_readClauses hread (by decide +kernel)).2.2 (by decide +kernel)

/-- The last clause of this run is stored in the turn of the second one.  The first never meets
it. -/
theorem not_meets_unlimited :
    ∃ cs c d, readClauses 0 "p(a)|q(b)\n-p(X)".toList = .ok cs ∧
      (steps 15 (start (.ofRead cs .unlimited))).status = .finished .satisfiable ∧
      c ∈ (steps 15 (start (.ofRead cs .unlimited))).state.store.toList ∧
      d ∈ (steps 15 (start (.ofRead cs .unlimited))).state.store.toList ∧ c.id = 1 ∧ d.id = 4 ∧
      ¬ ((start (.ofRead cs .unlimited)).Meets c d ∨
        (start (.ofRead cs .unlimited)).Meets d c) := by
  have hread : readClauses 0 "p(a)|q(b)\n-p(X)".toList =
      .ok [⟨1, [⟨true, "p", [.const "a"]⟩, ⟨true, "q", [.const "b"]⟩]⟩,
        ⟨2, [⟨false, "p", [.var ⟨"X", 2⟩]⟩]⟩] := eq_ok_of_toOption (by decide +kernel)
  refine ⟨_, ⟨1, [⟨true, "p", [.const "a"]⟩, ⟨true, "q", [.const "b"]⟩]⟩,
    ⟨4, [⟨true, "q", [.const "b"]⟩]⟩, hread, by decide +kernel, by decide +kernel,
    by decide +kernel, rfl, rfl, ?_⟩
  rw [meets_or_meets_iff_of_lt (n := 15) (i := 0) (j := 3) (by decide +kernel)
    (numbered_of_readClauses hread .unlimited) (by decide) (by decide +kernel) (by decide +kernel)]
  rintro (hlt | hin)
  · revert hlt
    decide +kernel
  · exact not_inTime (k := 4) (by decide +kernel) (by decide +kernel) hin

end Whole

end Run
end Refutation
