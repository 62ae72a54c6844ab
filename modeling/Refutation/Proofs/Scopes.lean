import Mathlib.Data.List.Nodup
import Refutation.Proofs.Course
import Refutation.Source.Clause

/-!
# Numbers and scopes along a run

Every resolvent is numbered above all that is stored and has no variables but its own.  So clauses
that have different numbers and own their variables at the start do so to the end.

## Main definitions

* `Saturation.Numbered` — numbers are different, and none is above the last one issued.
* `Saturation.ofRead` — the state before the first run on a source text.

## Main results

* `Clause.ResolventOn.ownsVars`, `Run.ownsVars_steps` — variables stay with their clauses.
* `Run.numbered_steps` — numbers stay different.
* `numbered_of_readClauses` — clauses that are read together have different numbers.
-/

namespace Refutation

/-- The variables of a resolvent are its own. -/
theorem Clause.ResolventOn.ownsVars {c d r : Clause} {l m : Literal}
    (h : ResolventOn c d l m r) : r.OwnsVars := by
  obtain ⟨σ, -, hr⟩ := h
  obtain ⟨x, y, -, hperm⟩ := perm_of_cancelPair? (cancelPair?_of_cancel? hr)
  intro v hv
  obtain ⟨k, hk, hv⟩ := List.mem_flatMap.1 hv
  refine ownsVars_candidate r.id σ c d v (List.mem_flatMap.2 ⟨k, hperm.mem_iff.2 ?_, hv⟩)
  exact List.mem_cons_of_mem x (List.mem_cons_of_mem y hk)

/-- Clauses have different numbers, none of them above the last one issued. -/
structure Saturation.Numbered (s : Saturation) : Prop where
  nodup : (s.store.toList.map Clause.id).Nodup
  le_lastId : ∀ c ∈ s.store.toList, c.id ≤ s.lastId

namespace Saturation.Numbered

variable {s : Saturation} {c d : Clause} {i j : Nat}

/-- A clause is known by its number. -/
theorem eq_of_id_eq (h : s.Numbered) (hc : c ∈ s.store.toList) (hd : d ∈ s.store.toList)
    (hid : c.id = d.id) : c = d :=
  List.inj_on_of_nodup_map h.nodup hc hd hid

/-- A clause has one place. -/
theorem eq_of_get?_eq (h : s.Numbered) (hi : s.store.get? i = some c)
    (hj : s.store.get? j = some c) : i = j := by
  have hlt : i < s.store.toList.length := Store.lt_size_of_get? hi
  refine (List.getElem?_inj hlt (h.nodup.of_map Clause.id)).1 ?_
  rw [Store.getElem?_toList, Store.getElem?_toList, hi, hj]

/-- Clauses at different places have different numbers. -/
theorem id_ne_of_get? (h : s.Numbered) (hij : i ≠ j) (hi : s.store.get? i = some c)
    (hj : s.store.get? j = some d) : c.id ≠ d.id := by
  intro hid
  obtain rfl := h.eq_of_id_eq (Store.mem_of_get? hi) (Store.mem_of_get? hj) hid
  exact hij (h.eq_of_get?_eq hi hj)

end Saturation.Numbered

namespace Run

variable {r t : Run}

/-- A step that does not fail keeps the numbers different. -/
theorem Next.numbered (h : r.Next t) (hfail : ∀ fault, t.status ≠ .failed fault)
    (hr : r.state.Numbered) : t.state.Numbered := by
  cases h with
  | @resolve c d _ _ hsettles =>
    cases hsettles with
    | @stored state hstore hlastId =>
      have hkept : ∀ x ∈ (c.resolve r.state.limit r.state.lastId d).kept,
          r.state.lastId < x.id ∧ x.id ≤ state.lastId := by
        intro x hx
        obtain ⟨-, hlow, hhigh, -⟩ := Clause.resolventOn_of_mem_kept hx
        rw [hlastId]
        exact ⟨hlow, hhigh⟩
      constructor
      · dsimp only
        rw [hstore, List.map_append, List.nodup_append]
        refine ⟨hr.nodup, ?_, ?_⟩
        · have hpairwise := Clause.pairwise_kept_resolveOn r.state.limit c d r.state.lastId
            (Clause.clashingPairs c d)
          exact (List.pairwise_map.2 hpairwise).imp Nat.ne_of_lt
        · -- no new number is an old one, for the old ones are at most the last one issued
          intro a ha b hb
          obtain ⟨x, hx, rfl⟩ := List.mem_map.1 ha
          obtain ⟨y, hy, rfl⟩ := List.mem_map.1 hb
          have hxle := hr.le_lastId x hx
          have hylt := (hkept y hy).1
          omega
      · intro x hx
        dsimp only at hx ⊢
        rw [hstore] at hx
        rcases List.mem_append.1 hx with hx | hx
        · have hle := Clause.le_lastId_resolveOn r.state.limit c d r.state.lastId
            (Clause.clashingPairs c d)
          rw [hlastId]
          exact (hr.le_lastId x hx).trans hle
        · exact (hkept x hx).2
    | failed => exact absurd rfl (hfail _)
  | skip => exact ⟨hr.nodup, hr.le_lastId⟩
  | advance => exact ⟨hr.nodup, hr.le_lastId⟩
  | stop => exact ⟨hr.nodup, hr.le_lastId⟩
  | rest => exact hr

/-- Numbers stay different all along a run that saturates. -/
theorem numbered_steps {n : Nat} (h : (steps n r).status = .finished .satisfiable)
    (hr : r.state.Numbered) (k : Nat) : (steps k r).state.Numbered := by
  induction k with
  | zero => exact hr
  | succ k ih =>
    rw [steps_succ_last]
    refine (steps k r).next_step.numbered ?_ ih
    intro fault hfail
    rcases step_status_of_satisfiable (finished_of_steps h k) with hstatus | hstatus
    · rw [hstatus] at hfail
      cases hfail
    · rw [hstatus] at hfail
      cases hfail

/-- A step keeps every variable with its clause. -/
theorem Next.ownsVars (h : r.Next t) (hr : ∀ c ∈ r.state.store.toList, c.OwnsVars) :
    ∀ c ∈ t.state.store.toList, c.OwnsVars := by
  obtain ⟨pre, hstore, hpre⟩ := h.exists_toList
  rw [hstore]
  intro x hx
  rcases List.mem_append.1 hx with hx | hx
  · exact hr x hx
  · obtain ⟨c, d, -, hkept⟩ := hpre x hx
    obtain ⟨⟨l, m, -, hres⟩, -⟩ := Clause.resolventOn_of_mem_kept hkept
    exact hres.ownsVars

/-- Every variable stays with its clause all along a run. -/
theorem ownsVars_steps (hr : ∀ c ∈ r.state.store.toList, c.OwnsVars) (n : Nat) :
    ∀ c ∈ (steps n r).state.store.toList, c.OwnsVars := by
  induction n generalizing r with
  | zero => exact hr
  | succ n ih => exact ih (r.next_step.ownsVars hr)

end Run

/-! ### Clauses that are read -/

theorem Line.id_of_read {line : Line} {id : Nat} {c : Clause} (h : line.read id = .ok c) :
    c.id = id := by
  unfold Line.read at h
  split at h
  · cases h
  · next hread =>
    cases h
    obtain ⟨ls, -, rfl⟩ := map_eq_ok_iff.1 hread
    rfl

/-- Clauses that are read together are numbered one after the other. -/
theorem map_id_of_readClauses {lastId : Nat} {source : List Char} {cs : List Clause}
    (h : readClauses lastId source = .ok cs) :
    cs.map Clause.id = List.range' (lastId + 1) cs.length := by
  have hlines := mapM_eq_ok_iff.1 h
  generalize liveLines source = lines at hlines
  generalize lastId + 1 = first at hlines ⊢
  clear h
  induction lines generalizing first cs with
  | nil =>
    rw [List.zipIdx_nil, List.map_nil] at hlines
    rw [List.map_eq_nil_iff.1 hlines.symm]
    rfl
  | cons line lines ih =>
    cases cs with
    | nil => cases hlines
    | cons c cs =>
      rw [List.zipIdx_cons, List.map_cons, List.map_cons] at hlines
      obtain ⟨hline, hrest⟩ := List.cons.inj hlines
      rw [List.map_cons, List.length_cons, List.range'_succ, Line.id_of_read hline, ih _ hrest]

/-- The state before the first run on clauses that were read together. -/
def Saturation.ofRead (cs : List Clause) (limit : Limit) : Saturation :=
  initial cs cs.length limit

/-- Clauses that are read together have different numbers. -/
theorem numbered_of_readClauses {source : List Char} {cs : List Clause}
    (h : readClauses 0 source = .ok cs) (limit : Limit) :
    (Saturation.ofRead cs limit).Numbered := by
  have hids := map_id_of_readClauses h
  constructor
  · show (cs.map Clause.id).Nodup
    rw [hids]
    exact List.nodup_range'
  · intro c hc
    have hmem : c.id ∈ cs.map Clause.id := List.mem_map_of_mem hc
    rw [hids, List.mem_range'_1] at hmem
    show c.id ≤ cs.length
    omega

end Refutation
