import Refutation.Proofs.Scopes
import Refutation.Proofs.Variants

/-!
# Runs on renamed clauses

Two runs whose initial clauses differ in the names of their variables go in step: at each step they
resolve the clauses at the same two places, and what they store is the same to the last name, for
the variables of a resolvent are named anew.  So they come to the same outcome, or go on for ever
together.

## Main definitions

* `Saturation.Alike` — the same clauses have been added to different ones.
* `Run.InStep` — two runs have got equally far.

## Main results

* `Saturation.Alike.keepAll` — what can be stored in one of two stores can be stored in the other.
* `Run.InStep.step` — runs in step stay in step.
* `Run.inStep_of_variants` — **names do not matter to a run**.
-/

namespace Refutation

/-! ### Stores -/

/-- Whether a clause is added depends on the numbers in the store only. -/
theorem Store.isSome_push? (s : Store) (c : Clause) :
    (s.push? c).isSome = (s.toList.map Clause.id).getLast?.all fun last => last < c.id := by
  have haccepts : s.accepts c = (s.toList.map Clause.id).getLast?.all fun last => last < c.id := by
    rw [accepts, ← Array.getLast?_toList, List.getLast?_map, toList]
    cases s.clauses.toList.getLast? with
    | none => rfl
    | some last => rfl
  rw [push?, haccepts]
  split
  · next h => exact h.symm
  · next h => exact (Bool.eq_false_iff.2 h).symm

/-- The clauses that have been added to `cs` in one saturation and to `ds` in the other are the
same, and so is all else. -/
structure Saturation.Alike (cs ds : List Clause) (s t : Saturation) : Prop where
  toList : ∃ derived, s.store.toList = cs ++ derived ∧ t.store.toList = ds ++ derived
  lastId : s.lastId = t.lastId
  limit : s.limit = t.limit
  kept : s.kept = t.kept

namespace Saturation.Alike

variable {cs ds : List Clause} {s t : Saturation}

/-- The clauses at one place are variants of each other: an initial one of an initial one, and a
derived one of itself. -/
theorem forall₂ (hvariants : List.Forall₂ Clause.Variant cs ds) (h : Alike cs ds s t) :
    List.Forall₂ Clause.Variant s.store.toList t.store.toList := by
  obtain ⟨derived, hs, ht⟩ := h.toList
  rw [hs, ht]
  exact List.rel_append hvariants (List.forall₂_same.2 fun c _ => .refl c)

theorem map_id (hvariants : List.Forall₂ Clause.Variant cs ds) (h : Alike cs ds s t) :
    s.store.toList.map Clause.id = t.store.toList.map Clause.id := by
  refine List.forall₂_eq_eq_eq ▸ List.forall₂_map_left_iff.2 (List.forall₂_map_right_iff.2 ?_)
  exact (h.forall₂ hvariants).imp fun c d hcd => hcd.id_eq.symm

theorem size (hvariants : List.Forall₂ Clause.Variant cs ds) (h : Alike cs ds s t) :
    s.store.size = t.store.size :=
  (h.forall₂ hvariants).length_eq

/-- At any place there is a clause in both stores or in neither. -/
theorem get? (hvariants : List.Forall₂ Clause.Variant cs ds) (h : Alike cs ds s t) (i : Nat) :
    (s.store.get? i = none ∧ t.store.get? i = none) ∨
      ∃ c d, s.store.get? i = some c ∧ t.store.get? i = some d ∧ c.Variant d := by
  have hsize : s.store.toList.length = t.store.toList.length := h.size hvariants
  by_cases hi : i < s.store.toList.length
  · have hi' : i < t.store.toList.length := hsize ▸ hi
    refine Or.inr ⟨s.store.toList[i], t.store.toList[i], ?_, ?_, ?_⟩
    · rw [← Store.getElem?_toList, List.getElem?_eq_getElem hi]
    · rw [← Store.getElem?_toList, List.getElem?_eq_getElem hi']
    · exact (h.forall₂ hvariants).get hi hi'
  · rw [Store.get?_eq_none_iff, Store.get?_eq_none_iff]
    exact Or.inl ⟨Nat.le_of_not_lt hi, hsize.ge.trans (Nat.le_of_not_lt hi)⟩

/-- What can be stored in one of two stores can be stored in the other. -/
theorem keepAll (hvariants : List.Forall₂ Clause.Variant cs ds) (h : Alike cs ds s t)
    (xs : List Clause) :
    (s.keepAll xs).2 = (t.keepAll xs).2 ∧ Alike cs ds (s.keepAll xs).1 (t.keepAll xs).1 := by
  induction xs generalizing s t with
  | nil => exact ⟨rfl, h⟩
  | cons x xs ih =>
    have hpush : (s.store.push? x).isSome = (t.store.push? x).isSome := by
      rw [Store.isSome_push?, Store.isSome_push?, h.map_id hvariants]
    rw [Saturation.keepAll, Saturation.keepAll]
    cases hs : s.store.push? x with
    | none =>
      cases ht : t.store.push? x with
      | none => exact ⟨rfl, h⟩
      | some store =>
        rw [hs, ht] at hpush
        cases hpush
    | some store =>
      cases ht : t.store.push? x with
      | none =>
        rw [hs, ht] at hpush
        cases hpush
      | some store' =>
        refine ih ⟨?_, h.lastId, h.limit, congrArg (· + 1) h.kept⟩
        obtain ⟨derived, hderived, hderived'⟩ := h.toList
        refine ⟨derived ++ [x], ?_, ?_⟩
        · rw [Store.toList_of_push? hs, hderived, List.append_assoc]
        · rw [Store.toList_of_push? ht, hderived', List.append_assoc]

end Saturation.Alike

/-! ### Runs -/

namespace Run

/-- Two runs have got equally far, with the same clauses derived from different ones. -/
structure InStep (cs ds : List Clause) (r t : Run) : Prop where
  state : r.state.Alike cs ds t.state
  cursor : r.cursor = t.cursor
  index : r.index = t.index
  status : r.status = t.status

namespace InStep

variable {cs ds : List Clause} {r t : Run}

/-- Runs in step resolve variants of the same clauses, or both do the same else. -/
theorem action (hvariants : List.Forall₂ Clause.Variant cs ds) (h : InStep cs ds r t) :
    (∃ c d c' d', r.action = .resolve c d ∧ t.action = .resolve c' d' ∧
        c.Variant c' ∧ d.Variant d') ∨
      (r.action = t.action ∧ ∀ c d, r.action ≠ .resolve c d) := by
  unfold Run.action
  rw [← h.status, ← h.cursor, ← h.index, ← h.state.size hvariants]
  split
  · split
    · rcases h.state.get? hvariants r.cursor with ⟨hr, ht⟩ | ⟨c, c', hr, ht, hc⟩
      · rw [hr, ht]
        exact Or.inr ⟨rfl, fun c d hact => by cases hact⟩
      · rw [hr, ht]
        rcases h.state.get? hvariants r.index with ⟨hr, ht⟩ | ⟨d, d', hr, ht, hd⟩
        · rw [hr, ht]
          exact Or.inr ⟨rfl, fun c d hact => by cases hact⟩
        · rw [hr, ht]
          have hsame : c'.sameAs d' = c.sameAs d := by
            rw [Clause.sameAs, Clause.sameAs, hc.id_eq, hd.id_eq]
          dsimp only
          rw [hsame]
          split
          · exact Or.inr ⟨rfl, fun c d hact => by cases hact⟩
          · exact Or.inl ⟨c, d, c', d', rfl, rfl, hc, hd⟩
    · exact Or.inr ⟨rfl, fun c d hact => by cases hact⟩
  · exact Or.inr ⟨rfl, fun c d hact => by cases hact⟩

/-- Runs in step that take in the same stay in step. -/
theorem settle (hvariants : List.Forall₂ Clause.Variant cs ds) (h : InStep cs ds r t)
    (pair : PairOutcome) : InStep cs ds (r.settle pair) (t.settle pair) := by
  have hissue : ({ r.state with lastId := pair.lastId } : Saturation).Alike cs ds
      { t.state with lastId := pair.lastId } :=
    { h.state with lastId := rfl }
  obtain ⟨hall, hstate⟩ := hissue.keepAll hvariants pair.kept
  unfold Run.settle
  split
  · exact ⟨{ h.state with lastId := rfl }, h.cursor, h.index, rfl⟩
  · generalize Saturation.keepAll _ pair.kept = result at hall hstate ⊢
    generalize Saturation.keepAll _ pair.kept = result' at hall hstate ⊢
    obtain ⟨state, all⟩ := result
    obtain ⟨state', all'⟩ := result'
    dsimp only at hall hstate ⊢
    rw [hall]
    exact ⟨hstate, h.cursor, congrArg (· + 1) h.index, rfl⟩

/-- Runs in step stay in step. -/
theorem step (hvariants : List.Forall₂ Clause.Variant cs ds) (h : InStep cs ds r t)
    (hr : ∀ c ∈ r.state.store.toList, c.OwnsVars) (ht : ∀ c ∈ t.state.store.toList, c.OwnsVars) :
    InStep cs ds r.step t.step := by
  rcases h.action hvariants with ⟨c, d, c', d', hact, hact', hc, hd⟩ | ⟨hact, hother⟩
  · obtain ⟨hcr, hdr⟩ := mem_of_action_eq_resolve hact
    obtain ⟨hct, hdt⟩ := mem_of_action_eq_resolve hact'
    obtain ⟨-, -, -, -, hid⟩ := action_eq_resolve_iff.1 hact
    obtain ⟨g, hg⟩ := Clause.Variant.resolve_eq (hr c hcr) (hr d hdr) (ht c' hct) (ht d' hdt) hid
      hc hd r.state.limit r.state.lastId
    rw [step_of_resolve hact, step_of_resolve hact', ← h.state.limit, ← h.state.lastId, hg]
    -- the unifications tried are of no account to what is stored
    exact h.settle hvariants _
  · unfold Run.step
    rw [← hact]
    cases hr : r.action with
    | resolve c d => exact absurd hr (hother c d)
    | skip => exact ⟨h.state, h.cursor, congrArg (· + 1) h.index, h.status⟩
    | advance => exact ⟨h.state, congrArg (· + 1) h.cursor, rfl, h.status⟩
    | stop => exact ⟨h.state, h.cursor, h.index, rfl⟩
    | rest => exact h

theorem steps (hvariants : List.Forall₂ Clause.Variant cs ds) (h : InStep cs ds r t)
    (hr : ∀ c ∈ r.state.store.toList, c.OwnsVars) (ht : ∀ c ∈ t.state.store.toList, c.OwnsVars)
    (n : Nat) : InStep cs ds (Run.steps n r) (Run.steps n t) := by
  induction n with
  | zero => exact h
  | succ n ih =>
    rw [steps_succ_last, steps_succ_last]
    exact ih.step hvariants (ownsVars_steps hr n) (ownsVars_steps ht n)

end InStep

/-- **Names do not matter to a run**: two runs whose initial clauses are variants of each other and
have variables of their own are in step all along.  They come to the same outcome, if they come to
any. -/
theorem inStep_of_variants {cs ds : List Clause} (lastId : Nat) (limit : Limit)
    (hvariants : List.Forall₂ Clause.Variant cs ds) (hcs : ∀ c ∈ cs, c.OwnsVars)
    (hds : ∀ d ∈ ds, d.OwnsVars) :
    (∀ n, InStep cs ds (steps n (start (.initial cs lastId limit)))
      (steps n (start (.initial ds lastId limit)))) ∧
    ∀ o, (start (.initial cs lastId limit)).Yields o ↔
      (start (.initial ds lastId limit)).Yields o := by
  have hstart : InStep cs ds (start (.initial cs lastId limit))
      (start (.initial ds lastId limit)) :=
    ⟨⟨⟨[], (List.append_nil cs).symm, (List.append_nil ds).symm⟩, rfl, rfl, rfl⟩, rfl, rfl, rfl⟩
  have hsteps := hstart.steps hvariants hcs hds
  refine ⟨hsteps, fun o => exists_congr fun n => ?_⟩
  rw [(hsteps n).status]

/-- Two runs on the same clauses under different names, one of which uses a name of the other for
another variable, have stored the same third clause after two steps. -/
theorem inStep_of_variants_swapped :
    let c : Clause := ⟨1, [⟨true, "p", [.var ⟨"X", 1⟩]⟩,
      ⟨true, "q", [.var ⟨"X", 1⟩, .app "f" [.var ⟨"Y", 1⟩]]⟩]⟩
    let c' : Clause := ⟨1, [⟨true, "p", [.var ⟨"Y", 1⟩]⟩,
      ⟨true, "q", [.var ⟨"Y", 1⟩, .app "f" [.var ⟨"B", 1⟩]]⟩]⟩
    let d : Clause := ⟨2, [⟨false, "p", [.app "g" [.var ⟨"Z", 2⟩]]⟩]⟩
    let d' : Clause := ⟨2, [⟨false, "p", [.app "g" [.var ⟨"A", 2⟩]]⟩]⟩
    let e : Clause := ⟨3, [⟨true, "q", [.app "g" [.var ⟨"A", 3⟩], .app "f" [.var ⟨"B", 3⟩]]⟩]⟩
    List.Forall₂ Clause.Variant [c, d] [c', d'] ∧
      (∀ x ∈ [c, d], x.OwnsVars) ∧ (∀ x ∈ [c', d'], x.OwnsVars) ∧
      (steps 2 (start (.initial [c, d] 2 .unlimited))).state.store.toList = [c, d, e] ∧
      InStep [c, d] [c', d'] (steps 2 (start (.initial [c, d] 2 .unlimited)))
        (steps 2 (start (.initial [c', d'] 2 .unlimited))) ∧
      (steps 2 (start (.initial [c', d'] 2 .unlimited))).state.store.toList = [c', d', e] := by
  intro c c' d d' e
  let f (v : Var) : Var := if v.name = "X" then ⟨"Y", 1⟩ else ⟨"B", 1⟩
  let g (_ : Var) : Var := ⟨"A", 2⟩
  have hf : ∀ v ∈ c.occurrences, ∀ w ∈ c.occurrences, f v = f w → v = w := by decide +kernel
  have hg : ∀ v ∈ d.occurrences, ∀ w ∈ d.occurrences, g v = g w → v = w := by decide +kernel
  have hvariants : List.Forall₂ Clause.Variant [c, d] [c', d'] :=
    .cons ⟨f, fun v hv w hw => hf v hv w hw, by decide +kernel⟩
      (.cons ⟨g, fun v hv w hw => hg v hv w hw, by decide +kernel⟩ .nil)
  have howns : ∀ x ∈ [c, d], ∀ v ∈ x.occurrences, v.clause = x.id := by decide +kernel
  have howns' : ∀ x ∈ [c', d'], ∀ v ∈ x.occurrences, v.clause = x.id := by decide +kernel
  have hstore :
      (steps 2 (start (.initial [c, d] 2 .unlimited))).state.store.toList = [c, d, e] := by
    decide +kernel
  have hstep := (inStep_of_variants 2 .unlimited hvariants howns howns').1 2
  obtain ⟨derived, hleft, hright⟩ := hstep.state.toList
  refine ⟨hvariants, howns, howns', hstore, hstep, ?_⟩
  -- what the first run has derived is what the second has
  have hderived : derived = [e] := List.append_cancel_left (hleft.symm.trans hstore)
  rw [hright, hderived]
  rfl

end Run

end Refutation
