import Mathlib.Data.List.Nodup
import Refutation.Proofs.Naming

/-!
# The ways through a term

The variables of a term can be listed, collected without repetitions, looked for one by one and
replaced.  Each of these goes through the term by a recursion of its own, and they agree on which
variables there are.  The collection is made in one walk, which takes a variable along unless it has
it already; so it keeps the order in which the variables are first met.

## Main definitions

* `Term.toVar?` — the variable that a term is.
* `Term.collect` — the variables of a term are added to those met before.

## Main results

* `Term.occurrences_eq_filterMap` — positions are listed as the term is written, from the outside
  in and from left to right.
* `Term.collect_eq` — the walk collects the distinct variables.
* `Term.pairwise_idxOf_vars` — the variables come in the order in which they are first met.
* `Term.replace_eq_self_iff` — a replacement that changes nothing.
* `Term.traversals_agree` — **all ways through a term agree on its variables**.
-/

namespace Refutation

/-! ### Lists without repetitions -/

/-- Without repetitions, members come in the order of their first places. -/
theorem pairwise_idxOf_eraseDups {α : Type} [DecidableEq α] (l : List α) :
    l.eraseDups.Pairwise fun a b => l.idxOf a < l.idxOf b := by
  induction l using List.reverseRecOn with
  | nil => exact .nil
  | append_singleton l x ih =>
    -- one more member does not change the first places of those before it
    have hplace : ∀ {a : α}, a ∈ l → (l ++ [x]).idxOf a = l.idxOf a :=
      fun ha => List.idxOf_append_of_mem ha
    have hold : l.eraseDups.Pairwise fun a b => (l ++ [x]).idxOf a < (l ++ [x]).idxOf b := by
      refine ih.imp_of_mem fun ha hb hlt => ?_
      rwa [hplace (List.mem_eraseDups.1 ha), hplace (List.mem_eraseDups.1 hb)]
    rw [eraseDups_concat]
    split
    · exact hold
    · next hx =>
      refine List.pairwise_append.2 ⟨hold, List.pairwise_singleton _ _, fun a ha b hb => ?_⟩
      obtain rfl := List.mem_singleton.1 hb
      have hmem := List.mem_eraseDups.1 ha
      rw [hplace hmem, List.idxOf_append_of_notMem hx]
      exact (List.idxOf_lt_length_of_mem hmem).trans_le (Nat.le_add_right _ _)

namespace Term

variable {t r : Term} {v w : Var}

/-! ### Positions -/

/-- The variable that a term is, if it is one. -/
def toVar? : Term → Option Var
  | .var v => some v
  | .const _ | .app _ _ => none

/-- The positions of variables are listed as the terms inside a term are. -/
theorem occurrences_eq_filterMap (t : Term) : t.occurrences = t.subterms.filterMap toVar? := by
  induction t using induction with
  | var v => rfl
  | const a => rfl
  | app f ts ih =>
    rw [occurrences_app, subterms_app, List.filterMap_cons_none rfl, List.filterMap_flatMap,
      List.flatMap_def, List.flatMap_def, List.map_congr_left ih]

/-! ### Distinct variables -/

mutual

/-- Add the variables of a term to those met before. -/
def collect (met : List Var) : Term → List Var
  | .var v => if met.contains v then met else met ++ [v]
  | .const _ => met
  | .app _ ts => collectList met ts

/-- Add the variables of an argument list to those met before. -/
def collectList (met : List Var) : List Term → List Var
  | [] => met
  | t :: ts => collectList (t.collect met) ts

end

mutual

/-- The walk goes on from what has been written before. -/
theorem collect_eraseDups (us : List Var) :
    (t : Term) → t.collect us.eraseDups = (us ++ t.occurrences).eraseDups
  | .var v => by
    rw [collect, occurrences_var, eraseDups_concat]
    simp
  | .const a => by
    rw [collect, occurrences_const, List.append_nil]
  | .app f ts => collectList_eraseDups us ts

theorem collectList_eraseDups (us : List Var) :
    (ts : List Term) → collectList us.eraseDups ts = (us ++ occurrencesList ts).eraseDups
  | [] => by
    rw [collectList, occurrencesList, List.append_nil]
  | t :: ts => by
    rw [collectList, collect_eraseDups us t, collectList_eraseDups _ ts, occurrencesList,
      List.append_assoc]

end

/-- The walk collects the distinct variables. -/
theorem collect_eq (t : Term) : t.collect [] = t.vars := collect_eraseDups [] t

/-- The variables come in the order in which they are first met. -/
theorem pairwise_idxOf_vars (t : Term) :
    t.vars.Pairwise fun v w => t.occurrences.idxOf v < t.occurrences.idxOf w :=
  pairwise_idxOf_eraseDups t.occurrences

/-- A term without variables has no positions for them. -/
theorem isGround_eq_true_iff : t.isGround = true ↔ t.occurrences = [] := by
  induction t using induction with
  | var v => simp
  | const a => simp
  | app f ts ih =>
    rw [isGround_app, List.all_eq_true, occurrences_app, List.flatMap_eq_nil_iff]
    exact forall₂_congr ih

theorem vars_eq_nil_iff : t.vars = [] ↔ t.occurrences = [] := by
  rw [List.eq_nil_iff_forall_not_mem, List.eq_nil_iff_forall_not_mem]
  exact forall_congr' fun v => not_congr mem_vars

/-! ### Replacement -/

/-- A replacement that changes nothing sends each variable of the term to itself. -/
theorem eq_var_of_subst_eq_self {θ : Var → Term} (h : t.subst θ = t) (hv : v ∈ t.occurrences) :
    θ v = var v := by
  induction t using induction with
  | var w =>
    obtain rfl := List.mem_singleton.1 hv
    exact h
  | const a => cases hv
  | app f ts ih =>
    rw [subst_app, app.injEq] at h
    obtain ⟨u, hu, hv⟩ := List.mem_flatMap.1 (occurrences_app f ts ▸ hv)
    have hself : ts.map (subst θ) = ts.map id := h.2.trans (List.map_id ts).symm
    exact ih u hu (List.map_eq_map_iff.1 hself u hu) hv

/-- A variable is replaced without a change only if it does not occur or is put in its own place. -/
theorem replace_eq_self_iff : t.replace v r = t ↔ v ∉ t.occurrences ∨ r = var v := by
  constructor
  · intro h
    by_cases hv : v ∈ t.occurrences
    · have hr := eq_var_of_subst_eq_self h hv
      rw [if_pos rfl] at hr
      exact Or.inr hr
    · exact Or.inl hv
  · rintro (hv | rfl)
    · exact replace_of_notMem hv
    · rw [replace]
      refine (subst_congr fun w _ => ?_).trans (subst_self t)
      split
      · next hw => rw [hw]
      · rfl

/-- **All ways through a term agree on its variables.** They are listed at all their positions as
the term is written, and collected without repetitions, whether in one walk or from that list, in
the order in which they are first met.  The collection has the variables for which the test
succeeds, and is empty for the terms without variables.  Replacing a variable changes a term unless
the variable does not occur or is put in its own place, and leaves the other variables and those
that come with the replacement. -/
theorem traversals_agree (t : Term) (v : Var) (r : Term) :
    t.occurrences = t.subterms.filterMap toVar? ∧
      t.collect [] = t.vars ∧
      t.vars.Nodup ∧
      t.vars.Pairwise (fun u w => t.occurrences.idxOf u < t.occurrences.idxOf w) ∧
      (v ∈ t.vars ↔ var v ∈ t.subterms) ∧
      (t.occurs v = true ↔ v ∈ t.vars) ∧
      (t.isGround = true ↔ t.vars = []) ∧
      (t.replace v r = t ↔ t.occurs v = false ∨ r = var v) ∧
      ∀ w, (t.replace v r).occurs w = true ↔
        (t.occurs w = true ∧ w ≠ v) ∨ (t.occurs v = true ∧ r.occurs w = true) := by
  have hvar : ∀ s : Term, s.toVar? = some v ↔ s = var v := by
    intro s
    cases s with
    | var w => simp [toVar?]
    | const a => simp [toVar?]
    | app f ts => simp [toVar?]
  refine ⟨occurrences_eq_filterMap t, collect_eq t, nodup_vars t, pairwise_idxOf_vars t, ?_,
    occurs_eq_true_iff.trans mem_vars.symm, isGround_eq_true_iff.trans vars_eq_nil_iff.symm, ?_, ?_⟩
  · rw [mem_vars, occurrences_eq_filterMap, List.mem_filterMap]
    simp only [hvar, exists_eq_right]
  · rw [replace_eq_self_iff, ← occurs_eq_true_iff, Bool.not_eq_true]
  · intro w
    rw [occurs_eq_true_iff, occurs_eq_true_iff, occurs_eq_true_iff, occurs_eq_true_iff]
    exact mem_occurrences_replace

end Term
end Refutation
