import Refutation.Proofs.Course
import Refutation.Semantics

/-!
# Runs are sound

A candidate holds wherever its parents do, and then twice over: a literal of each parent's part
holds.  Of two complementary literals only one holds, so cancelling them leaves one that does.  This
covers the cancellations within one parent too.

## Main results

* `Clause.ResolventOn.models` — a resolvent is true wherever its parents are.
* `Run.models_steps` — whatever a run stores is true wherever the initial clauses are.
* `Saturation.entails_and_not_satisfiable` — **runs are sound**.
-/

namespace Refutation

universe u

variable {D : Type u} {I : Interpretation D} {ρ : Var → D}

/-! ### Literals -/

/-- Substituting into a literal changes the assignment. -/
theorem Literal.holds_mapArgs_subst (I : Interpretation D) (ρ : Var → D) (θ : Var → Term)
    (l : Literal) :
    (l.mapArgs (Term.subst θ)).Holds I ρ ↔ l.Holds I fun v => (θ v).value I ρ := by
  have hargs : (l.args.map (Term.subst θ)).map (Term.value I ρ) =
      l.args.map (Term.value I fun v => (θ v).value I ρ) := by
    rw [List.map_map]
    exact List.map_congr_left fun t _ => Term.value_subst I ρ θ t
  rw [Holds, Holds, mapArgs]
  dsimp only
  rw [hargs]

/-- Of two complementary literals only one holds. -/
theorem Literal.not_holds_of_complements {l m : Literal} (h : l.complements m = true)
    (hl : l.Holds I ρ) : ¬ m.Holds I ρ := by
  obtain ⟨hsign, hpred, hargs⟩ := complements_eq_true_iff.1 h
  intro hm
  rw [Holds, hpred, hargs, hsign] at hl
  have hflip : (!m.positive) = true ↔ m.positive = true := hl.symm.trans hm
  cases m.positive <;> simp at hflip

/-- Where two literals hold, one is left when two complementary ones are taken out. -/
theorem exists_holds_of_perm {ls ms ks : List Literal} {l m : Literal}
    (hcompl : l.complements m = true) (hperm : (ls ++ ms).Perm (l :: m :: ks))
    (hls : ∃ x ∈ ls, x.Holds I ρ) (hms : ∃ x ∈ ms, x.Holds I ρ) : ∃ x ∈ ks, x.Holds I ρ := by
  classical
  by_contra hnone
  -- two literals hold before cancelling, one of those cancelled, and none of those left
  have hks : ks.countP (fun x => decide (x.Holds I ρ)) = 0 := by
    rw [List.countP_eq_zero]
    intro x hx hholds
    exact hnone ⟨x, hx, of_decide_eq_true hholds⟩
  have hcount : (l :: m :: ks).countP (fun x => decide (x.Holds I ρ)) ≤ 1 := by
    rw [List.countP_cons, List.countP_cons, hks]
    split
    · next hm =>
      rw [if_neg]
      intro hl
      exact Literal.not_holds_of_complements hcompl (of_decide_eq_true hl) (of_decide_eq_true hm)
    · split <;> omega
  have hposl : 0 < ls.countP (fun x => decide (x.Holds I ρ)) := by
    obtain ⟨x, hx, hholds⟩ := hls
    exact List.countP_pos_iff.2 ⟨x, hx, decide_eq_true hholds⟩
  have hposm : 0 < ms.countP (fun x => decide (x.Holds I ρ)) := by
    obtain ⟨x, hx, hholds⟩ := hms
    exact List.countP_pos_iff.2 ⟨x, hx, decide_eq_true hholds⟩
  rw [← hperm.countP_eq, List.countP_append] at hcount
  omega

/-! ### Clauses -/

/-- An instance of a true clause holds under every assignment. -/
theorem Clause.exists_holds_instance {c : Clause} (h : I.Models c) (ρ : Var → D)
    (θ : Var → Term) :
    ∃ l ∈ c.literals.map (·.mapArgs (Term.subst θ)), l.Holds I ρ := by
  obtain ⟨l, hl, hholds⟩ := h fun v => (θ v).value I ρ
  exact ⟨_, List.mem_map_of_mem hl, (Literal.holds_mapArgs_subst I ρ θ l).2 hholds⟩

/-- A resolvent is true wherever its parents are. -/
theorem Clause.ResolventOn.models {c d r : Clause} {l m : Literal} (h : ResolventOn c d l m r)
    (hc : I.Models c) (hd : I.Models d) : I.Models r := by
  intro ρ
  obtain ⟨σ, -, hr⟩ := h
  obtain ⟨x, y, hcompl, hperm⟩ := perm_of_cancelPair? (cancelPair?_of_cancel? hr)
  rw [literals_candidate, List.map_append] at hperm
  exact exists_holds_of_perm hcompl hperm (exists_holds_instance hc ρ _)
    (exists_holds_instance hd ρ _)

/-! ### Runs -/

/-- A step keeps the store true. -/
theorem Run.Next.models {r t : Run} (h : r.Next t)
    (hr : ∀ c ∈ r.state.store.toList, I.Models c) :
    ∀ c ∈ t.state.store.toList, I.Models c := by
  obtain ⟨pre, hstore, hpre⟩ := h.exists_toList
  rw [hstore]
  intro x hx
  rcases List.mem_append.1 hx with hx | hx
  · exact hr x hx
  · obtain ⟨c, d, hact, hkept⟩ := hpre x hx
    obtain ⟨hc, hd⟩ := mem_of_action_eq_resolve hact
    obtain ⟨⟨l, m, -, hres⟩, -⟩ := Clause.resolventOn_of_mem_kept hkept
    exact hres.models (hr c hc) (hr d hd)

/-- Whatever a run stores is true wherever the clauses that it begins with are. -/
theorem Run.models_steps {r : Run} (hr : ∀ c ∈ r.state.store.toList, I.Models c) (n : Nat) :
    ∀ c ∈ (steps n r).state.store.toList, I.Models c := by
  induction n generalizing r with
  | zero => exact hr
  | succ n ih => exact ih (r.next_step.models hr)

/-- **Runs are sound.**  Every clause in the store follows from the initial ones, and the answer
that these are unsatisfiable is right. -/
theorem Saturation.entails_and_not_satisfiable (s : Saturation) :
    (∀ n, ∀ c ∈ (Run.steps n (Run.start s)).state.store.toList,
      Entails.{u} s.store.toList c) ∧
      ((Run.start s).Yields .unsatisfiable → ¬ Satisfiable.{u} s.store.toList) := by
  refine ⟨?_, ?_⟩
  · intro n c hc D _ I hI
    exact Run.models_steps (r := Run.start s) hI n c hc
  · rintro hyields ⟨D, hD, I, hI⟩
    obtain ⟨n, hrun, hend⟩ := Run.exists_step_of_yields (r := Run.start s) rfl hyields
    have hmodels := Run.models_steps (r := Run.start s) hI n
    obtain ⟨c, d, hact, hrefuted⟩ := (Run.next_step _).exists_refuted hrun hend
    obtain ⟨hc, hd⟩ := Run.mem_of_action_eq_resolve hact
    obtain ⟨l, m, r, hres, hempty⟩ := Clause.resolventOn_of_refuted hrefuted
    -- the empty resolvent would have to have a literal that holds
    obtain ⟨x, hx, -⟩ := hres.models (hmodels c hc) (hmodels d hd) fun _ => hD.some
    rw [hempty] at hx
    cases hx

theorem Saturation.entails_and_not_satisfiable_three :
    (Entails.{0} [⟨1, [⟨true, "p", [.const "a"]⟩, ⟨true, "q", []⟩]⟩,
        ⟨2, [⟨false, "p", [.var ⟨"X", 2⟩]⟩]⟩, ⟨3, [⟨false, "q", []⟩]⟩] ⟨4, [⟨true, "q", []⟩]⟩) ∧
      ¬ Satisfiable.{0} [⟨1, [⟨true, "p", [.const "a"]⟩, ⟨true, "q", []⟩]⟩,
        ⟨2, [⟨false, "p", [.var ⟨"X", 2⟩]⟩]⟩, ⟨3, [⟨false, "q", []⟩]⟩] := by
  have hsound := entails_and_not_satisfiable.{0}
    (.initial [⟨1, [⟨true, "p", [.const "a"]⟩, ⟨true, "q", []⟩]⟩,
      ⟨2, [⟨false, "p", [.var ⟨"X", 2⟩]⟩]⟩, ⟨3, [⟨false, "q", []⟩]⟩] 3 .unlimited)
  exact ⟨hsound.1 2 _ (by decide +kernel), hsound.2 ⟨11, by decide +kernel⟩⟩

end Refutation
