import Refutation.Proofs.Herbrand
import Refutation.Proofs.Units

/-!
# Instances of candidates and resolvents

An instance of a candidate is one of both parents, taken by one replacement.  The other way round,
instances of the parents in which the literals resolved on agree are lifted: the literals unify, and
some instance of the candidate is just these.  So what can be resolved on instances of two clauses
is an instance of what can be resolved on the clauses.

## Main results

* `Clause.inst_candidate` — an instance of a candidate is given by instances of its parents.
* `Clause.exists_inst_candidate` — instances of the parents are given by one of the candidate.
* `Clause.ResolventOn.exists_inst`, `Clause.ResolventOn.exists_parents` — the same of a resolvent, up
  to the order of its literals and two complementary ones.
* `Clause.exists_lift` — **a resolution on instances is lifted to the clauses**.
-/

namespace Refutation
namespace Clause

variable {c d x : Clause} {l m : Literal} {σ : Substitution} {θ : Var → Term}

/-- An instance of an instance. -/
theorem map_inst (c : Clause) (θ η : Var → Term) :
    (c.inst θ).map (·.mapArgs (Term.subst η)) = c.inst fun v => (θ v).subst η := by
  rw [inst, inst, List.map_map]
  refine List.map_congr_left ?_
  intro l _
  rw [Function.comp_apply, Literal.mapArgs_mapArgs]
  exact congrArg (l.mapArgs ·) (funext (Term.subst_subst θ η))

/-! ### Candidates -/

/-- The instances of a candidate are instances of both parents by one replacement. -/
theorem inst_candidate (id : Nat) (σ : Substitution) (c d : Clause) (η : Var → Term) :
    (candidate id σ c d).inst η =
      (c.inst fun v => (instantiation id σ c d v).subst η) ++
        d.inst fun v => (instantiation id σ c d v).subst η := by
  show (candidate id σ c d).literals.map (·.mapArgs (Term.subst η)) = _
  rw [literals_candidate, List.map_append, List.map_append, ← map_inst, ← map_inst]
  rfl

/-- A replacement that factors through the unifier gives no other instances of the parents than the
candidate has. -/
theorem exists_inst_candidate (h : σ.Factors θ) (id : Nat) (c d : Clause) :
    ∃ η, (candidate id σ c d).inst η = c.inst θ ++ d.inst θ := by
  obtain ⟨η, hη⟩ := exists_subst_candidate h id c d
  refine ⟨η, ?_⟩
  show (candidate id σ c d).literals.map (·.mapArgs (Term.subst η)) = _
  rw [literals_candidate, List.map_map, inst, inst, ← List.map_append]
  exact List.map_congr_left hη

/-! ### Resolvents -/

/-- The instances of a resolvent are those of its candidate less two complementary literals. -/
theorem exists_perm_of_cancel? {id : Nat} (h : (candidate id σ c d).cancel? = some x)
    (η : Var → Term) :
    ∃ y, ((candidate id σ c d).inst η).Perm (y :: y.compl :: x.inst η) := by
  obtain ⟨y, z, hyz, hperm⟩ := perm_of_cancelPair? (cancelPair?_of_cancel? h)
  obtain rfl := Literal.complements_iff_eq_compl.1 hyz
  exact ⟨y.mapArgs (Term.subst η), hperm.map _⟩

namespace ResolventOn

/-- Instances of the parents in which the literals resolved on agree give an instance of the
resolvent. -/
theorem exists_inst (h : ResolventOn c d l m x)
    (hθ : l.args.map (Term.subst θ) = m.args.map (Term.subst θ)) :
    ∃ η y, (c.inst θ ++ d.inst θ).Perm (y :: y.compl :: x.inst η) := by
  obtain ⟨σ, hσ, hx⟩ := h
  obtain ⟨η, hη⟩ := exists_inst_candidate (Term.factors_of_unifyAll hσ hθ) x.id c d
  obtain ⟨y, hy⟩ := exists_perm_of_cancel? hx η
  rw [hη] at hy
  exact ⟨η, y, hy⟩

/-- Every instance of a resolvent is given by instances of its parents in which the literals
resolved on agree. -/
theorem exists_parents (h : ResolventOn c d l m x) (η : Var → Term) :
    ∃ τ y, l.args.map (Term.subst τ) = m.args.map (Term.subst τ) ∧
      (c.inst τ ++ d.inst τ).Perm (y :: y.compl :: x.inst η) := by
  obtain ⟨σ, hσ, hx⟩ := h
  obtain ⟨y, hy⟩ := exists_perm_of_cancel? hx η
  rw [inst_candidate] at hy
  refine ⟨_, y, ?_, hy⟩
  rw [← Literal.map_subst_map_subst, ← Literal.map_subst_map_subst,
    map_subst_instantiation hσ x.id c d]

end ResolventOn

/-! ### Lifting -/

/-- **A resolution on instances is lifted to the clauses.**  Let a replacement make the arguments of
two clashing literals equal, one of each clause.  Then these unify, and whatever number the
candidate gets, it has an instance that is, literal by literal, what the replacement makes of the
two clauses.  The resolvent has the same literals in that instance, but for two complementary
ones. -/
theorem exists_lift (c d : Clause) (l m : Literal) (hl : l ∈ c.literals) (hm : m ∈ d.literals)
    (hclash : l.clashes m = true) (θ : Var → Term)
    (hθ : l.args.map (Term.subst θ) = m.args.map (Term.subst θ)) :
    ∃ σ, Term.unifyAll l.args m.args = .ok σ ∧ ∀ id, ∃ δ : Var → Term,
      (candidate id σ c d).literals.map (·.mapArgs (Term.subst δ)) =
        (c.literals ++ d.literals).map (·.mapArgs (Term.subst θ)) ∧
      ∃ r y, (candidate id σ c d).cancel? = some r ∧
        (c.inst θ ++ d.inst θ).Perm (y :: y.compl :: r.inst δ) := by
  obtain ⟨σ, hσ⟩ := Term.unifyAll_eq_ok_iff.2 ⟨θ, hθ⟩
  refine ⟨σ, hσ, fun id => ?_⟩
  obtain ⟨δ, hδ⟩ := exists_inst_candidate (Term.factors_of_unifyAll hσ hθ) id c d
  obtain ⟨r, -, hr, -⟩ := exists_resolventOn hl hm hclash hσ id
  obtain ⟨y, hy⟩ := exists_perm_of_cancel? hr δ
  refine ⟨δ, ?_, r, y, hr, hδ ▸ hy⟩
  rw [List.map_append]
  exact hδ

/-- The clauses share the variable `Y`, and the replacement gives it a ground term. -/
theorem exists_lift_shared :
    let v : String → Term := fun name => .var ⟨name, 1⟩
    let c : Clause := ⟨1, [⟨true, "q", [v "Y"]⟩, ⟨true, "p", [v "X", v "Y"]⟩]⟩
    let d : Clause := ⟨2, [⟨false, "p", [.app "f" [v "Y"], v "Y"]⟩]⟩
    let θ : Var → Term := fun v => if v.name = "X" then .app "f" [.const "a"] else .const "a"
    ∃ σ, Term.unifyAll [v "X", v "Y"] [.app "f" [v "Y"], v "Y"] = .ok σ ∧
      ∀ id, ∃ δ : Var → Term,
        (candidate id σ c d).literals.map (·.mapArgs (Term.subst δ)) =
          [⟨true, "q", [.const "a"]⟩, ⟨true, "p", [.app "f" [.const "a"], .const "a"]⟩,
            ⟨false, "p", [.app "f" [.const "a"], .const "a"]⟩] ∧
        ∃ r y, (candidate id σ c d).cancel? = some r ∧
          (c.inst θ ++ d.inst θ).Perm (y :: y.compl :: r.inst δ) := by
  intro v c d θ
  exact exists_lift c d ⟨true, "p", [v "X", v "Y"]⟩ ⟨false, "p", [.app "f" [v "Y"], v "Y"]⟩
    (by decide) (by decide) (by decide) θ (by decide)

end Clause
end Refutation
