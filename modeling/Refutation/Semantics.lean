import Refutation.Clause

/-!
# What clauses mean

An interpretation gives each constant an element of a domain, each function name a function on
lists of elements and each predicate name a relation on them; functions and predicates of one name
and different numbers of arguments are different.  A clause is true if under every assignment of
its variables one of its literals holds.

## Main definitions

* `Interpretation` — constants, functions and predicates over a domain.
* `Term.value`, `Literal.Holds`, `Clause.Holds` — values and truth under an assignment.
* `Interpretation.Models` — truth under every assignment.
* `Entails`, `Satisfiable` — consequence, and having a model.
-/

namespace Refutation

universe u

/-- A meaning for all names, over a domain. -/
structure Interpretation (D : Type u) where
  /-- The element that a constant stands for. -/
  const : String → D
  /-- The function that a function name stands for. -/
  func : String → List D → D
  /-- The relation that a predicate name stands for. -/
  pred : String → List D → Prop

variable {D : Type u}

namespace Term

mutual

/-- The value of a term under an assignment of its variables. -/
def value (I : Interpretation D) (ρ : Var → D) : Term → D
  | .var v => ρ v
  | .const a => I.const a
  | .app f ts => I.func f (valueList I ρ ts)

/-- The values of an argument list. -/
def valueList (I : Interpretation D) (ρ : Var → D) : List Term → List D
  | [] => []
  | t :: ts => t.value I ρ :: valueList I ρ ts

end

@[simp] theorem value_var (I : Interpretation D) (ρ : Var → D) (v : Var) :
    (var v).value I ρ = ρ v := rfl

@[simp] theorem value_const (I : Interpretation D) (ρ : Var → D) (a : String) :
    (const a).value I ρ = I.const a := rfl

theorem valueList_eq (I : Interpretation D) (ρ : Var → D) (ts : List Term) :
    valueList I ρ ts = ts.map (value I ρ) := by
  induction ts with
  | nil => rfl
  | cons t ts ih => simp [valueList, ih]

@[simp] theorem value_app (I : Interpretation D) (ρ : Var → D) (f : String) (ts : List Term) :
    (app f ts).value I ρ = I.func f (ts.map (value I ρ)) := by
  rw [value, valueList_eq]

/-- Substituting into a term changes the assignment. -/
theorem value_subst (I : Interpretation D) (ρ : Var → D) (θ : Var → Term) (t : Term) :
    (t.subst θ).value I ρ = t.value I fun v => (θ v).value I ρ := by
  induction t using induction with
  | var v => rfl
  | const a => rfl
  | app f ts ih =>
    rw [subst_app, value_app, value_app, List.map_map]
    exact congrArg (I.func f) (List.map_congr_left ih)

end Term

/-- A literal holds if its predicate does, or does not if the literal is negative. -/
def Literal.Holds (I : Interpretation D) (ρ : Var → D) (l : Literal) : Prop :=
  I.pred l.predicate (l.args.map (Term.value I ρ)) ↔ l.positive = true

/-- A clause holds if one of its literals does. -/
def Clause.Holds (I : Interpretation D) (ρ : Var → D) (c : Clause) : Prop :=
  ∃ l ∈ c.literals, l.Holds I ρ

/-- A clause is true if it holds under every assignment. -/
def Interpretation.Models (I : Interpretation D) (c : Clause) : Prop := ∀ ρ, c.Holds I ρ

/-- A clause follows from others if it is true wherever all of them are. -/
def Entails (cs : List Clause) (c : Clause) : Prop :=
  ∀ (D : Type u) [Nonempty D] (I : Interpretation D), (∀ d ∈ cs, I.Models d) → I.Models c

/-- Clauses are satisfiable if they are true together over some domain. -/
def Satisfiable (cs : List Clause) : Prop :=
  ∃ (D : Type u) (_ : Nonempty D) (I : Interpretation D), ∀ d ∈ cs, I.Models d

end Refutation
