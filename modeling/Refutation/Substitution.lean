import Refutation.Term

/-!
# Substitutions

A substitution is an ordered list of bindings.  It is applied one binding after another, so a
later binding also acts on the terms that an earlier one brought in; the order is part of what a
substitution means.

## Main definitions

* `Binding`, `Substitution` — a variable with its term, and a list of these.
* `Substitution.apply` — one binding after another.
* `Substitution.lookup?` — the term of a variable's first binding.
* `Substitution.text` — the printed form.

## Main results

* `Substitution.apply_eq_subst` — applying the bindings in order is one replacement of all
  variables at once.
-/

namespace Refutation

/-- A variable together with the term that stands for it. -/
structure Binding where
  /-- The bound variable. -/
  var : Var
  /-- What it is replaced by. -/
  term : Term
  deriving DecidableEq, Repr, Inhabited

/-- An ordered list of bindings. -/
abbrev Substitution := List Binding

/-- The printed form shows the term before the variable, as in "replace by / for". -/
def Binding.text (b : Binding) : String := b.term.text ++ "\\" ++ b.var.text

namespace Substitution

/-- Apply the bindings in order, each to the result of those before it. -/
def apply (σ : Substitution) (t : Term) : Term :=
  σ.foldl (fun t b => t.replace b.var b.term) t

@[simp] theorem apply_nil (t : Term) : apply [] t = t := rfl

@[simp] theorem apply_cons (b : Binding) (σ : Substitution) (t : Term) :
    apply (b :: σ) t = apply σ (t.replace b.var b.term) := rfl

/-- Applying the bindings in order replaces each variable by what becomes of it alone. -/
theorem apply_eq_subst (σ : Substitution) (t : Term) :
    σ.apply t = t.subst fun v => σ.apply (.var v) := by
  induction σ generalizing t with
  | nil => simp
  | cons b σ ih =>
    rw [apply_cons, ih, Term.replace, Term.subst_subst]
    refine Term.subst_congr fun v _ => ?_
    rw [apply_cons, ih ((Term.var v).replace b.var b.term)]
    rfl

@[simp] theorem apply_const (σ : Substitution) (a : String) :
    σ.apply (.const a) = .const a := by
  rw [apply_eq_subst, Term.subst_const]

@[simp] theorem apply_app (σ : Substitution) (f : String) (ts : List Term) :
    σ.apply (.app f ts) = .app f (ts.map σ.apply) := by
  rw [apply_eq_subst, Term.subst_app]
  simp only [Term.app.injEq, true_and]
  exact List.map_congr_left fun t _ => (apply_eq_subst σ t).symm

/-- The term of the first binding of `v`, if it has one. -/
def lookup? (σ : Substitution) (v : Var) : Option Term :=
  (σ.find? fun b => b.var == v).map Binding.term

/-- The printed form: the bindings in braces. -/
def text (σ : Substitution) : String :=
  "\x7b" ++ ", ".intercalate (σ.map Binding.text) ++ "\x7d"

end Substitution

end Refutation
