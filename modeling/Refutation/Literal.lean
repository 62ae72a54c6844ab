import Refutation.Term

/-!
# Literals

A literal is a signed predicate: a sign, a predicate name and a list of argument terms.  Two
literals *clash* when they carry the same predicate with opposite signs, and are *complementary*
when moreover their arguments are equal, so that one is the negation of the other.

## Main definitions

* `Literal` — signed predicates.
* `Literal.clashes`, `Literal.complements` — opposite signs, before and after unification.
* `Literal.mapArgs` — a change of the arguments that leaves sign and predicate alone.
* `Literal.text` — the printed form.
-/

namespace Refutation

/-- A predicate, or its negation, applied to terms. -/
structure Literal where
  /-- Whether the predicate is asserted rather than denied. -/
  positive : Bool
  /-- The name of the predicate. -/
  predicate : String
  /-- The arguments. -/
  args : List Term
  deriving DecidableEq, Repr, Inhabited

namespace Literal

/-- Every literal is a predicate, as opposed to a term. -/
def kind (_ : Literal) : Kind := .pred

/-! ### Comparison -/

/-- Whether two literals carry the same predicate name.  Signs and arguments do not matter, and
neither does the number of arguments. -/
def samePredicate (l m : Literal) : Bool := l.predicate == m.predicate

/-- Whether two literals have opposite signs and the same predicate name. -/
def clashes (l m : Literal) : Bool := l.positive != m.positive && l.samePredicate m

/-- Whether one literal is the negation of the other. -/
def complements (l m : Literal) : Bool := l.clashes m && l.args == m.args

theorem clashes_eq_true_iff {l m : Literal} :
    l.clashes m = true ↔ l.positive = !m.positive ∧ l.predicate = m.predicate := by
  cases l with | mk p _ _ => cases m with | mk q _ _ =>
  cases p <;> cases q <;> simp [clashes, samePredicate]

theorem complements_eq_true_iff {l m : Literal} :
    l.complements m = true ↔
      l.positive = !m.positive ∧ l.predicate = m.predicate ∧ l.args = m.args := by
  simp [complements, clashes_eq_true_iff, and_assoc]

/-! ### Arguments -/

/-- Change the arguments one by one. -/
def mapArgs (f : Term → Term) (l : Literal) : Literal := { l with args := l.args.map f }

@[simp] theorem mapArgs_positive (f : Term → Term) (l : Literal) :
    (l.mapArgs f).positive = l.positive := rfl

@[simp] theorem mapArgs_predicate (f : Term → Term) (l : Literal) :
    (l.mapArgs f).predicate = l.predicate := rfl

@[simp] theorem mapArgs_args (f : Term → Term) (l : Literal) :
    (l.mapArgs f).args = l.args.map f := rfl

/-- The variables of the arguments in the order they are written. -/
def occurrences (l : Literal) : List Var := l.args.flatMap Term.occurrences

/-! ### Printed form -/

/-- The printed form: a minus sign before a negative literal, and always a pair of parentheses. -/
def text (l : Literal) : String :=
  (if l.positive then "" else "-") ++ l.predicate ++ "(" ++
    ", ".intercalate (l.args.map Term.text) ++ ")"

end Literal

end Refutation
