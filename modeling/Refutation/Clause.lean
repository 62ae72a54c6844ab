import Refutation.Literal

/-!
# Clauses

A clause is a numbered list of literals and stands for their disjunction, with all variables
universally quantified.  The number identifies the clause: it is the scope of the clause's
variables, and two clauses of one number count as the same clause.

## Main definitions

* `Clause` — a number and a list of literals.
* `Clause.sameAs` — identity by number.
* `Clause.vars` — the distinct variables in order of first occurrence.
* `Clause.OwnsVars` — all variables are in the scope of the clause.
* `Clause.text` — the printed form.
-/

namespace Refutation

/-- A numbered disjunction of literals. -/
structure Clause where
  /-- The number of the clause. -/
  id : Nat
  /-- The literals, in order. -/
  literals : List Literal
  deriving DecidableEq, Repr, Inhabited

namespace Clause

/-- The number of literals. -/
def size (c : Clause) : Nat := c.literals.length

/-- The empty clause has no literals and is false in every interpretation. -/
def isEmpty (c : Clause) : Bool := c.literals.isEmpty

/-- Whether two clauses carry the same number. -/
def sameAs (c d : Clause) : Bool := c.id == d.id

/-- The variables of all literals in the order they are written. -/
def occurrences (c : Clause) : List Var := c.literals.flatMap Literal.occurrences

/-- The distinct variables of all literals, in order of first occurrence. -/
def vars (c : Clause) : List Var := c.occurrences.eraseDups

/-- A clause owns its variables if each of them carries the clause's number. -/
def OwnsVars (c : Clause) : Prop := ∀ v ∈ c.occurrences, v.clause = c.id

instance (c : Clause) : Decidable c.OwnsVars :=
  inferInstanceAs (Decidable (∀ v ∈ c.occurrences, v.clause = c.id))

/-- The printed form: the number, then the literals separated by bars. -/
def text (c : Clause) : String :=
  "Clause " ++ toString c.id ++ ": " ++ "|".intercalate (c.literals.map Literal.text)

end Clause

end Refutation
