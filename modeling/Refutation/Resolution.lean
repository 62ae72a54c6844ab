import Refutation.Cancellation
import Refutation.Limit
import Refutation.Renaming
import Refutation.Unification

/-!
# Resolving two clauses

Two clauses are resolved on every pair of clashing literals, one from each.  If the arguments
unify, the literals of both clauses under the unifier, with variables of their own, form the
*candidate*; it contains a complementary pair, and cancelling the first one leaves the resolvent.
Resolvents that the limit admits are kept.  An empty resolvent refutes the clauses and ends the
search.

## Main definitions

* `Clause.candidate` — all literals of both parents under a unifier, in a new scope.
* `Clause.clashingPairs` — the literal pairs to resolve on, in order.
* `PairOutcome` — what resolving two clauses came to.
* `Clause.resolve` — all resolvents of two clauses.
-/

namespace Refutation
namespace Clause

/-- The literals of `c` and then those of `d` under the bindings of `σ`, with their variables
renamed into the scope of the new clause `id`. -/
def candidate (id : Nat) (σ : Substitution) (c d : Clause) : Clause :=
  ⟨id, Literal.canonicalAll id ((c.literals ++ d.literals).map (·.mapArgs σ.apply))⟩

/-- The pairs of a literal of `c` and a clashing literal of `d`, ordered by the place of the first
and then of the second. -/
def clashingPairs (c d : Clause) : List (Literal × Literal) :=
  c.literals.flatMap fun l => (d.literals.filter l.clashes).map fun m => (l, m)

theorem mem_clashingPairs {c d : Clause} {l m : Literal} :
    (l, m) ∈ clashingPairs c d ↔ l ∈ c.literals ∧ m ∈ d.literals ∧ l.clashes m = true := by
  simp [clashingPairs]

end Clause

/-- What resolving two clauses came to. -/
structure PairOutcome where
  /-- The resolvents to keep, in the order they were built. -/
  kept : List Clause
  /-- Whether the empty clause was built. -/
  refuted : Bool
  /-- The last number issued. -/
  lastId : Nat
  /-- The results of the unifications tried, in order. -/
  attempts : List (Except UnifyError Substitution)
  deriving Repr

namespace PairOutcome

/-- Put a resolvent before those kept. -/
def keep (c : Clause) (o : PairOutcome) : PairOutcome := { o with kept := c :: o.kept }

/-- Put a unification before those tried. -/
def attempt (u : Except UnifyError Substitution) (o : PairOutcome) : PairOutcome :=
  { o with attempts := u :: o.attempts }

end PairOutcome

namespace Clause

/-- Resolve `c` and `d` on the given literal pairs.  Each pair that unifies takes the number after
`lastId` for its candidate, whether or not the resolvent is kept. -/
def resolveOn (limit : Limit) (c d : Clause) (lastId : Nat) :
    List (Literal × Literal) → PairOutcome
  | [] => ⟨[], false, lastId, []⟩
  | (l, m) :: pairs =>
    match Term.unifyAll l.args m.args with
    | .error err => (resolveOn limit c d lastId pairs).attempt (.error err)
    | .ok σ =>
      let id := lastId + 1
      match (candidate id σ c d).cancel? with
      | none => (resolveOn limit c d id pairs).attempt (.ok σ)
      | some r =>
        -- the clauses are refuted, so the pairs that remain do not matter
        if r.isEmpty then ⟨[], true, id, [.ok σ]⟩
        else if limit.admits r.size then ((resolveOn limit c d id pairs).keep r).attempt (.ok σ)
        else (resolveOn limit c d id pairs).attempt (.ok σ)

/-- Resolve `c` and `d` on every clashing literal pair. -/
def resolve (limit : Limit) (lastId : Nat) (c d : Clause) : PairOutcome :=
  resolveOn limit c d lastId (clashingPairs c d)

end Clause
end Refutation
