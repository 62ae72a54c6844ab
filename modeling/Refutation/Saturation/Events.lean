import Refutation.Event
import Refutation.Saturation

/-!
# The events of a run

Each step of a run has its events, which depend only on the run before the step.

## Main definitions

* `Saturation.startEvents` — the event that opens a run.
* `Run.events` — the events of the next step.
-/

namespace Refutation

/-- The event that opens a run. -/
def Saturation.startEvents (s : Saturation) : List Event := [.started s.store.size s.limit]

/-- The unifications up to the one that finds no number left, when `n` numbers are left. -/
def attemptsWithin : Nat → List (Except UnifyError Substitution) →
    List (Except UnifyError Substitution)
  | _, [] => []
  | n, .error err :: us => .error err :: attemptsWithin n us
  | 0, .ok σ :: _ => [.ok σ]
  | n + 1, .ok σ :: us => .ok σ :: attemptsWithin n us

/-- The events of taking in what resolving a pair came to.  A clause is reported before it is
stored, also one that is then refused. -/
def Run.settleEvents (r : Run) (pair : PairOutcome) : List Event :=
  let after := r.settle pair
  if maxId < pair.lastId then
    -- the run fails at the first unification without a number, before anything is stored
    (attemptsWithin (maxId - r.state.lastId) pair.attempts).map .attempted
  else
    pair.attempts.map .attempted ++
      (pair.kept.take (after.state.kept - r.state.kept + 1)).map .kept ++
      (if after.status = .finished .unsatisfiable then [.refuted after.state.kept] else [])

/-- The events of the next step. -/
def Run.events (r : Run) : List Event :=
  match r.action with
  | .resolve current other =>
    .matching current other ::
      r.settleEvents (current.resolve r.state.limit r.state.lastId other)
  | .stop => [.saturated r.state.kept]
  | _ => []

end Refutation
