import Refutation.Numbering
import Refutation.Resolution
import Refutation.Store

/-!
# Saturation

A run takes each clause of the store in turn as the current clause and resolves it with every other
clause, those included that are added on the way.  It ends when the empty clause is derived, which
refutes the initial clauses, or when the current clause would be the last one.  The last clause has
no turn of its own, and those whose turn was over before it was stored never meet it.  Nothing
bounds the number of steps, for resolvents may grow without end.

One step of a run is one pair of clauses, or the move to the next current clause.  What a step does
is decided first, as an `Action`, and done afterwards.

## Main definitions

* `Saturation` — what outlasts a run: the store, the last number issued, the limit and the count of
  clauses kept.
* `Outcome`, `Status` — how a run can end, and whether it has.
* `Run`, `Run.action`, `Run.step`, `Run.steps` — a run and its steps.
* `Run.Yields` — a run comes to an outcome.
* `Saturation.Reaches` — what comes up in any number of runs.
-/

namespace Refutation

/-- The answer of a run. -/
inductive Outcome where
  /-- Saturated without a contradiction. -/
  | satisfiable
  /-- The empty clause was derived. -/
  | unsatisfiable
  deriving DecidableEq, Repr

/-- Whether an outcome says that the clauses are satisfiable. -/
def Outcome.isSatisfiable : Outcome → Bool
  | .satisfiable => true
  | .unsatisfiable => false

/-- The name of an outcome. -/
def Outcome.name : Outcome → String
  | .satisfiable => "Satisfiable"
  | .unsatisfiable => "Unsatisfiable"

/-! ### What outlasts a run -/

/-- The clauses so far and what is needed to add to them. -/
structure Saturation where
  /-- The initial clauses and then those kept. -/
  store : Store
  /-- The last clause number issued. -/
  lastId : Nat
  /-- Which resolvents are kept. -/
  limit : Limit
  /-- How many clauses have been kept. -/
  kept : Nat
  deriving Repr, Inhabited

namespace Saturation

/-- The state before the first run on the given clauses. -/
def initial (clauses : List Clause) (lastId : Nat) (limit : Limit) : Saturation :=
  ⟨Store.ofList clauses, lastId, limit, 0⟩

/-- Store clauses until one is refused, and tell whether all were stored. -/
def keepAll (s : Saturation) : List Clause → Saturation × Bool
  | [] => (s, true)
  | c :: cs =>
    match s.store.push? c with
    | none => (s, false)
    | some store => keepAll { s with store := store, kept := s.kept + 1 } cs

end Saturation

/-! ### Runs -/

/-- Whether a run has ended, and how. -/
inductive Status where
  /-- There is more to do. -/
  | running
  /-- An answer has been found. -/
  | finished (o : Outcome)
  /-- The run cannot go on, and is stopped by an assertion or an overflow check.  This does not
  happen to clauses that were read together, unless the numbers run out. -/
  | failed (fault : IdFault)
  deriving DecidableEq, Repr

/-- A run: the current clause is the one at `cursor`, and the clause at `index` is the next to be
resolved with it. -/
structure Run where
  /-- The clauses so far. -/
  state : Saturation
  /-- The place of the current clause. -/
  cursor : Nat
  /-- The place of the other clause. -/
  index : Nat
  /-- Whether the run has ended. -/
  status : Status
  deriving Repr

/-- What a run does next. -/
inductive Action where
  /-- Resolve the current clause with another. -/
  | resolve (current other : Clause)
  /-- Pass over the current clause itself. -/
  | skip
  /-- Take the next clause as the current one. -/
  | advance
  /-- End, for the next current clause would be the last. -/
  | stop
  /-- Nothing; the run has ended. -/
  | rest
  deriving Repr

namespace Run

/-- A new run, which begins at the first clause. -/
def start (s : Saturation) : Run := ⟨s, 0, 0, .running⟩

/-- What a run does next. -/
def action (r : Run) : Action :=
  match r.status with
  | .running =>
    -- the last clause is never the current one
    if r.cursor + 1 < r.state.store.size then
      match r.state.store.get? r.cursor, r.state.store.get? r.index with
      | some current, some other => if current.sameAs other then .skip else .resolve current other
      | _, _ => .advance
    else .stop
  | _ => .rest

/-- Take in what resolving the current pair came to: store the clauses kept, and see whether the
run has ended. -/
def settle (r : Run) (pair : PairOutcome) : Run :=
  if maxId < pair.lastId then
    { r with state := { r.state with lastId := maxId }, status := .failed .exhausted }
  else
    let (state, all) := { r.state with lastId := pair.lastId }.keepAll pair.kept
    { r with
      state := state
      index := r.index + 1
      status :=
        if !all then .failed .notIncreasing
        else if pair.refuted then .finished .unsatisfiable
        else .running }

/-- One step. -/
def step (r : Run) : Run :=
  match r.action with
  | .resolve current other => r.settle (current.resolve r.state.limit r.state.lastId other)
  | .skip => { r with index := r.index + 1 }
  | .advance => { r with cursor := r.cursor + 1, index := 0 }
  | .stop => { r with status := .finished .satisfiable }
  | .rest => r

/-- Some number of steps. -/
def steps : Nat → Run → Run
  | 0, r => r
  | n + 1, r => steps n r.step

@[simp] theorem steps_zero (r : Run) : steps 0 r = r := rfl

@[simp] theorem steps_succ (n : Nat) (r : Run) : steps (n + 1) r = steps n r.step := rfl

/-- A run comes to an outcome if some number of steps leads to it. -/
def Yields (r : Run) (o : Outcome) : Prop := ∃ n, (steps n r).status = .finished o

end Run

/-- The runs that come up when a saturation is run again and again, each time from where the last
run ended. -/
inductive Saturation.Reaches (s : Saturation) : Run → Prop where
  /-- The first run begins. -/
  | start : Reaches s (Run.start s)
  /-- A run takes a step. -/
  | step {r : Run} : Reaches s r → Reaches s r.step
  /-- A run has ended and the next begins. -/
  | again {r : Run} {o : Outcome} :
    Reaches s r → r.status = .finished o → Reaches s (Run.start r.state)

end Refutation
