import Refutation.Cancellation.Stages
import Refutation.Renaming.Stages
import Refutation.Saturation.Events
import Refutation.Unification.Stages

/-!
# Runs in stages

A single pair of clauses can take very long, because unified terms can double in size with every
binding.  Here a step of a run is divided into stages, each a small part of a unification or of
building a candidate, so that a run can be cut off in the middle of a step.

The unifications that were tried are kept only if someone listens to the events of the run.

## Main definitions

* `Substitution.applyListThen`, `Clause.candidateThen` — building a candidate in stages.
* `Clause.resolveThen` — resolving two clauses in stages.
* `Run.advance` — a step of a run in stages, with its events.

## Main results

* `Run.value_advance` — carried out to the end, the stages make up one step and its events.
-/

namespace Refutation

variable {γ : Type}

/-! ### Candidates -/

/-- Apply the bindings of `σ` one after another to the terms of a list, and go on with the
results. -/
def Substitution.applyListThen : Substitution → List Term → (List Term → Staged γ) → Staged γ
  | [], ts, next => next ts
  | b :: σ, ts, next =>
    .pause fun _ => Term.replaceListThen b.var b.term ts fun ts => applyListThen σ ts next

theorem Substitution.value_applyListThen (σ : Substitution) (ts : List Term)
    (next : List Term → Staged γ) :
    (σ.applyListThen ts next).value = (next (ts.map σ.apply)).value := by
  induction σ generalizing ts with
  | nil => rw [applyListThen, show apply [] = id from rfl, List.map_id]
  | cons b σ ih =>
    rw [applyListThen, Staged.value_pause, Term.value_replaceListThen, ih, List.map_map]
    rfl

namespace Clause

/-- Build a candidate, and go on with it. -/
def candidateThen (id : Nat) (σ : Substitution) (c d : Clause) (next : Clause → Staged γ) :
    Staged γ :=
  Staged.mapThen (Literal.mapArgsThen σ.applyListThen) (c.literals ++ d.literals) fun ls =>
    Literal.canonicalAllThen id ls fun ls => next ⟨id, ls⟩

theorem value_candidateThen (id : Nat) (σ : Substitution) (c d : Clause)
    (next : Clause → Staged γ) :
    (candidateThen id σ c d next).value = (next (candidate id σ c d)).value := by
  rw [candidateThen, Staged.value_mapThen (Literal.value_mapArgsThen σ.value_applyListThen),
    Literal.value_canonicalAllThen, candidate]

end Clause

/-! ### Resolving two clauses -/

namespace PairOutcome

/-- What resolving came to, as far as it is asked for: the unifications tried are left out unless
someone listens. -/
def report (listening : Bool) (o : PairOutcome) : PairOutcome :=
  if listening then o else { o with attempts := [] }

/-- Go on with what resolving came to, a unification being put before those tried if someone
listens. -/
def attemptThen (listening : Bool) (u : Except UnifyError Substitution)
    (next : PairOutcome → Staged γ) : PairOutcome → Staged γ :=
  if listening then fun o => next (o.attempt u) else next

theorem attemptThen_report (listening : Bool) (u : Except UnifyError Substitution)
    (next : PairOutcome → Staged γ) (o : PairOutcome) :
    attemptThen listening u next (o.report listening) = next ((o.attempt u).report listening) := by
  cases listening <;> rfl

theorem report_keep (listening : Bool) (c : Clause) (o : PairOutcome) :
    (o.keep c).report listening = (o.report listening).keep c := by
  cases listening <;> rfl

end PairOutcome

namespace Clause

/-- Resolve `c` and `d` on a literal `l` of `c` and each of some literals of `d` that clashes with
it, and then do the work `rest` on the other literals of `c`. -/
def resolveLiteralThen (listening : Bool) (limit : Limit) (c d : Clause) (l : Literal)
    (rest : Nat → (PairOutcome → Staged γ) → Staged γ) :
    List Literal → Nat → (PairOutcome → Staged γ) → Staged γ
  | [], lastId, next => rest lastId next
  | m :: ms, lastId, next =>
    if l.clashes m then
      .pause fun _ => Term.unifyAllThen l.args m.args fun
        | .error err =>
          resolveLiteralThen listening limit c d l rest ms lastId
            (PairOutcome.attemptThen listening (.error err) next)
        | .ok σ =>
          let id := lastId + 1
          let next := PairOutcome.attemptThen listening (.ok σ) next
          candidateThen id σ c d fun built => built.cancelThen fun
            | none => resolveLiteralThen listening limit c d l rest ms id next
            | some r =>
              if r.isEmpty then next ⟨[], true, id, []⟩
              else if limit.admits r.size then
                resolveLiteralThen listening limit c d l rest ms id fun o => next (o.keep r)
              else resolveLiteralThen listening limit c d l rest ms id next
    else resolveLiteralThen listening limit c d l rest ms lastId next

theorem value_resolveLiteralThen {listening : Bool} {limit : Limit} {c d : Clause} {l : Literal}
    {rest : Nat → (PairOutcome → Staged γ) → Staged γ} {pairs : List (Literal × Literal)}
    (h : ∀ lastId next, (rest lastId next).value =
      (next ((resolveOn limit c d lastId pairs).report listening)).value)
    (ms : List Literal) (lastId : Nat) (next : PairOutcome → Staged γ) :
    (resolveLiteralThen listening limit c d l rest ms lastId next).value =
      (next ((resolveOn limit c d lastId
        ((ms.filter l.clashes).map (fun m => (l, m)) ++ pairs)).report listening)).value := by
  induction ms generalizing lastId next with
  | nil => exact h lastId next
  | cons m ms ih =>
    rw [resolveLiteralThen]
    split
    · next hclash =>
      rw [List.filter_cons_of_pos hclash, List.map_cons, List.cons_append, Staged.value_pause,
        Term.value_unifyAllThen, resolveOn]
      cases Term.unifyAll l.args m.args with
      | error err => rw [ih, PairOutcome.attemptThen_report]
      | ok σ =>
        simp only [value_candidateThen, value_cancelThen]
        cases (candidate (lastId + 1) σ c d).cancel? with
        | none => rw [ih, PairOutcome.attemptThen_report]
        | some r =>
          dsimp only
          split
          · cases listening <;> rfl
          · split
            · rw [ih, ← PairOutcome.report_keep, PairOutcome.attemptThen_report]
            · rw [ih, PairOutcome.attemptThen_report]
    · next hclash =>
      rw [List.filter_cons_of_neg hclash]
      exact ih lastId next

/-- Resolve `c` and `d` on each of some literals of `c` and every literal of `d` that clashes with
it, and go on with what this comes to. -/
def resolveLiteralsThen (listening : Bool) (limit : Limit) (c d : Clause) :
    List Literal → Nat → (PairOutcome → Staged γ) → Staged γ
  | [], lastId, next => next ⟨[], false, lastId, []⟩
  | l :: ls, lastId, next => .pause fun _ =>
    resolveLiteralThen listening limit c d l (resolveLiteralsThen listening limit c d ls)
      d.literals lastId next

theorem value_resolveLiteralsThen (listening : Bool) (limit : Limit) (c d : Clause)
    (ls : List Literal) (lastId : Nat) (next : PairOutcome → Staged γ) :
    (resolveLiteralsThen listening limit c d ls lastId next).value =
      (next ((resolveOn limit c d lastId (ls.flatMap fun l =>
        (d.literals.filter l.clashes).map fun m => (l, m))).report listening)).value := by
  induction ls generalizing lastId next with
  | nil => cases listening <;> rfl
  | cons l ls ih => exact value_resolveLiteralThen ih d.literals lastId next

/-- Resolve `c` and `d` on every clashing literal pair, and go on with what this comes to. -/
def resolveThen (listening : Bool) (limit : Limit) (lastId : Nat) (c d : Clause)
    (next : PairOutcome → Staged γ) : Staged γ :=
  resolveLiteralsThen listening limit c d c.literals lastId next

theorem value_resolveThen (listening : Bool) (limit : Limit) (lastId : Nat) (c d : Clause)
    (next : PairOutcome → Staged γ) :
    (resolveThen listening limit lastId c d next).value =
      (next ((resolve limit lastId c d).report listening)).value :=
  value_resolveLiteralsThen listening limit c d c.literals lastId next

end Clause

/-! ### Runs -/

namespace Run

/-- One step of a run, with its events if someone listens. -/
def advance (listening : Bool) (r : Run) : Staged (Run × List Event) :=
  match r.action with
  | .resolve current other =>
    current.resolveThen listening r.state.limit r.state.lastId other fun pair =>
      .done (r.settle pair,
        if listening then .matching current other :: r.settleEvents pair else [])
  | _ => .done (r.step, if listening then r.events else [])

theorem settle_report (r : Run) (listening : Bool) (pair : PairOutcome) :
    r.settle (pair.report listening) = r.settle pair := by
  cases listening <;> rfl

/-- The stages make up the step and its events. -/
theorem value_advance (listening : Bool) (r : Run) :
    (r.advance listening).value = (r.step, if listening then r.events else []) := by
  unfold advance step events
  cases r.action with
  | resolve current other =>
    rw [Clause.value_resolveThen, Staged.value_done, settle_report]
    cases listening <;> rfl
  | skip => rfl
  | advance => rfl
  | stop => rfl
  | rest => rfl

end Run
end Refutation
