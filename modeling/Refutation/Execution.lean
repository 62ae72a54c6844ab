import Refutation.Command
import Refutation.Saturation.Stages

/-!
# Executing runs

The loop that carries out a run, and the order in which a call of the program goes about its work:
arguments, limit, input, source text, run.  Nothing is decided here but when time is up; the loop
is the part of the library that may not end.

## Main definitions

* `Staged.perform` — carry out staged work, unless time runs out.
* `Run.execute` — steps until the run ends, or until a deadline.
* `Command.call` — a call of the program.
-/

namespace Refutation

/-- Tell of events, if someone listens. -/
def emit (listener : Option (Event → IO Unit)) (events : List Event) : IO Unit :=
  match listener with
  | none => pure ()
  | some hear => events.forM hear

/-- Whether the clock, in nanoseconds, has reached the deadline. -/
def timeIsUp (deadline : Option Nat) : IO Bool :=
  match deadline with
  | none => return false
  | some time => return (← IO.monoNanosNow) ≥ time

/-- Carry out staged work.  There is no value if the deadline comes first, be it during the last
stage. -/
def Staged.perform {α : Type} (deadline : Option Nat) : Staged α → IO (Option α)
  | .done a => return if ← timeIsUp deadline then none else some a
  | .pause rest => do
    if ← timeIsUp deadline then return none
    (rest ()).perform deadline

/-- Carry out a run until it ends or the clock, in nanoseconds, reaches the deadline.  A step that
is not finished in time is not taken. -/
partial def Run.execute (listener : Option (Event → IO Unit)) (deadline : Option Nat) (r : Run) :
    IO Run := do
  if r.status != .running then
    return r
  match ← (r.advance listener.isSome).perform deadline with
  | none => return r
  | some (next, events) =>
    emit listener events
    next.execute listener deadline

/-- Carry out a run from the given state, reporting its beginning too. -/
def Saturation.execute (listener : Option (Event → IO Unit)) (deadline : Option Nat)
    (s : Saturation) : IO Run := do
  emit listener s.startEvents
  (Run.start s).execute listener deadline

/-- Read a source text into a problem, reporting that it has been read. -/
def Config.load (listener : Option (Event → IO Unit)) (config : Config) (source : String) :
    IO (Except SolveError Problem) := do
  let problem := config.prepare source
  if let .ok p := problem then
    emit listener p.readEvents
  return problem

/-- Saturate a problem and report; the time counts from `start`, in milliseconds. -/
def Problem.solve (listener : Option (Event → IO Unit)) (deadline : Option Nat) (start : Nat)
    (p : Problem) : IO (Run × Report) := do
  let r ← p.saturation.execute listener deadline
  let report := p.report r ((← IO.monoMsNow) - start)
  emit listener (Problem.reportEvents report)
  return (r, report)

/-- A call of the program.  The input is read by `read`, which gives the text or the reason why
there is none; the events of the run go to `log`. -/
def Command.call (read : Input → IO (Except String String)) (log : Event → IO Unit)
    (args : List String) : IO Answer := do
  match Command.parse args with
  | .error e => return .misuse e
  | .ok .help => return .help
  | .ok (.solve options) =>
    match options.config with
    | .error e => return .unsolvable e
    | .ok config =>
      match ← read options.source with
      | .error reason => return .unreadable reason
      | .ok source =>
        let listener := if options.trace then some log else none
        let start ← IO.monoMsNow
        match ← config.load listener source with
        | .error e => return .unsolvable e
        | .ok problem =>
          let now ← IO.monoNanosNow
          let deadline := options.timeout.map fun millis => now + millis * 1000000
          let (_, report) ← problem.solve listener deadline start
          return .reported options report

end Refutation
