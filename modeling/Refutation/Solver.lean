import Refutation.Report
import Refutation.Saturation.Events
import Refutation.Source.Clause

/-!
# Problems and their solution

From a source text to a report.  A configuration is changed by named options; under it a source
text becomes a problem, which is a saturation about to start; the end of its run gives the report.

## Main definitions

* `Config`, `Config.set` — the limit, and changing it by name.
* `SolveError` — what can keep a text from being solved.
* `Problem`, `Config.prepare` — the clauses of a source text, numbered from one.
* `Problem.report` — the figures of a run that has ended.
-/

namespace Refutation

/-- How problems are solved. -/
structure Config where
  /-- Which resolvents are kept. -/
  limit : Limit := .unlimited
  deriving DecidableEq, Repr, Inhabited

/-- Why a problem cannot be solved. -/
inductive SolveError where
  /-- The source text is faulty. -/
  | source (e : SourceError)
  /-- There is no option of that name. -/
  | unknownOption (key : String)
  /-- The option cannot take that value. -/
  | invalidValue (key value : String)
  deriving DecidableEq, Repr

/-- The wording of an error. -/
def SolveError.message : SolveError → String
  | .source e => e.message
  | .unknownOption key => "Unknown option: " ++ key
  | .invalidValue key value => "Invalid value for " ++ key ++ ": " ++ value

/-- The configuration with the named option set.  The limit goes by a short and a long name. -/
def Config.set (config : Config) (key value : String) : Except SolveError Config :=
  if key = "max_predicates" ∨ key = "max_predicates_in_new_clause" then
    match Limit.read value.toList with
    | .ok limit => .ok { config with limit := limit }
    | .error _ => .error (.invalidValue key value)
  else .error (.unknownOption key)

/-- Clauses that are ready to be saturated. -/
structure Problem where
  /-- The state before the run. -/
  saturation : Saturation
  /-- How many clauses were read. -/
  initial : Nat
  deriving Repr

/-- Read a source text into a problem. -/
def Config.prepare (config : Config) (source : String) : Except SolveError Problem :=
  match readClauses 0 source.toList with
  | .error e => .error (.source e)
  | .ok clauses =>
    .ok ⟨Saturation.initial clauses clauses.length config.limit, clauses.length⟩

namespace Problem

/-- The event of a problem's clauses having been read. -/
def readEvents (p : Problem) : List Event := [.parsed p.initial]

/-- The answer of a run, if it has one. -/
def answer (r : Run) : Option Bool :=
  match r.status with
  | .finished o => some o.isSatisfiable
  | _ => none

/-- The figures of a run on the problem, as far as it has come. -/
def report (p : Problem) (r : Run) (millis : Nat) : Report :=
  ⟨p.initial, r.state.kept, answer r, millis⟩

/-- The event of a report with an answer. -/
def reportEvents (report : Report) : List Event :=
  match report.result with
  | some satisfiable => [.finished satisfiable report.kept report.millis]
  | none => []

end Problem
end Refutation
