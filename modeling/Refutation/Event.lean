import Refutation.Clause
import Refutation.Limit
import Refutation.Unification

/-!
# Events of a run

What a run reports while it works.  An event is a fact about the run; its wording is one or more
log entries, each with a level.

## Main definitions

* `Event` — the facts.
* `Level`, `Entry` — a log entry.
* `Event.entries` — the wording of an event.
-/

namespace Refutation

/-- How much detail a log entry gives. -/
inductive Level where
  /-- The course of the whole run. -/
  | info
  /-- Each pair of clauses, and each clause kept. -/
  | debug
  /-- Each unification. -/
  | trace
  deriving DecidableEq, Repr

/-- The name of a level. -/
def Level.name : Level → String
  | .info => "INFO"
  | .debug => "DEBUG"
  | .trace => "TRACE"

/-- A log entry. -/
structure Entry where
  /-- Its level. -/
  level : Level
  /-- Its message. -/
  message : String
  deriving DecidableEq, Repr

/-- An entry on one line. -/
def Entry.line (e : Entry) : String := e.level.name ++ " " ++ e.message

/-- Something that happens in the course of a run. -/
inductive Event where
  /-- So many clauses have been read. -/
  | parsed (count : Nat)
  /-- A run begins on so many clauses. -/
  | started (count : Nat) (limit : Limit)
  /-- Two clauses are about to be resolved. -/
  | matching (current other : Clause)
  /-- Two clashing literals have been unified, or not. -/
  | attempted (result : Except UnifyError Substitution)
  /-- A resolvent is about to be stored. -/
  | kept (c : Clause)
  /-- The empty clause has come up; so many clauses have been kept. -/
  | refuted (count : Nat)
  /-- No clauses are left to resolve; so many have been kept. -/
  | saturated (count : Nat)
  /-- The report is ready: the answer, the number of clauses kept and the time. -/
  | finished (satisfiable : Bool) (count millis : Nat)
  deriving Repr

/-- The wording of an event. -/
def Event.entries : Event → List Entry
  | .parsed count => [⟨.info, "parsed " ++ toString count ++ " clauses"⟩]
  | .started count limit =>
    [⟨.info, "saturating " ++ toString count ++ " clauses (max predicates in new clause: " ++
      limit.text ++ ")"⟩]
  | .matching current other =>
    [⟨.debug, "Matching clauses:"⟩, ⟨.debug, "  " ++ current.text⟩, ⟨.debug, "  " ++ other.text⟩]
  | .attempted (.ok σ) => [⟨.trace, "    Substitutions: " ++ σ.text⟩]
  | .attempted (.error err) => [⟨.trace, "    Substitutions: FALSE (" ++ err.message ++ ")"⟩]
  | .kept c => [⟨.debug, "      Resolution: " ++ c.text⟩]
  | .refuted count =>
    [⟨.debug, "$F"⟩, ⟨.info, "empty clause derived; " ++ toString count ++ " clauses kept"⟩]
  | .saturated count =>
    [⟨.debug, "No more clauses to use"⟩, ⟨.debug, "$T"⟩,
      ⟨.info, "saturated without contradiction; " ++ toString count ++ " clauses kept"⟩]
  | .finished satisfiable count millis =>
    [⟨.info, "finished: result=Some(" ++ toString satisfiable ++ ") kept=" ++ toString count ++
      " time=" ++ toString millis ++ "ms"⟩]

end Refutation
