/-!
# Reports

The counts, the answer and the time of one run, as text and as a JSON object.

## Main definitions

* `Report` — the figures.
* `Report.aborted` — the figures of a run that was cut off.
* `Report.text`, `Report.json` — the two printed forms.
-/

namespace Refutation

/-- The figures of one run. -/
structure Report where
  /-- How many clauses were read. -/
  initial : Nat
  /-- How many resolvents were kept. -/
  kept : Nat
  /-- Whether the clauses are satisfiable; nothing if the run was cut off. -/
  result : Option Bool
  /-- The time taken, in milliseconds. -/
  millis : Nat
  deriving DecidableEq, Repr

namespace Report

/-- The longest time that is told apart, in milliseconds: the largest word of 64 bits. -/
def maxMillis : Nat := 0xFFFFFFFFFFFFFFFF

/-- The whole milliseconds in a time. -/
def wholeMillis (seconds nanoseconds : Nat) : Nat :=
  min (seconds * 1000 + nanoseconds / 1000000) maxMillis

/-- The figures of a run that was cut off before it had an answer. -/
def aborted (initial kept seconds nanoseconds : Nat) : Report :=
  ⟨initial, kept, none, wholeMillis seconds nanoseconds⟩

/-- The answer in words. -/
def verdict : Option Bool → String
  | some true => "satisfiable (no contradiction found)"
  | some false => "unsatisfiable (empty clause derived)"
  | none => "no result"

/-- The report in four lines. -/
def text (r : Report) : String :=
  "Result: " ++ verdict r.result ++ "\nInitial clauses: " ++ toString r.initial ++
    "\nKept clauses: " ++ toString r.kept ++ "\nTime taken: " ++ toString r.millis ++ " ms"

/-- The answer as a JSON value. -/
def jsonResult : Option Bool → String
  | some true => "true"
  | some false => "false"
  | none => "null"

/-- The report as a JSON object, without spaces. -/
def json (r : Report) : String :=
  "\x7b\"initialClauseCount\":" ++ toString r.initial ++ ",\"keptClauseCount\":" ++
    toString r.kept ++ ",\"result\":" ++ jsonResult r.result ++ ",\"timeTaken\":" ++
    toString r.millis ++ "\x7d"

end Report
end Refutation
