import Refutation.Clause
import Refutation.Numbering
import Refutation.Source.Literal

/-!
# Reading clauses

A source text is read line by line.  Blank lines and lines that begin with a percent sign are
passed over; every other line is *live* and holds one clause, whose literals are separated by bars.
The live lines are numbered in order from the number after the last one issued, and a line that
turns out to be faulty has used up its number too.  Line numbers count every line from one.

## Main definitions

* `Clause.read` — one clause, under a given number.
* `Line`, `liveLines` — the lines that hold clauses.
* `SourceError` — a fault with the line it is on.
* `readClauses` — all clauses of a source text.
* `lastIdAfter` — the last number issued once the text is read.
* `readNumbered` — all clauses, unless there are not enough numbers for them.
-/

namespace Refutation

open Text

/-- Read the literals of a clause, under the number it is given. -/
def Clause.read (id : Nat) (text : List Char) : Except Fault Clause :=
  ((text.splitOn '|').mapM (Literal.read id)).map (Clause.mk id)

/-- A numbered line of a source text. -/
structure Line where
  /-- The text of the line. -/
  text : List Char
  /-- Its place in the source, from one. -/
  number : Nat
  deriving DecidableEq, Repr

/-- Whether a line holds a clause: it is not blank and no comment. -/
def Line.isLive (line : Line) : Bool :=
  match line.text with
  | [] => false
  | c :: _ => c != '%'

/-- The lines that hold clauses, without the blanks around them. -/
def liveLines (source : List Char) : List Line :=
  (((source.splitOn '\n').zipIdx 1).map fun (text, number) => ⟨trim text, number⟩).filter
    Line.isLive

/-- The first fault of a source text. -/
structure SourceError where
  /-- The line it is on, from one. -/
  line : Nat
  /-- The number that the clause on that line had been given. -/
  clause : Nat
  /-- What is wrong. -/
  fault : Fault
  deriving DecidableEq, Repr

/-- The wording of a source error. -/
def SourceError.message (e : SourceError) : String :=
  "Error on line " ++ toString e.line ++ ": " ++ e.fault.message

/-- Read the clause on a line, under the number it is given. -/
def Line.read (line : Line) (id : Nat) : Except SourceError Clause :=
  match Clause.read id line.text with
  | .error fault => .error ⟨line.number, id, fault⟩
  | .ok clause => .ok clause

/-- Read all clauses of a source text, numbered from the number after `lastId`.  The first fault
ends the reading. -/
def readClauses (lastId : Nat) (source : List Char) : Except SourceError (List Clause) :=
  ((liveLines source).zipIdx (lastId + 1)).mapM fun (line, id) => line.read id

/-- The last number issued once a source text is read: each clause has taken one, and so has the
clause at fault. -/
def lastIdAfter (lastId : Nat) : Except SourceError (List Clause) → Nat
  | .ok clauses => lastId + clauses.length
  | .error e => e.clause

/-- Read all clauses of a source text, unless the numbers run out before the reading ends. -/
def readNumbered (lastId : Nat) (source : List Char) :
    Except IdFault (Except SourceError (List Clause)) :=
  let result := readClauses lastId source
  if lastIdAfter lastId result ≤ maxId then .ok result else .error .exhausted

end Refutation
