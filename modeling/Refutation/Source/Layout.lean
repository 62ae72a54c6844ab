import Refutation.Source.Written
import Refutation.Text.Blank

/-!
# Layout

The freedom in writing clauses down: blanks may stand around every symbol, and blank lines and
comments between the clauses.

## Main definitions

* `Spaced` — symbols with blanks around them.
* `Idle` — a line without a clause.
* `LaidOut` — lines that hold the given clauses in order.
-/

namespace Refutation

open Text

/-- Blanks on one line. -/
def Spaces (text : List Char) : Prop := ∀ c ∈ text, isBlank c = true ∧ c ≠ '\n'

/-- A text of the given symbols in order, with blanks around them. -/
inductive Spaced : List Symbol → List Char → Prop where
  /-- Blanks alone. -/
  | nil {gap : List Char} : Spaces gap → Spaced [] gap
  /-- One more symbol, after blanks. -/
  | cons {gap text : List Char} {symbol : Symbol} {symbols : List Symbol} :
    Spaces gap → Spaced symbols text → Spaced (symbol :: symbols) (gap ++ symbol ++ text)

/-- A line that is blank or, after blanks, a comment. -/
def Idle (line : List Char) : Prop :=
  '\n' ∉ line ∧ (Spaces line ∨ ∃ gap text, Spaces gap ∧ line = gap ++ '%' :: text)

/-- Lines that hold the given clauses in order, with idle lines anywhere. -/
inductive LaidOut : List Clause → List (List Char) → Prop where
  /-- No lines. -/
  | nil : LaidOut [] []
  /-- One more idle line. -/
  | idle {line : List Char} {cs : List Clause} {lines : List (List Char)} :
    Idle line → LaidOut cs lines → LaidOut cs (line :: lines)
  /-- One more line with a clause. -/
  | clause {line : List Char} {c : Clause} {cs : List Clause} {lines : List (List Char)} :
    Spaced c.symbols line → LaidOut cs lines → LaidOut (c :: cs) (line :: lines)

end Refutation
