import Refutation.Clause

/-!
# Writing clauses

Clauses in the form in which they are read: one on a line, literals separated by bars, a minus sign
before a negative literal, and variables by their bare names.  The form is a sequence of symbols,
each a name or a mark, which is written without anything in between.

## Main definitions

* `Term.symbols`, `Literal.symbols`, `Clause.symbols` — the names and marks in order.
* `Clause.written`, `writeClauses` — one clause, and a whole source text.
-/

namespace Refutation

/-- A name or a mark. -/
abbrev Symbol := List Char

namespace Term

mutual

/-- The symbols of a term: a bare name, or a function name and its arguments in parentheses. -/
def symbols : Term → List Symbol
  | .var v => [v.name.toList]
  | .const a => [a.toList]
  | .app f ts => f.toList :: ['('] :: ([[',']].intercalate (symbolsList ts) ++ [[')']])

/-- The symbols of each member of an argument list. -/
def symbolsList : List Term → List (List Symbol)
  | [] => []
  | t :: ts => t.symbols :: symbolsList ts

end

@[simp] theorem symbols_var (v : Var) : (var v).symbols = [v.name.toList] := rfl

@[simp] theorem symbols_const (a : String) : (const a).symbols = [a.toList] := rfl

theorem symbolsList_eq (ts : List Term) : symbolsList ts = ts.map symbols := by
  induction ts with
  | nil => rfl
  | cons t ts ih => simp [symbolsList, ih]

@[simp] theorem symbols_app (f : String) (ts : List Term) :
    (app f ts).symbols =
      f.toList :: ['('] :: ([[',']].intercalate (ts.map symbols) ++ [[')']]) := by
  rw [symbols, symbolsList_eq]

end Term

/-- The symbols of a literal. -/
def Literal.symbols (l : Literal) : List Symbol :=
  (if l.positive then [] else [['-']]) ++
    l.predicate.toList :: ['('] :: ([[',']].intercalate (l.args.map Term.symbols) ++ [[')']])

/-- The symbols of a clause. -/
def Clause.symbols (c : Clause) : List Symbol :=
  [['|']].intercalate (c.literals.map Literal.symbols)

/-- A clause as a line of source text. -/
def Clause.written (c : Clause) : List Char := c.symbols.flatten

/-- Clauses as a source text, one on a line. -/
def writeClauses (cs : List Clause) : List Char := ['\n'].intercalate (cs.map Clause.written)

end Refutation
