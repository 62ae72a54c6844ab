import Refutation.Literal
import Refutation.Source.Term

/-!
# Reading literals

A literal is a predicate name, negated by a leading minus sign, with its arguments between the
first opening and the last closing parenthesis.  Blanks around the name do not count, and blanks
alone between the parentheses mean no arguments.

## Main definitions

* `Literal.readName` — the sign and the predicate name.
* `Literal.readArgs` — the arguments, which may be none.
* `Literal.read` — a literal.
-/

namespace Refutation
namespace Literal

open Text

/-- The sign and the predicate name, from the text before the first opening parenthesis. -/
def readName (head : List Char) : Bool × List Char :=
  match head with
  | '-' :: name => (false, trim name)
  | name => (true, trim name)

/-- The arguments, from the text between the outer parentheses. -/
def readArgs (clause : Nat) (inside : List Char) : Except Fault (List Term) :=
  if (trim inside).isEmpty then .ok [] else Term.readAll clause inside

/-- Read a literal whose variables belong to the given clause. -/
def read (clause : Nat) (raw : List Char) : Except Fault Literal :=
  let text := trim raw
  if text.isEmpty then .error .predicateMissing
  else
    match cutFirst? '(' text with
    | none => .error .parenthesesMissing
    | some (head, rest) =>
      match cutLast? ')' rest with
      | none => .error (if head.contains ')' then .unopened else .parenthesesMissing)
      | some (inside, after) =>
        let (positive, name) := readName head
        if name.isEmpty then .error .predicateNameMissing
        else if !(trim after).isEmpty then .error (.trailing (String.ofList (trim after)))
        else (readArgs clause inside).map fun args => ⟨positive, String.ofList name, args⟩

end Literal
end Refutation
