import Refutation.Source.Arguments
import Refutation.Term
import Refutation.Text.Blank
import Refutation.Text.Case
import Refutation.Text.Cut

/-!
# Reading terms

Blanks inside a term do not count.  A text with an opening parenthesis is an application: its name
stands before the first one, and its arguments between that and the closing parenthesis at the very
end.  Any other text is a constant if it has a lower case letter, and otherwise a variable, which
belongs to the clause being read.

Reading goes level by level: the outermost level is a `Shape`, and the arguments in it are texts
shorter than the term's own.

## Main definitions

* `Shape`, `Shape.ofText` — the outermost level of a term's text.
* `Term.readAtom` — a variable or a constant.
* `Term.read`, `Term.readAll` — a term, and a list of arguments.

## Main results

* `Shape.squeeze_eq_of_app` — the name and the inner text of an application make up its text.
* `Term.read_eq` — a term is read by its shape, and its arguments by `Term.readAll`.
-/

namespace Refutation

open Text

/-! ### The outermost level -/

/-- What the outermost level of a term's text looks like. -/
inductive Shape where
  /-- A text without an opening parenthesis. -/
  | atom (text : List Char)
  /-- A name with the text between its parentheses. -/
  | app (name inner : List Char)
  deriving DecidableEq, Repr

namespace Shape

/-- The inner text of an application, given the text, the name before its first opening
parenthesis and all that follows it. -/
def inner (text name rest : List Char) : Except Fault (List Char) :=
  if name.isEmpty then .error .functionNameMissing
  else if name.any isUpper then .error (.functionNameCase (String.ofList name))
  else if text.getLast? = some ')' then .ok rest.dropLast
  else
    match cutLast? ')' text with
    | none => .error .unclosed
    | some (_, after) => .error (.trailing (String.ofList after))

/-- The outermost level of a term's text. -/
def ofText (raw : List Char) : Except Fault Shape :=
  let text := squeeze raw
  if text.isEmpty then .error .termMissing
  else if text.contains '_' then .error .underscore
  else
    match cutFirst? '(' text with
    | none => .ok (.atom text)
    | some (name, rest) => (inner text name rest).map (.app name)

theorem inner_eq_ok {text name rest inside : List Char} (hcut : cutFirst? '(' text = some (name, rest))
    (h : inner text name rest = .ok inside) : text = name ++ '(' :: (inside ++ [')']) := by
  obtain ⟨htext, -⟩ := cutFirst?_eq_some_iff.1 hcut
  unfold inner at h
  split at h
  · cases h
  · split at h
    · cases h
    · split at h
      · next hend =>
        cases h
        rw [htext] at hend
        rcases List.eq_nil_or_concat rest with rfl | ⟨inside, c, rfl⟩
        -- an opening parenthesis is no closing one, so something follows the name
        · simp at hend
        · have hc : c = ')' := by
            simpa [List.getLast?_append, List.getLast?_cons] using hend
          simp [htext, hc]
      · split at h <;> cases h

/-- The name and the inner text of an application make up its text. -/
theorem squeeze_eq_of_app {raw name inside : List Char} (h : ofText raw = .ok (.app name inside)) :
    squeeze raw = name ++ '(' :: (inside ++ [')']) := by
  unfold ofText at h
  simp only at h
  split at h
  · cases h
  · split at h
    · cases h
    · split at h
      · cases h
      · next name' rest hcut =>
        obtain ⟨inside', hin, heq⟩ := map_eq_ok_iff.1 h
        cases heq
        exact inner_eq_ok hcut hin

/-- The inner text of an application is shorter than the term's text. -/
theorem length_lt_of_app {raw name inside : List Char} (h : ofText raw = .ok (.app name inside)) :
    inside.length < raw.length := by
  have hle := length_squeeze_le raw
  rw [squeeze_eq_of_app h] at hle
  simp at hle
  omega

end Shape

/-! ### Terms -/

/-- Read a text without an opening parenthesis as a constant or as a variable of the clause. -/
def Term.readAtom (clause : Nat) (text : List Char) : Except Fault Term :=
  if text.contains ')' then .error .unopened
  else if text.any isLower then
    if text.any isUpper then .error (.mixedCase (String.ofList text))
    else .ok (.const (String.ofList text))
  else .ok (.var ⟨String.ofList text, clause⟩)

/-- Read a term whose variables belong to the given clause. -/
def Term.read (clause : Nat) (raw : List Char) : Except Fault Term :=
  match _hshape : Shape.ofText raw with
  | .error fault => .error fault
  | .ok (.atom text) => readAtom clause text
  | .ok (.app name inside) =>
    match _hparts : splitArguments inside with
    | .error fault => .error fault
    | .ok parts =>
      (parts.attach.mapM fun part => read clause part.1).map (.app (String.ofList name))
termination_by raw.length
decreasing_by
  exact Nat.lt_of_le_of_lt (length_le_of_mem_splitArguments _hparts part.2)
    (Shape.length_lt_of_app _hshape)

/-- Read a list of arguments.  A fault of the list as a whole comes before any of its members. -/
def Term.readAll (clause : Nat) (text : List Char) : Except Fault (List Term) :=
  (splitArguments text).bind fun parts => parts.mapM (read clause)

/-- A term is read by its shape, and its arguments as a list. -/
theorem Term.read_eq (clause : Nat) (raw : List Char) :
    read clause raw =
      match Shape.ofText raw with
      | .error fault => .error fault
      | .ok (.atom text) => readAtom clause text
      | .ok (.app name inside) => (readAll clause inside).map (.app (String.ofList name)) := by
  rw [read]
  split
  · next h => simp [h]
  · next h => simp [h]
  · next h =>
    simp only [h, readAll]
    split
    · next h => simp [h, Except.bind, Except.map]
    · next h => simp [h, Except.bind]

end Refutation
