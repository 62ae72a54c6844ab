import Refutation.Source.Clause
import Refutation.Text.Slice

/-!
# Reading by slices

The readers once more, as they work on a text in memory: marks are looked for by their offsets, and
pieces are sliced out between offsets.  A slice that is not there ends everything, and so does a
term that is nested deeper than the given depth.  An argument list is split in one pass, which
counts the open parentheses, knows where the part under way begins and adds a part at each outer
comma.

## Main definitions

* `Reading` — what a reader comes to: a result, a fault, or neither.
* `Reading.returns`, `Reading.stuck` — a reader that comes to an end, and one that does not.
* `Pass`, `Pass.step`, `Pass.run`, `splitSliced` — the pass over an argument list.
* `Shape.innerSliced`, `Shape.ofTextSliced` — the outermost level of a term's text.
* `Term.readSliced`, `Literal.readSliced`, `Clause.readSliced`, `readClausesSliced` — the readers.

## Main results

* `Reading.slice_eq` — a slice is there if the text can be taken apart at its ends;
  `Reading.slice_after`, `Reading.slice_between` — so are those that begin next to a mark.
* `Reading.mapM_eq_returns` — a list is read to the end if its members are.
-/

namespace Refutation

open Text

/-- What a reader comes to: a result, a fault, or neither if it asks for a slice that is not
there. -/
abbrev Reading (ε : Type) : Type → Type := ExceptT ε Option

namespace Reading

variable {ε α β : Type} {text : List Char} {start stop : Nat}

/-- The reader comes to an end. -/
def returns (r : Except ε α) : Reading ε α := ExceptT.mk (some r)

/-- The reader does not come to an end. -/
def stuck : Reading ε α := ExceptT.mk none

/-- What is there, if it is there. -/
def need : Option α → Reading ε α
  | some a => pure a
  | none => stuck

/-- The piece of a text between two offsets. -/
def slice (text : List Char) (start stop : Nat) : Reading ε (List Char) :=
  need (slice? text start stop)

theorem returns_ok (a : α) : (returns (.ok a) : Reading ε α) = pure a := rfl

/-- A slice is there if the text can be taken apart at its ends. -/
theorem slice_eq (before piece after : List Char) (htext : text = before ++ (piece ++ after))
    (hstart : byteLength before = start) (hstop : byteLength (before ++ piece) = stop) :
    (slice text start stop : Reading ε (List Char)) = pure piece := by
  rw [slice, slice?_eq_some_iff.2 ⟨before, after, htext, hstart, hstop⟩, need]

/-- The text after a mark of one byte is there. -/
theorem slice_after {mark : Char} (before after : List Char) (hmark : mark.utf8Size = 1)
    (htext : text = before ++ mark :: after) :
    (slice text (byteLength before + 1) (byteLength text) : Reading ε (List Char)) = pure after :=
  slice_eq (before ++ [mark]) after [] (by simp [htext]) (byteLength_concat before hmark)
    (by simp [htext])

/-- The text between two marks is there, the first of which has one byte. -/
theorem slice_between {mark : Char} (before inside rest : List Char) (hmark : mark.utf8Size = 1)
    (htext : text = before ++ mark :: (inside ++ rest)) :
    (slice text (byteLength before + 1) (byteLength (before ++ mark :: inside)) :
      Reading ε (List Char)) = pure inside :=
  slice_eq (before ++ [mark]) inside rest (by simp [htext]) (byteLength_concat before hmark)
    (by simp)

/-- A list is read to the end if its members are. -/
theorem mapM_eq_returns {f : α → Reading ε β} {g : α → Except ε β} {xs : List α}
    (h : ∀ x ∈ xs, f x = returns (g x)) : xs.mapM f = returns (xs.mapM g) := by
  induction xs with
  | nil => rfl
  | cons x xs ih =>
    obtain ⟨hx, hxs⟩ := List.forall_mem_cons.1 h
    rw [List.mapM_cons, List.mapM_cons, hx, ih hxs]
    cases g x with
    | error e => rfl
    | ok b =>
      cases xs.mapM g with
      | error e => rfl
      | ok bs => rfl

end Reading

open Reading

/-! ### Argument lists -/

/-- How far the pass over an argument list has come. -/
structure Pass where
  /-- The number of open parentheses. -/
  depth : Nat
  /-- Where the part under way begins. -/
  start : Nat
  /-- The parts before it. -/
  parts : List (List Char)

namespace Pass

/-- What the character at an offset does. -/
def step (text : List Char) (pass : Pass) (offset : Nat) (c : Char) : Reading Fault Pass :=
  if c = '(' then return { pass with depth := pass.depth + 1 }
  else if c = ')' then
    if pass.depth = 0 then throw .unopened
    else return { pass with depth := pass.depth - 1 }
  else if c = ',' ∧ pass.depth = 0 then do
    let part ← slice text pass.start offset
    return { pass with start := offset + 1, parts := pass.parts ++ [part] }
  else return pass

/-- The pass over what is left of a text from an offset on. -/
def run (text : List Char) : Pass → Nat → List Char → Reading Fault (List (List Char))
  | pass, _, [] =>
    if 0 < pass.depth then throw .unclosed
    else do
      let part ← slice text pass.start (byteLength text)
      return pass.parts ++ [part]
  | pass, offset, c :: rest => do
    let pass ← pass.step text offset c
    run text pass (offset + c.utf8Size) rest

end Pass

/-- The parts of a text between its outer commas. -/
def splitSliced (text : List Char) : Reading Fault (List (List Char)) :=
  Pass.run text ⟨0, 0, []⟩ 0 text

/-! ### Terms -/

/-- The inner text of an application, given the text, the name before its first opening parenthesis
and the offset of that.  The two parentheses around it are not compared. -/
def Shape.innerSliced (text name : List Char) (opening : Nat) : Reading Fault (List Char) :=
  if name.isEmpty then throw .functionNameMissing
  else if name.any isUpper then throw (.functionNameCase (String.ofList name))
  else
    match offsetLast? ')' text with
    | none => throw .unclosed
    | some closing =>
      if closing + 1 ≠ byteLength text then do
        let after ← slice text (closing + 1) (byteLength text)
        throw (.trailing (String.ofList after))
      else slice text (opening + 1) closing

/-- The outermost level of a term's text. -/
def Shape.ofTextSliced (raw : List Char) : Reading Fault Shape :=
  let text := squeeze raw
  if text.isEmpty then throw .termMissing
  else if text.contains '_' then throw .underscore
  else
    match offsetFirst? '(' text with
    | none => return .atom text
    | some opening => do
      let name ← slice text 0 opening
      let inside ← innerSliced text name opening
      return .app name inside

/-- Read a list of arguments one by one. -/
def readArgumentsSliced (readTerm : List Char → Reading Fault Term) (text : List Char) :
    Reading Fault (List Term) := do
  let parts ← splitSliced text
  parts.mapM readTerm

/-- Read a term that is nested less deep than `depth`. -/
def Term.readSliced (clause : Nat) : Nat → List Char → Reading Fault Term
  | 0, _ => stuck
  | depth + 1, raw => do
    match ← Shape.ofTextSliced raw with
    | .atom text => returns (readAtom clause text)
    | .app name inside =>
      let args ← readArgumentsSliced (readSliced clause depth) inside
      return .app (String.ofList name) args

/-! ### Literals and clauses -/

/-- Read the arguments of a literal, which may be none. -/
def Literal.readArgsSliced (clause depth : Nat) (inside : List Char) : Reading Fault (List Term) :=
  if (trim inside).isEmpty then return []
  else readArgumentsSliced (Term.readSliced clause depth) inside

/-- Read a literal. -/
def Literal.readSliced (clause depth : Nat) (raw : List Char) : Reading Fault Literal :=
  let text := trim raw
  if text.isEmpty then throw .predicateMissing
  else
    match offsetFirst? '(' text, offsetLast? ')' text with
    | some opening, some closing =>
      if closing < opening then throw .unopened
      else do
        let negative := text.head? = some '-'
        let name ← slice text (if negative then 1 else 0) opening
        if (trim name).isEmpty then throw .predicateNameMissing
        else
          let after ← slice text (closing + 1) (byteLength text)
          if !(trim after).isEmpty then throw (.trailing (String.ofList (trim after)))
          else
            let inside ← slice text (opening + 1) closing
            let args ← readArgsSliced clause depth inside
            return ⟨!negative, String.ofList (trim name), args⟩
    | _, _ => throw .parenthesesMissing

/-- Read the literals of a clause, under the number it is given. -/
def Clause.readSliced (id depth : Nat) (text : List Char) : Reading Fault Clause := do
  let literals ← (text.splitOn '|').mapM (Literal.readSliced id depth)
  return ⟨id, literals⟩

/-- Read lines one after the other, given the number issued last and the place of the first line. -/
def readLinesSliced (depth : Nat) : Nat → Nat → List (List Char) → Reading SourceError (List Clause)
  | _, _, [] => return []
  | lastId, number, raw :: lines =>
    let text := trim raw
    if text.isEmpty ∨ text.head? = some '%' then readLinesSliced depth lastId (number + 1) lines
    else do
      let id ← need (nextId? lastId)
      let c ← (Clause.readSliced id depth text).adapt (SourceError.mk number id)
      let cs ← readLinesSliced depth id (number + 1) lines
      return c :: cs

/-- Read all clauses of a source text. -/
def readClausesSliced (depth lastId : Nat) (source : List Char) :
    Reading SourceError (List Clause) :=
  readLinesSliced depth lastId 1 (source.splitOn '\n')

end Refutation
