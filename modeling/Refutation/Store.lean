import Refutation.Clause

/-!
# The clause store

The clauses of a run in the order they came.  The store only grows, and a clause that is added
must have a number above that of the last clause; the clauses it starts from are taken as they are.

That numbers increase is a debug assertion.  The build with debug assertions is modelled here, so
the store refuses a number that is too low; a release build adds the clause all the same.

## Main definitions

* `Store` — the clauses, with constant-time access by place.
* `Store.push?` — add a clause, unless its number is too low.
* `Store.toList` — the clauses as a list, which is how the store is reasoned about.

## Main results

* `Store.toList_of_push?` — adding puts the clause last and leaves the others.
* `Store.push?_eq_none_iff` — only a number at or below the last one is refused.
-/

namespace Refutation

/-- Clauses in the order they came. -/
structure Store where
  /-- The clauses. -/
  clauses : Array Clause
  deriving Repr, Inhabited

namespace Store

/-- The store that starts from the given clauses. -/
def ofList (cs : List Clause) : Store := ⟨cs.toArray⟩

/-- The clauses as a list. -/
def toList (s : Store) : List Clause := s.clauses.toList

/-- The number of clauses. -/
def size (s : Store) : Nat := s.clauses.size

/-- Whether there are no clauses. -/
def isEmpty (s : Store) : Bool := s.clauses.isEmpty

/-- The clause at a place, counted from zero. -/
def get? (s : Store) (i : Nat) : Option Clause := s.clauses[i]?

/-- Whether a clause may be added: its number is above that of the last clause. -/
def accepts (s : Store) (c : Clause) : Bool := s.clauses.back?.all fun last => last.id < c.id

/-- Add a clause at the end, unless the assertion about its number fails. -/
def push? (s : Store) (c : Clause) : Option Store :=
  if s.accepts c then some ⟨s.clauses.push c⟩ else none

@[simp] theorem toList_ofList (cs : List Clause) : (ofList cs).toList = cs := rfl

@[simp] theorem length_toList (s : Store) : s.toList.length = s.size := rfl

@[simp] theorem getElem?_toList (s : Store) (i : Nat) : s.toList[i]? = s.get? i := by
  simp [toList, get?]

/-- An added clause comes last, and the others stay as they are. -/
theorem toList_of_push? {s t : Store} {c : Clause} (h : s.push? c = some t) :
    t.toList = s.toList ++ [c] := by
  unfold push? at h
  split at h
  · cases h
    simp [toList]
  · cases h

/-- A clause is refused only if its number is not above the last one. -/
theorem push?_eq_none_iff {s : Store} {c : Clause} :
    s.push? c = none ↔ ∃ last, s.toList.getLast? = some last ∧ c.id ≤ last.id := by
  unfold push? accepts toList
  rw [← Array.getLast?_toList]
  cases s.clauses.toList.getLast? <;> simp

end Store
end Refutation
