/-!
# Clause numbers

Clauses are numbered in the order they are made, from the number after the last one issued.
Numbers are words of 64 bits, so they can run out; and a store expects them to increase.

Both are checked by a build with debug assertions and overflow checks, and that is the build
modelled here: it stops at a fault in the numbers.  A release build goes on.  The number that it
issues after the largest one is zero, and it stores a clause whatever its number.  As long as there
is no fault the two builds do the same.

## Main definitions

* `maxId`, `nextId?` — the largest number, and the number to issue next.
* `IdFault` — what can be wrong with the numbers.
-/

namespace Refutation

/-- The largest clause number, which is the largest word of 64 bits. -/
def maxId : Nat := 0xFFFFFFFFFFFFFFFF

/-- The number after the last one issued, unless adding one to that overflows. -/
def nextId? (lastId : Nat) : Option Nat := if lastId < maxId then some (lastId + 1) else none

/-- What can be wrong with clause numbers, as a build with debug assertions tells it. -/
inductive IdFault where
  /-- A clause to be stored has a number that is not above the last clause's. -/
  | notIncreasing
  /-- There is no number left for a new clause. -/
  | exhausted
  deriving DecidableEq, Repr

/-- The wording of a fault. -/
def IdFault.message : IdFault → String
  | .notIncreasing => "clause ids must increase"
  | .exhausted => "attempt to add with overflow"

end Refutation
