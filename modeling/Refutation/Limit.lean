import Refutation.Text.Blank
import Refutation.Text.Integer

/-!
# The retention limit

A bound on the number of literals of the resolvents that are kept.

## Main definitions

* `Limit` — no bound, or fewer than a given number of literals.
* `Limit.admits` — whether a resolvent of some size may be kept.
* `Limit.ofInt` — the limit that a number stands for.
* `Limit.read` — the limit that a text stands for.
* `Limit.text` — the printed form.
-/

namespace Refutation

open Text

/-- How many literals a resolvent may have to be kept. -/
inductive Limit where
  /-- Any number. -/
  | unlimited
  /-- Fewer than `n`. -/
  | below (n : Nat)
  deriving DecidableEq, Repr, Inhabited

namespace Limit

/-- Whether a resolvent with so many literals may be kept. -/
def admits : Limit → Nat → Bool
  | .unlimited, _ => true
  | .below n, size => size < n

/-- A positive number bounds the resolvents, any other lifts the bound. -/
def ofInt (raw : Int) : Limit := if raw ≤ 0 then .unlimited else .below raw.toNat

/-- The limit a text stands for: the word `unlimited` in any mixture of basic upper and lower case
letters, or else an integer of 64 bits.  Blanks around it do not count. -/
def read (raw : List Char) : Except IntegerFault Limit :=
  let text := trim raw
  if text.map Char.toLower = "unlimited".toList then .ok .unlimited
  else (readInt64 text).map ofInt

/-- The printed form. -/
def text : Limit → String
  | .unlimited => "unlimited"
  | .below n => toString n

end Limit
end Refutation
