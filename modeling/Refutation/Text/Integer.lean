/-!
# Bounded integers

Decimal integers that must fit a range.  An optional sign is followed by at least one digit, and
nothing else may appear.  The digits are read from the left and the first problem ends the reading:
at one place a character that is no digit comes before the overflow that this place would cause,
and after an overflow no later character matters.

## Main definitions

* `IntegerFault` — what can be wrong, with its wording.
* `readDigits` — digits up to a bound.
* `maxInt64`, `maxNat64` — the ranges of 64 bits.
* `readInt64`, `readNat64` — signed and unsigned integers of 64 bits.
-/

namespace Refutation
namespace Text

/-- Why a text is not an integer of the range. -/
inductive IntegerFault where
  /-- There is no text. -/
  | empty
  /-- A character is no digit, or a sign stands alone. -/
  | invalidDigit
  /-- The value is above the range. -/
  | tooLarge
  /-- The value is below the range. -/
  | tooSmall
  deriving DecidableEq, Repr

/-- The wording of a fault. -/
def IntegerFault.message : IntegerFault → String
  | .empty => "cannot parse integer from empty string"
  | .invalidDigit => "invalid digit found in string"
  | .tooLarge => "number too large to fit in target type"
  | .tooSmall => "number too small to fit in target type"

/-- The value of the digits after a beginning of value `n`; `excess` is the fault of a value above
`bound`. -/
def readDigits (bound : Nat) (excess : IntegerFault) (n : Nat) : List Char → Except IntegerFault Nat
  | [] => .ok n
  | c :: text =>
    if c.isDigit then
      let m := 10 * n + (c.toNat - '0'.toNat)
      if m ≤ bound then readDigits bound excess m text else .error excess
    else .error .invalidDigit

/-- The value of a text that has at least one digit. -/
def readMagnitude (bound : Nat) (excess : IntegerFault) : List Char → Except IntegerFault Nat
  | [] => .error .invalidDigit
  | text => readDigits bound excess 0 text

/-- The largest signed integer of 64 bits; the least one is one further from zero. -/
def maxInt64 : Nat := 0x7FFFFFFFFFFFFFFF

/-- The largest unsigned integer of 64 bits. -/
def maxNat64 : Nat := 0xFFFFFFFFFFFFFFFF

/-- An integer from `-maxInt64 - 1` to `maxInt64`, with an optional sign. -/
def readInt64 : List Char → Except IntegerFault Int
  | [] => .error .empty
  | '-' :: text => (readMagnitude (maxInt64 + 1) .tooSmall text).map fun n => -(n : Int)
  | '+' :: text => (readMagnitude maxInt64 .tooLarge text).map Int.ofNat
  | text => (readMagnitude maxInt64 .tooLarge text).map Int.ofNat

/-- An integer from `0` to `maxNat64`, with an optional plus sign. -/
def readNat64 : List Char → Except IntegerFault Nat
  | [] => .error .empty
  | '+' :: text => readMagnitude maxNat64 .tooLarge text
  | text => readMagnitude maxNat64 .tooLarge text

end Text
end Refutation
