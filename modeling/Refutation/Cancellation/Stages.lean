import Refutation.Cancellation
import Refutation.Term.Stages

/-!
# Cancellation in stages

Each literal of a clause is compared with those after it, which takes long in a clause with many
literals or with large arguments.  A stage ends with every literal, and within the comparison of
large arguments.

## Main definitions

* `Literal.complementThen` — find the complement of a literal.
* `Clause.cancelThen` — one cancellation.

## Main results

* `Clause.value_cancelThen` — the stages come to a cancellation.
-/

namespace Refutation

variable {γ : Type}

/-- Look for the first complement of `l` among literals, the first of which has place `i`, and go
on with its place.  The arguments of `l` are compared at once if they are `small`. -/
def Literal.complementThen (l : Literal) (small : Bool) :
    List Literal → Nat → (Option Nat → Staged γ) → Staged γ
  | [], _, next => next none
  | m :: ms, i, next =>
    if l.clashes m && l.args.length == m.args.length then
      if small then
        if l.args = m.args then next (some i) else complementThen l small ms (i + 1) next
      else
        Term.equalListThen l.args m.args fun same =>
          if same then next (some i) else complementThen l small ms (i + 1) next
    else complementThen l small ms (i + 1) next

theorem Literal.value_complementThen (l : Literal) (small : Bool) (ms : List Literal) (i : Nat)
    (next : Option Nat → Staged γ) :
    (complementThen l small ms i next).value =
      (next ((ms.findIdx? l.complements).map (· + i))).value := by
  induction ms generalizing i with
  | nil => rfl
  | cons m ms ih =>
    have hstep : (complementThen l small (m :: ms) i next).value =
        if l.complements m then (next (some i)).value
        else (complementThen l small ms (i + 1) next).value := by
      rw [complementThen, complements]
      by_cases hargs : l.args = m.args
      · cases l.clashes m <;> cases small <;> simp [hargs, Term.value_equalListThen]
      · by_cases hlen : l.args.length = m.args.length <;> cases l.clashes m <;> cases small <;>
          simp [hargs, hlen, Term.value_equalListThen]
    rw [hstep, ih, List.findIdx?_cons]
    split
    · simp
    · rw [Option.map_map]
      congr 3
      funext j
      simp only [Function.comp]
      omega

/-- Cancel the first complementary pair of literals, and go on with the others, or with `none` if
no two are complementary. -/
def cancelPairThen : List Literal → (Option (List Literal) → Staged γ) → Staged γ
  | [], next => next none
  | l :: ls, next => .pause fun _ =>
    l.complementThen (l.args.all Term.isSmall) ls 0 fun
      | some i => next (some (ls.eraseIdx i))
      | none => cancelPairThen ls fun others => next (others.map (l :: ·))

theorem value_cancelPairThen (ls : List Literal) (next : Option (List Literal) → Staged γ) :
    (cancelPairThen ls next).value = (next (cancelPair? ls)).value := by
  induction ls generalizing next with
  | nil => rfl
  | cons l ls ih =>
    rw [cancelPairThen, Staged.value_pause, Literal.value_complementThen, cancelPair?,
      List.eraseP_eq_eraseIdx]
    cases h : ls.findIdx? l.complements with
    | none =>
      have hany : ¬ ls.any l.complements = true := by simpa using h
      rw [if_neg hany]
      exact ih _
    | some i =>
      have hany : ls.any l.complements = true := by
        rw [← List.findIdx?_isSome, h]
        rfl
      simp [hany]

namespace Clause

/-- Cancel the first complementary pair of a clause, and go on with what is left, or with `none` if
no two literals are complementary. -/
def cancelThen (c : Clause) (next : Option Clause → Staged γ) : Staged γ :=
  cancelPairThen c.literals fun ls => next (ls.map (Clause.mk c.id))

/-- The stages come to a cancellation. -/
theorem value_cancelThen (c : Clause) (next : Option Clause → Staged γ) :
    (c.cancelThen next).value = (next c.cancel?).value :=
  value_cancelPairThen c.literals _

end Clause
end Refutation
