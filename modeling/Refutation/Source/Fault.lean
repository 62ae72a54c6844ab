/-!
# What can be wrong with a source text

The causes for which a literal or a term is refused, and their wording.

## Main definitions

* `Fault` — the causes.
* `Fault.message` — the wording.

## Main results

* `map_eq_ok_iff`, `map_eq_error_iff` — when a mapped reading succeeds, and when it fails.
* `mapM_eq_ok_iff` — when a repeated reading succeeds.
-/

namespace Refutation

/-- Why a literal or a term cannot be read. -/
inductive Fault where
  /-- A literal is blank. -/
  | predicateMissing
  /-- A literal lacks an opening or a closing parenthesis. -/
  | parenthesesMissing
  /-- Nothing stands before the opening parenthesis of a literal. -/
  | predicateNameMissing
  /-- An opening parenthesis is never closed. -/
  | unclosed
  /-- A closing parenthesis was never opened. -/
  | unopened
  /-- Text follows the last closing parenthesis. -/
  | trailing (text : String)
  /-- A term is blank. -/
  | termMissing
  /-- A term holds an underscore, which is kept for printing the owners of variables. -/
  | underscore
  /-- A variable or constant mixes upper and lower case. -/
  | mixedCase (text : String)
  /-- Nothing stands before the opening parenthesis of a term. -/
  | functionNameMissing
  /-- A function name holds an upper case letter. -/
  | functionNameCase (name : String)
  deriving DecidableEq, Repr

/-- The wording of a fault. -/
def Fault.message : Fault → String
  | .predicateMissing => "Wrong clause format: predicate missing"
  | .parenthesesMissing => "Predicate must contain parentheses"
  | .predicateNameMissing => "Wrong clause format: predicate name missing"
  | .unclosed => "There are more opening parentheses than closing parentheses"
  | .unopened => "There are more closing parentheses than opening parentheses"
  | .trailing text => "Unexpected text after closing parenthesis: " ++ text
  | .termMissing => "Term expected"
  | .underscore => "Term may not contain underscore"
  | .mixedCase text =>
    "Term must be only upper case (variable) or only lower case (value, function): " ++ text
  | .functionNameMissing => "Function name missing"
  | .functionNameCase name => "Function name must be lower case: " ++ name

/-! ### Mapped and repeated readings -/

/-- A mapped result is a success exactly if the result is one. -/
theorem map_eq_ok_iff {ε α β : Type} {x : Except ε α} {f : α → β} {b : β} :
    x.map f = .ok b ↔ ∃ a, x = .ok a ∧ f a = b := by
  cases x <;> simp [Except.map]

/-- A mapped result is a fault exactly if the result is that fault. -/
theorem map_eq_error_iff {ε α β : Type} {x : Except ε α} {f : α → β} {e : ε} :
    x.map f = .error e ↔ x = .error e := by
  cases x <;> simp [Except.map]

/-- Reading a list succeeds exactly if each member is read, and gives what the members give. -/
theorem mapM_eq_ok_iff {ε α β : Type} {f : α → Except ε β} {xs : List α} {ys : List β} :
    xs.mapM f = .ok ys ↔ xs.map f = ys.map .ok := by
  induction xs generalizing ys with
  | nil => cases ys <;> simp [pure, Except.pure]
  | cons x xs ih =>
    rw [List.mapM_cons]
    cases hx : f x with
    | error e => cases ys <;> simp [hx, bind, Except.bind]
    | ok y =>
      cases hxs : xs.mapM f with
      | error e =>
        have hne : ∀ ys : List β, xs.map f ≠ ys.map .ok := fun ys h => by simp [ih.2 h] at hxs
        cases ys <;> simp [hx, bind, Except.bind, hne]
      | ok ys' => cases ys <;> simp [bind, Except.bind, pure, Except.pure, hx, ← ih, hxs]

/-- What has been read has been read from some member. -/
theorem exists_mem_of_map_eq {ε α β : Type} {f : α → Except ε β} {xs : List α} {ys : List β} {y : β}
    (h : xs.map f = ys.map .ok) (hy : y ∈ ys) : ∃ x ∈ xs, f x = .ok y := by
  have hmem : Except.ok y ∈ xs.map f := by
    rw [h]
    exact List.mem_map_of_mem hy
  exact List.mem_map.1 hmem

end Refutation
