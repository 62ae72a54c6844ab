import Refutation.Staged
import Refutation.Term

/-!
# Terms in stages

Terms can grow so large that going through one of them takes longer than anyone is willing to wait.
Here the work on a term is divided into stages, of which each ends with an application.  Small
terms are not worth dividing, and the work on them is done at once.

## Main definitions

* `Term.isSmall` — the terms that are not divided.
* `Term.substThen`, `Term.copyThen`, `Term.replaceListThen` — replacing variables in stages.
* `Term.occursThen`, `Term.equalThen` — the occurs test and the comparison in stages.

## Main results

* `Term.isSmall_iff` — a term is small if it has fewer than 32 symbols.
* `Term.value_substListThen`, `Term.value_occursThen`, `Term.value_equalListThen` — the stages come
  to what the undivided functions give.
-/

namespace Refutation
namespace Term

variable {γ : Type}

/-! ### Small terms -/

mutual

/-- What is left of `n` if one is taken away for each symbol of a term.  No more symbols are looked
at once nothing is left. -/
def spare (n : Nat) : Term → Nat
  | .var _ => n - 1
  | .const _ => n - 1
  | .app _ ts => spareList (n - 1) ts

/-- What is left of `n` if one is taken away for each symbol of an argument list. -/
def spareList (n : Nat) : List Term → Nat
  | [] => n
  | t :: ts => if n = 0 then 0 else spareList (t.spare n) ts

end

mutual

theorem spare_eq (n : Nat) : (t : Term) → t.spare n = n - t.size
  | .var _ => rfl
  | .const _ => rfl
  | .app _ ts => by
    rw [spare, spareList_eq (n - 1) ts, size_app]
    omega

theorem spareList_eq (n : Nat) : (ts : List Term) → spareList n ts = n - sizeList ts
  | [] => rfl
  | t :: ts => by
    rw [spareList, spare_eq n t, spareList_eq _ ts, sizeList_cons]
    split <;> omega

end

/-- Whether a term is so small that the work on it need not be divided. -/
def isSmall (t : Term) : Bool := t.spare 32 != 0

/-- Small terms have fewer than 32 symbols. -/
theorem isSmall_iff {t : Term} : t.isSmall = true ↔ t.size < 32 := by
  rw [isSmall, spare_eq, bne_iff_ne]
  omega

/-! ### Replacing variables -/

mutual

/-- Replace every variable of a term, and go on with the result.  The work on the image of a
variable is `image`; terms that are `quick` are dealt with at once, and their variables replaced
by their images under `θ`. -/
def substThen (quick : Term → Bool) (θ : Var → Term)
    (image : Var → (Term → Staged γ) → Staged γ) : Term → (Term → Staged γ) → Staged γ
  | .var v, next => image v next
  | .const a, next => next (.const a)
  | .app f ts, next =>
    .pause fun _ => substListThen quick θ image ts [] fun us => next (.app f us)

/-- Replace every variable of an argument list, and go on with the results, which are put after
those in `us`, the last of which comes first. -/
def substListThen (quick : Term → Bool) (θ : Var → Term)
    (image : Var → (Term → Staged γ) → Staged γ) :
    List Term → List Term → (List Term → Staged γ) → Staged γ
  | [], us, next => next us.reverse
  | t :: ts, us, next =>
    if quick t then substListThen quick θ image ts (t.subst θ :: us) next
    else substThen quick θ image t fun u => substListThen quick θ image ts (u :: us) next

end

mutual

/-- The stages come to a substitution if the work on variables comes to their images. -/
theorem value_substThen {quick : Term → Bool} {θ : Var → Term}
    {image : Var → (Term → Staged γ) → Staged γ}
    (h : ∀ v next, (image v next).value = (next (θ v)).value) :
    (t : Term) → (next : Term → Staged γ) →
      (substThen quick θ image t next).value = (next (t.subst θ)).value
  | .var v, next => h v next
  | .const _, _ => rfl
  | .app f ts, next => by
    rw [substThen, Staged.value_pause, value_substListThen h ts []]
    rfl

theorem value_substListThen {quick : Term → Bool} {θ : Var → Term}
    {image : Var → (Term → Staged γ) → Staged γ}
    (h : ∀ v next, (image v next).value = (next (θ v)).value) :
    (ts us : List Term) → (next : List Term → Staged γ) →
      (substListThen quick θ image ts us next).value =
        (next (us.reverse ++ substList θ ts)).value
  | [], us, next => by rw [substListThen, substList, List.append_nil]
  | t :: ts, us, next => by
    rw [substListThen]
    split
    · rw [value_substListThen h ts]
      simp [substList]
    · rw [value_substThen h t, value_substListThen h ts]
      simp [substList]

end

/-- Write a term out anew, and go on with the copy. -/
def copyThen (t : Term) (next : Term → Staged γ) : Staged γ :=
  if t.isSmall then next t else substThen isSmall .var (fun v next => next (.var v)) t next

theorem value_copyThen (t : Term) (next : Term → Staged γ) :
    (copyThen t next).value = (next t).value := by
  unfold copyThen
  split
  · rfl
  · rw [value_substThen fun _ _ => rfl, subst_self]

/-- Replace the variable `v` by the term `r` in all terms of a list, and go on with the results.
Each place gets a copy of `r` of its own, so the time this takes grows with the size of the
results, whether or not they are gone through later. -/
def replaceListThen (v : Var) (r : Term) (ts : List Term) (next : List Term → Staged γ) :
    Staged γ :=
  let small := r.isSmall
  substListThen (fun t => small && t.isSmall) (fun w => if w = v then r else .var w)
    (fun w next => if w = v then copyThen r next else next (.var w)) ts [] next

theorem value_replaceListThen (v : Var) (r : Term) (ts : List Term)
    (next : List Term → Staged γ) :
    (replaceListThen v r ts next).value = (next (ts.map (·.replace v r))).value := by
  unfold replaceListThen
  rw [value_substListThen, substList_eq]
  · rfl
  · intro w next
    split
    · rw [value_copyThen]
    · rfl

/-! ### Tests -/

mutual

/-- Whether the variable `v` occurs in a term, with which the work goes on. -/
def occursThen (v : Var) : Term → (Bool → Staged γ) → Staged γ
  | .var w, next => next (w == v)
  | .const _, next => next false
  | .app _ ts, next => .pause fun _ => occursListThen v ts next

/-- Whether the variable `v` occurs in an argument list, with which the work goes on. -/
def occursListThen (v : Var) : List Term → (Bool → Staged γ) → Staged γ
  | [], next => next false
  | t :: ts, next =>
    if t.isSmall then if t.occurs v then next true else occursListThen v ts next
    else occursThen v t fun found => if found then next true else occursListThen v ts next

end

mutual

theorem value_occursThen (v : Var) : (t : Term) → (next : Bool → Staged γ) →
    (occursThen v t next).value = (next (t.occurs v)).value
  | .var _, _ => rfl
  | .const _, _ => rfl
  | .app _ ts, next => value_occursListThen v ts next

theorem value_occursListThen (v : Var) : (ts : List Term) → (next : Bool → Staged γ) →
    (occursListThen v ts next).value = (next (occursList v ts)).value
  | [], _ => rfl
  | t :: ts, next => by
    rw [occursListThen, occursList]
    split
    · cases t.occurs v with
      | true => rfl
      | false => exact value_occursListThen v ts next
    · rw [value_occursThen v t]
      cases t.occurs v with
      | true => rfl
      | false => exact value_occursListThen v ts next

end

mutual

/-- Whether two terms are equal, with which the work goes on. -/
def equalThen : (s t : Term) → (Bool → Staged γ) → Staged γ
  | .app f ss, .app g ts, next =>
    if f = g ∧ ss.length = ts.length then .pause fun _ => equalListThen ss ts next else next false
  | .var v, t, next => next (decide (.var v = t))
  | .const a, t, next => next (decide (.const a = t))
  | .app _ _, .var _, next => next false
  | .app _ _, .const _, next => next false

/-- Whether two argument lists are equal, with which the work goes on. -/
def equalListThen : (ss ts : List Term) → (Bool → Staged γ) → Staged γ
  | [], [], next => next true
  | s :: ss, t :: ts, next =>
    if s.isSmall then if s = t then equalListThen ss ts next else next false
    else equalThen s t fun same => if same then equalListThen ss ts next else next false
  | [], _ :: _, next => next false
  | _ :: _, [], next => next false

end

mutual

theorem value_equalThen : (s t : Term) → (next : Bool → Staged γ) →
    (equalThen s t next).value = (next (decide (s = t))).value
  | .app f ss, .app g ts, next => by
    rw [equalThen]
    split
    · next h => rw [Staged.value_pause, value_equalListThen ss ts]; simp [h.1]
    · next h =>
      have hne : ¬ app f ss = app g ts := fun heq => by cases heq; exact h ⟨rfl, rfl⟩
      rw [decide_eq_false hne]
  | .var _, _, _ => by rw [equalThen]
  | .const _, _, _ => by rw [equalThen]
  | .app _ _, .var _, _ => by simp [equalThen]
  | .app _ _, .const _, _ => by simp [equalThen]

theorem value_equalListThen : (ss ts : List Term) → (next : Bool → Staged γ) →
    (equalListThen ss ts next).value = (next (decide (ss = ts))).value
  | [], [], _ => by simp [equalListThen]
  | s :: ss, t :: ts, next => by
    rw [equalListThen]
    split
    · split
      · next h => rw [value_equalListThen ss ts]; simp [h]
      · next h => simp [h]
    · rw [value_equalThen s t]
      by_cases h : s = t
      · simp only [h, decide_true, if_true]
        rw [value_equalListThen ss ts]
        simp
      · simp [h]
  | [], _ :: _, _ => by simp [equalListThen]
  | _ :: _, [], _ => by simp [equalListThen]

end

end Term
end Refutation
