/-!
# Work in stages

A computation that is divided into stages, so that whoever carries it out may look up between two
of them and give it up.  How it is divided has no bearing on its value.

Staged functions are written so that they take the rest of the work as an argument.  A stage then
costs the same however deep in the work it lies.

## Main definitions

* `Staged` — a computation in finitely many stages.
* `Staged.value` — its value, all stages being carried out.
* `Staged.andThen` — go on with a value, knowing what it is the value of.
* `Staged.mapThen` — work on each member of a list in turn.

## Main results

* `Staged.value_andThen` — the value of work that goes on.
* `Staged.value_mapThen` — the value of work on a list, if the work on a member is known.
-/

namespace Refutation

/-- A computation in stages. -/
inductive Staged (α : Type) where
  /-- Nothing is left to do. -/
  | done (a : α)
  /-- A stage has ended, and the work goes on. -/
  | pause (rest : Unit → Staged α)

namespace Staged

variable {α β γ : Type}

/-- The value that the last stage gives. -/
def value : Staged α → α
  | .done a => a
  | .pause rest => (rest ()).value

@[simp] theorem value_done (a : α) : (done a).value = a := rfl

@[simp] theorem value_pause (rest : Unit → Staged α) : (pause rest).value = (rest ()).value := rfl

/-- Carry out staged work, and go on with its value, of which it is known where it comes from. -/
def andThen : (work : Staged α) → (next : (a : α) → a = work.value → Staged γ) → Staged γ
  | .done a, next => next a rfl
  | .pause rest, next => .pause fun _ => (rest ()).andThen next

theorem value_andThen (work : Staged α) (next : (a : α) → a = work.value → Staged γ) :
    (work.andThen next).value = (next work.value rfl).value := by
  induction work with
  | done a => rfl
  | pause rest ih => exact ih () next

/-- Work on each member of a list in turn, and then on the results. -/
def mapThen (work : α → (β → Staged γ) → Staged γ) : List α → (List β → Staged γ) → Staged γ
  | [], next => next []
  | a :: as, next => work a fun b => mapThen work as fun bs => next (b :: bs)

/-- Work that gives `f a` for a member `a` gives the mapped list for a list. -/
theorem value_mapThen {work : α → (β → Staged γ) → Staged γ} {f : α → β}
    (h : ∀ a next, (work a next).value = (next (f a)).value) (as : List α)
    (next : List β → Staged γ) : (mapThen work as next).value = (next (as.map f)).value := by
  induction as generalizing next with
  | nil => rfl
  | cons a as ih => rw [mapThen, h, ih, List.map_cons]

end Staged
end Refutation
