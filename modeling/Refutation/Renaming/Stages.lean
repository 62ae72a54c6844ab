import Refutation.Renaming.Table
import Refutation.Term.Stages

/-!
# Renaming in stages

The canonical renaming of literals, divided into stages: one walk enters the variables into a
table, and another puts the new variables in their places.

## Main definitions

* `Term.tabulateListThen` — enter the variables of terms into a table.
* `Term.renameListThen` — rename the variables of terms.
* `Literal.canonicalAllThen` — the canonical renaming of literals.

## Main results

* `Literal.value_canonicalAllThen` — the stages come to the canonical renaming.
-/

namespace Refutation

variable {γ : Type}

namespace Term

mutual

/-- Enter the variables of a term into a table, and go on with the table. -/
def tabulateThen (id : Nat) : Term → RenamingTable → (RenamingTable → Staged γ) → Staged γ
  | .var v, table, next => next (table.add id v)
  | .const _, table, next => next table
  | .app _ ts, table, next => .pause fun _ => tabulateListThen id ts table next

/-- Enter the variables of an argument list into a table, and go on with the table. -/
def tabulateListThen (id : Nat) :
    List Term → RenamingTable → (RenamingTable → Staged γ) → Staged γ
  | [], table, next => next table
  | t :: ts, table, next =>
    if t.isSmall then tabulateListThen id ts (t.tabulate id table) next
    else tabulateThen id t table fun table => tabulateListThen id ts table next

end

mutual

theorem value_tabulateThen (id : Nat) :
    (t : Term) → (table : RenamingTable) → (next : RenamingTable → Staged γ) →
      (tabulateThen id t table next).value = (next (t.tabulate id table)).value
  | .var _, _, _ => rfl
  | .const _, _, _ => rfl
  | .app _ ts, table, next => value_tabulateListThen id ts table next

theorem value_tabulateListThen (id : Nat) :
    (ts : List Term) → (table : RenamingTable) → (next : RenamingTable → Staged γ) →
      (tabulateListThen id ts table next).value = (next (tabulateList id table ts)).value
  | [], _, _ => rfl
  | t :: ts, table, next => by
    rw [tabulateListThen, tabulateList]
    split
    · exact value_tabulateListThen id ts _ next
    · rw [value_tabulateThen id t]
      exact value_tabulateListThen id ts _ next

end

/-- Change every variable of the terms of a list, and go on with the results. -/
def renameListThen (f : Var → Var) (ts : List Term) (next : List Term → Staged γ) : Staged γ :=
  substListThen isSmall (fun v => .var (f v)) (fun v next => next (.var (f v))) ts [] next

theorem value_renameListThen (f : Var → Var) (ts : List Term) (next : List Term → Staged γ) :
    (renameListThen f ts next).value = (next (ts.map (rename f))).value := by
  rw [renameListThen, value_substListThen fun _ _ => rfl, substList_eq]
  rfl

end Term

namespace Literal

/-- Work on the arguments of a literal, and go on with the literal that has the results. -/
def mapArgsThen (work : List Term → (List Term → Staged γ) → Staged γ) (l : Literal)
    (next : Literal → Staged γ) : Staged γ :=
  work l.args fun args => next ⟨l.positive, l.predicate, args⟩

theorem value_mapArgsThen {work : List Term → (List Term → Staged γ) → Staged γ}
    {f : Term → Term} (h : ∀ ts next, (work ts next).value = (next (ts.map f)).value)
    (l : Literal) (next : Literal → Staged γ) :
    (l.mapArgsThen work next).value = (next (l.mapArgs f)).value :=
  h l.args _

/-- Rename the variables of a list of literals into the scope of clause `id`, and go on with the
literals. -/
def canonicalAllThen (id : Nat) (ls : List Literal) (next : List Literal → Staged γ) : Staged γ :=
  Term.tabulateListThen id (ls.flatMap args) ∅ fun table =>
    Staged.mapThen (mapArgsThen (Term.renameListThen table.lookup)) ls next

/-- The stages come to the canonical renaming. -/
theorem value_canonicalAllThen (id : Nat) (ls : List Literal) (next : List Literal → Staged γ) :
    (canonicalAllThen id ls next).value = (next (canonicalAll id ls)).value := by
  rw [canonicalAllThen, Term.value_tabulateListThen, ← tabulateAll, canonicalAll_eq_map]
  exact Staged.value_mapThen (value_mapArgsThen (Term.value_renameListThen _)) ls next

end Literal
end Refutation
