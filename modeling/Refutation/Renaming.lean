import Refutation.Clause

/-!
# Canonical renaming

A new clause gets variables of its own: the distinct variables of its literals are renamed, in
order of first occurrence, to `A`, `B`, …, `Z`, `A1`, `B1`, … in the scope of the clause.  The
result depends only on which variables are equal and in what order they first appear.

## Main definitions

* `freshName` — the name for a place in the order.
* `Term.rename` — change the variables of a term.
* `Var.canonical` — the new variable for an old one, given the distinct old ones in order.
* `Term.canonicalAll`, `Literal.canonicalAll` — lists of terms, and of literals, in new variables.
-/

namespace Refutation

/-- The name for place `i`: a letter, and after the first round the number of the round. -/
def freshName (i : Nat) : String :=
  let letter := String.singleton (Char.ofNat ('A'.toNat + i % 26))
  if i < 26 then letter else letter ++ toString (i / 26)

/-- Change every variable of a term. -/
def Term.rename (f : Var → Var) (t : Term) : Term := t.subst fun v => .var (f v)

/-- The variable of clause `id` that stands for `v`, whose place among the variables `vs` gives the
name. -/
def Var.canonical (id : Nat) (vs : List Var) (v : Var) : Var := ⟨freshName (vs.idxOf v), id⟩

/-- Rename the variables of a list of terms into the scope of clause `id`. -/
def Term.canonicalAll (id : Nat) (ts : List Term) : List Term :=
  ts.map (rename (Var.canonical id (varsOf ts)))

/-- Rename the variables of a list of literals into the scope of clause `id`. -/
def Literal.canonicalAll (id : Nat) (ls : List Literal) : List Literal :=
  let vs := (ls.flatMap occurrences).eraseDups
  ls.map (mapArgs (Term.rename (Var.canonical id vs)))

/-- Renaming a term renames its variables in place. -/
theorem Term.occurrences_rename (f : Var → Var) (t : Term) :
    (t.rename f).occurrences = t.occurrences.map f := by
  rw [rename]
  induction t using induction with
  | var v => rfl
  | const a => rfl
  | app g ts ih =>
    simp only [subst_app, occurrences_app, List.flatMap_map, List.map_flatMap]
    rw [List.flatMap_def, List.flatMap_def, List.map_congr_left ih]

end Refutation
