import Refutation.Renaming
import Std.Data.HashMap

/-!
# Tables of new variables

A clause with many variables is renamed faster if the new variables are kept in a table than if
the place of each variable is looked for in the list of all.  The table is filled by going through
the terms once, and then gives the canonical names.

## Main definitions

* `RenamingTable`, `RenamingTable.add`, `RenamingTable.lookup` — new variables for old ones.
* `Term.tabulate` — enter the variables of a term.

## Main results

* `RenamingTable.lookup_foldl_add` — a table filled with variables gives their canonical names.
* `Literal.canonicalAll_eq_map` — so literals may be renamed by a table.
-/

namespace Refutation

/-- The new variables for the old ones met so far. -/
abbrev RenamingTable := Std.HashMap Var Var

namespace RenamingTable

/-- Enter a variable, which gets the next new variable of clause `id` unless it has one. -/
def add (id : Nat) (table : RenamingTable) (v : Var) : RenamingTable :=
  if table.contains v then table else table.insert v ⟨freshName table.size, id⟩

/-- The new variable for an old one.  A variable that was never entered keeps its name. -/
def lookup (table : RenamingTable) (v : Var) : Var := table.getD v v

/-- A table holds the distinct variables `vs` if it has the canonical name of each and no other. -/
def Holds (table : RenamingTable) (id : Nat) (vs : List Var) : Prop :=
  table.size = vs.length ∧
    ∀ v, table[v]? = if v ∈ vs then some (Var.canonical id vs v) else none

theorem holds_empty (id : Nat) : Holds ∅ id [] := by simp [Holds]

theorem Holds.contains_iff {table : RenamingTable} {id : Nat} {vs : List Var}
    (h : table.Holds id vs) {v : Var} : table.contains v = true ↔ v ∈ vs := by
  rw [Std.HashMap.contains_eq_isSome_getElem?, h.2 v]
  split <;> simp [*]

/-- Entering one more variable. -/
theorem Holds.add {table : RenamingTable} {id : Nat} {vs : List Var} (h : table.Holds id vs)
    (v : Var) : (table.add id v).Holds id (if v ∈ vs then vs else vs ++ [v]) := by
  unfold RenamingTable.add
  by_cases hv : v ∈ vs
  · rwa [if_pos (h.contains_iff.2 hv), if_pos hv]
  · have hnew : ¬ table.contains v = true := fun hc => hv (h.contains_iff.1 hc)
    rw [if_neg hnew, if_neg hv]
    refine ⟨?_, fun w => ?_⟩
    · rw [Std.HashMap.size_insert, if_neg (by simpa using hnew), h.1, List.length_append,
        List.length_singleton]
    · rw [Std.HashMap.getElem?_insert, h.2 w]
      unfold Var.canonical
      by_cases hw : w ∈ vs
      · have hne : ¬ v = w := fun hvw => hv (hvw ▸ hw)
        simp [hw, hne, List.idxOf_append]
      · by_cases hvw : v = w
        · subst hvw
          simp [hv, List.idxOf_append, h.1]
        · simp [hw, hvw, Ne.symm hvw]

/-- Entering many variables one after another. -/
theorem Holds.foldl_add {table : RenamingTable} {id : Nat} {us : List Var}
    (h : table.Holds id us.eraseDups) (vs : List Var) :
    (vs.foldl (RenamingTable.add id) table).Holds id (us ++ vs).eraseDups := by
  induction vs generalizing us table with
  | nil => simpa using h
  | cons v vs ih =>
    rw [List.foldl_cons, ← List.singleton_append, ← List.append_assoc]
    refine ih ?_
    have hadd := h.add v
    simp only [List.mem_eraseDups, ← eraseDups_concat] at hadd
    exact hadd

/-- What is looked up for a variable that has been met. -/
theorem Holds.lookup_eq {table : RenamingTable} {id : Nat} {us : List Var}
    (h : table.Holds id us.eraseDups) {v : Var} (hv : v ∈ us) :
    table.lookup v = Var.canonical id us.eraseDups v := by
  rw [lookup, Std.HashMap.getD_eq_getD_getElem?, h.2 v, if_pos (List.mem_eraseDups.2 hv),
    Option.getD_some]

/-- A table filled with variables gives the canonical name of each. -/
theorem lookup_foldl_add (id : Nat) {vs : List Var} {v : Var} (hv : v ∈ vs) :
    lookup (vs.foldl (add id) ∅) v = Var.canonical id vs.eraseDups v := by
  have hempty : Holds ∅ id ([] : List Var).eraseDups := holds_empty id
  exact (hempty.foldl_add vs).lookup_eq hv

end RenamingTable

mutual

/-- Enter the variables of a term into a table. -/
def Term.tabulate (id : Nat) (table : RenamingTable) : Term → RenamingTable
  | .var v => table.add id v
  | .const _ => table
  | .app _ ts => tabulateList id table ts

/-- Enter the variables of an argument list into a table. -/
def Term.tabulateList (id : Nat) (table : RenamingTable) : List Term → RenamingTable
  | [] => table
  | t :: ts => tabulateList id (t.tabulate id table) ts

end

mutual

/-- The variables of a term are entered in the order they are written. -/
theorem Term.tabulate_eq (id : Nat) (table : RenamingTable) : (t : Term) →
    t.tabulate id table = t.occurrences.foldl (RenamingTable.add id) table
  | .var _ => rfl
  | .const _ => rfl
  | .app _ ts => tabulateList_eq id table ts

theorem Term.tabulateList_eq (id : Nat) (table : RenamingTable) : (ts : List Term) →
    tabulateList id table ts = (occurrencesList ts).foldl (RenamingTable.add id) table
  | [] => rfl
  | t :: ts => by
    rw [tabulateList, tabulateList_eq id _ ts, tabulate_eq id table t, occurrencesList,
      List.foldl_append]

end

namespace Literal

/-- The table with the variables of all arguments of literals. -/
def tabulateAll (id : Nat) (ls : List Literal) : RenamingTable :=
  Term.tabulateList id ∅ (ls.flatMap args)

theorem tabulateAll_eq (id : Nat) (ls : List Literal) :
    tabulateAll id ls = (ls.flatMap occurrences).foldl (RenamingTable.add id) ∅ := by
  rw [tabulateAll, Term.tabulateList_eq, Term.occurrencesList_eq, List.flatMap_assoc]
  rfl

/-- The canonical renaming of literals looks the new variables up in a table. -/
theorem canonicalAll_eq_map (id : Nat) (ls : List Literal) :
    canonicalAll id ls = ls.map (mapArgs (Term.rename (tabulateAll id ls).lookup)) := by
  unfold canonicalAll
  refine List.map_congr_left fun l hl => ?_
  unfold mapArgs
  congr 1
  refine List.map_congr_left fun t ht => Term.subst_congr fun v hv => ?_
  have hmem : v ∈ ls.flatMap occurrences :=
    List.mem_flatMap.2 ⟨l, hl, List.mem_flatMap.2 ⟨t, ht, hv⟩⟩
  rw [tabulateAll_eq, RenamingTable.lookup_foldl_add id hmem]

end Literal
end Refutation
