import Refutation.Proofs.Variants
import Refutation.Renaming.Table

/-!
# Canonical forms

Two lists of terms that differ in their variables only have the same list of terms as their
canonical renaming, and no others have: the renaming keeps different variables apart, so that it can
be taken back, and the names it gives depend on nothing but the order in which the variables appear.

The renaming can be carried out in one walk.  Whether a variable has been met before is looked up in
a table, and what it got then it has got for good.

## Main definitions

* `RenamingTable.renameTerm`, `RenamingTable.renameTerms` — rename terms from a table, and enter
  their variables as they are met.

## Main results

* `RenamingTable.renameTerms_eq` — one walk gives the canonical renaming.
* `Term.canonicalAll_rename`, `Term.exists_bijOn_of_canonicalAll_eq` — when two canonical renamings
  are the same.
* `Term.varsOf_canonicalAll` — the variables of a canonical renaming.
* `Term.canonicalAll_canonical` — **renaming gives a canonical form**.
-/

namespace Refutation

/-! ### One walk -/

namespace RenamingTable

mutual

/-- Rename a term from a table, into which its variables are entered as they are met. -/
def renameTerm (id : Nat) (table : RenamingTable) : Term → Term × RenamingTable
  | .var v => (.var ((table.add id v).lookup v), table.add id v)
  | .const a => (.const a, table)
  | .app f ts =>
    let (us, table) := renameTerms id table ts
    (.app f us, table)

/-- Rename the members of a list one after another. -/
def renameTerms (id : Nat) (table : RenamingTable) : List Term → List Term × RenamingTable
  | [] => ([], table)
  | t :: ts =>
    let (u, table) := renameTerm id table t
    let (us, table) := renameTerms id table ts
    (u :: us, table)

end

variable {id : Nat} {us : List Var}

/-- The new name of a variable does not change when more variables are met. -/
theorem canonical_append {v : Var} (hv : v ∈ us) (id : Nat) (ws : List Var) :
    Var.canonical id (us ++ ws).eraseDups v = Var.canonical id us.eraseDups v := by
  rw [Var.canonical, Var.canonical, List.eraseDups_append,
    List.idxOf_append_of_mem (List.mem_eraseDups.2 hv)]

mutual

/-- A term is renamed by the order in which the variables are met, up to the end of the term. -/
theorem renameTerm_spec {table : RenamingTable} {us : List Var} (h : table.Holds id us.eraseDups) :
    (t : Term) →
      (renameTerm id table t).1 = t.rename (Var.canonical id (us ++ t.occurrences).eraseDups) ∧
        (renameTerm id table t).2.Holds id (us ++ t.occurrences).eraseDups
  | .var v => by
    have hadd := h.foldl_add [v]
    exact ⟨congrArg Term.var (hadd.lookup_eq (by simp)), hadd⟩
  | .const a => by
    rw [Term.occurrences_const, List.append_nil]
    exact ⟨rfl, h⟩
  | .app f ts => by
    obtain ⟨hterms, hholds⟩ := renameTerms_spec h ts
    rw [Term.occurrences_app, Term.rename_app, ← hterms]
    exact ⟨rfl, hholds⟩

theorem renameTerms_spec {table : RenamingTable} {us : List Var} (h : table.Holds id us.eraseDups) :
    (ts : List Term) →
      (renameTerms id table ts).1 =
          ts.map (Term.rename (Var.canonical id (us ++ ts.flatMap Term.occurrences).eraseDups)) ∧
        (renameTerms id table ts).2.Holds id (us ++ ts.flatMap Term.occurrences).eraseDups
  | [] => by
    rw [List.flatMap_nil, List.append_nil]
    exact ⟨rfl, h⟩
  | t :: ts => by
    obtain ⟨hterm, hholds⟩ := renameTerm_spec h t
    obtain ⟨hterms, hholds⟩ := renameTerms_spec hholds ts
    rw [List.append_assoc, ← List.flatMap_cons] at hterms hholds
    refine ⟨?_, hholds⟩
    -- what the first term has been given stays as it is
    have hfirst : t.rename (Var.canonical id (us ++ t.occurrences).eraseDups) =
        t.rename (Var.canonical id (us ++ (t :: ts).flatMap Term.occurrences).eraseDups) := by
      refine Term.rename_congr fun v hv => ?_
      rw [List.flatMap_cons, ← List.append_assoc]
      exact (canonical_append (List.mem_append_right us hv) id _).symm
    rw [List.map_cons, ← hterms, ← hfirst, ← hterm]
    rfl

end

/-- One walk gives the canonical renaming. -/
theorem renameTerms_eq (id : Nat) (ts : List Term) :
    (renameTerms id ∅ ts).1 = Term.canonicalAll id ts := by
  have hempty : Holds ∅ id ([] : List Var).eraseDups := holds_empty id
  exact (renameTerms_spec hempty ts).1

end RenamingTable

namespace Term

variable {f : Var → Var} {id : Nat} {ts us : List Term}

/-! ### Renamed terms -/

theorem varsOf_map_rename (hf : Function.Injective f) (ts : List Term) :
    varsOf (ts.map (rename f)) = (varsOf ts).map f := by
  have hocc : (ts.map (rename f)).flatMap occurrences = (ts.flatMap occurrences).map f := by
    rw [List.flatMap_map, List.map_flatMap]
    simp only [occurrences_rename]
  rw [varsOf, hocc, eraseDups_map hf, ← varsOf]

theorem map_rename_congr {g : Var → Var} (h : ∀ v ∈ varsOf ts, f v = g v) :
    ts.map (rename f) = ts.map (rename g) := by
  refine List.map_congr_left ?_
  intro t ht
  exact rename_congr fun v hv => h v (mem_varsOf.2 ⟨t, ht, hv⟩)

/-- A renaming that keeps the variables of some terms apart might as well keep all apart. -/
theorem exists_injective_rename (hf : Set.InjOn f { v | v ∈ varsOf ts }) :
    ∃ g : Var → Var, Function.Injective g ∧ (∀ v ∈ varsOf ts, g v = f v) ∧
      ts.map (rename f) = ts.map (rename g) := by
  obtain ⟨g, hg, heq⟩ := Var.exists_injective_of_injOn hf
  exact ⟨g, hg, heq, map_rename_congr fun v hv => (heq v hv).symm⟩

/-- The canonical renaming does not depend on the old names. -/
theorem canonicalAll_rename (hf : Set.InjOn f { v | v ∈ varsOf ts }) (id : Nat) :
    canonicalAll id (ts.map (rename f)) = canonicalAll id ts := by
  obtain ⟨g, hg, -, heq⟩ := exists_injective_rename hf
  rw [heq, canonicalAll, canonicalAll, varsOf_map_rename hg, List.map_map]
  refine List.map_congr_left ?_
  intro t _
  rw [Function.comp_apply, rename_rename]
  exact rename_congr fun v _ => Var.canonical_map hg id _ v

/-! ### New variables -/

/-- Distinct variables get the names in their order. -/
theorem map_canonical {vs : List Var} (hvs : vs.Nodup) (id : Nat) :
    vs.map (Var.canonical id vs) = (List.range vs.length).map fun i => ⟨freshName i, id⟩ := by
  refine List.ext_getElem (by simp) ?_
  intro i _ _
  simp [Var.canonical, hvs.idxOf_getElem]

/-- The variables of a canonical renaming are the old ones under their new names. -/
theorem varsOf_canonicalAll_eq_map (id : Nat) (ts : List Term) :
    varsOf (canonicalAll id ts) = (varsOf ts).map (Var.canonical id (varsOf ts)) := by
  obtain ⟨g, hg, hvars, heq⟩ := exists_injective_rename (Var.canonical_injOn id (varsOf ts))
  rw [canonicalAll, heq, varsOf_map_rename hg, List.map_congr_left hvars]

/-- The variables of a canonical renaming are the new variables, from the first on. -/
theorem varsOf_canonicalAll (id : Nat) (ts : List Term) :
    varsOf (canonicalAll id ts) =
      (List.range (varsOf ts).length).map fun i => ⟨freshName i, id⟩ := by
  have hnodup : (varsOf ts).Nodup := nodup_eraseDups _
  rw [varsOf_canonicalAll_eq_map, map_canonical hnodup]

/-! ### Canonical forms -/

theorem map_rename_map_rename (f g : Var → Var) (ts : List Term) :
    (ts.map (rename f)).map (rename g) = ts.map (rename (g ∘ f)) := by
  rw [List.map_map]
  exact List.map_congr_left fun t _ => t.rename_rename f g

/-- Each variable of some terms stands for one of the new variables. -/
theorem bijOn_canonical (id : Nat) (ts : List Term) :
    Set.BijOn (Var.canonical id (varsOf ts)) { v | v ∈ varsOf ts }
      { v | v ∈ varsOf (canonicalAll id ts) } := by
  have himage : { v | v ∈ varsOf (canonicalAll id ts) } =
      Var.canonical id (varsOf ts) '' { v | v ∈ varsOf ts } := by
    rw [varsOf_canonicalAll_eq_map]
    ext w
    simp
  rw [himage]
  exact (Var.canonical_injOn id (varsOf ts)).bijOn_image

/-- Lists with the same canonical renaming differ in their variables only. -/
theorem exists_bijOn_of_canonicalAll_eq (h : canonicalAll id ts = canonicalAll id us) :
    ∃ f : Var → Var, Set.BijOn f { v | v ∈ varsOf ts } { v | v ∈ varsOf us } ∧
      ts.map (rename f) = us := by
  have hts := bijOn_canonical id ts
  have hus := bijOn_canonical id us
  rw [← h] at hus
  -- back from the new variables to those of the second list
  let g := Function.invFunOn (Var.canonical id (varsOf us)) { v | v ∈ varsOf us }
  have hinv : Set.InvOn g (Var.canonical id (varsOf us)) _ _ := hus.invOn_invFunOn
  refine ⟨g ∘ Var.canonical id (varsOf ts), (hus.symm hinv.symm).comp hts, ?_⟩
  have hback : us.map (rename (g ∘ Var.canonical id (varsOf us))) = us :=
    calc us.map (rename (g ∘ Var.canonical id (varsOf us)))
      _ = us.map (rename fun v => v) := map_rename_congr fun v hv => hinv.1 hv
      _ = us := (List.map_congr_left fun t _ => t.subst_self).trans us.map_id'
  rw [← map_rename_map_rename, ← canonicalAll, h, canonicalAll, map_rename_map_rename, hback]

/-- **Renaming gives a canonical form.**  One walk through a list of terms gives the canonical
renaming.  Two lists have the same one exactly if the variables of the one can be renamed, one to
one, so that it becomes the other.  The distinct variables of a renamed list, in the order in which
they appear, are the new variables of the clause from the first on, and no name is among them
twice. -/
theorem canonicalAll_canonical (id : Nat) (ts us : List Term) :
    ((RenamingTable.renameTerms id ∅ ts).1 = canonicalAll id ts ∧
      (RenamingTable.renameTerms id ∅ us).1 = canonicalAll id us) ∧
    (canonicalAll id ts = canonicalAll id us ↔
      ∃ f : Var → Var, Set.BijOn f { v | v ∈ varsOf ts } { v | v ∈ varsOf us } ∧
        ts.map (rename f) = us) ∧
    (varsOf (canonicalAll id ts) =
      (List.range (varsOf ts).length).map fun i => ⟨freshName i, id⟩) ∧
    ((varsOf (canonicalAll id ts)).map Var.name).Nodup := by
  refine ⟨⟨RenamingTable.renameTerms_eq id ts, RenamingTable.renameTerms_eq id us⟩, ?_,
    varsOf_canonicalAll id ts, ?_⟩
  · refine ⟨exists_bijOn_of_canonicalAll_eq, ?_⟩
    rintro ⟨f, hf, rfl⟩
    exact (canonicalAll_rename hf.injOn id).symm
  · rw [varsOf_canonicalAll, List.map_map]
    exact List.nodup_range.map freshName_injective

end Term
end Refutation
