import Mathlib.Data.Multiset.Bind
import Refutation.Proofs.Mirror
import Refutation.Proofs.Tally

/-!
# Resolving two clauses the other way round

A pair of literals clashes and unifies in either order, so two clauses have as many resolvable pairs
as they have the other way round, and that number decides what they come to.  The unifiers of a
pair in its two orders are mirror images and the candidates get new names in any case, so it does
not matter for a candidate which of the two is applied.  The order of the parents shows in the order
of the literals, and in the names, which go by the order in which the variables appear.

## Main results

* `Clause.perm_resolvablePairs` — the resolvable pairs of two clauses the other way round.
* `Clause.candidate_of_renamed` — unifiers that differ by a renaming give the same candidate.
* `Clause.exists_rename_candidate` — the candidates of two clauses in their two orders.
* `Clause.resolve_reversed` — **two clauses come to the same the other way round**.
-/

namespace Refutation

/-! ### New names -/

namespace Literal

theorem canonicalAll_eq_map_rename (id : Nat) (ls : List Literal) :
    canonicalAll id ls =
      ls.map (rename (Var.canonical id (ls.flatMap occurrences).eraseDups)) := rfl

/-- Two blocks of literals in their two orders get new names that differ by a renaming. -/
theorem exists_rename_canonicalAll (i j : Nat) (ls ms : List Literal) :
    ∃ (φ : Var → Var) (ks ns : List Literal), Function.Injective φ ∧
      ks.length = ls.length ∧ ns.length = ms.length ∧
      canonicalAll i (ls ++ ms) = ks ++ ns ∧
      canonicalAll j (ms ++ ls) = (ns ++ ks).map (rename φ) := by
  rw [canonicalAll_eq_map_rename, canonicalAll_eq_map_rename]
  generalize hvs : ((ls ++ ms).flatMap occurrences).eraseDups = vs
  generalize hws : ((ms ++ ls).flatMap occurrences).eraseDups = ws
  -- the variables are the same, whichever block comes first
  have hmem : ∀ v, v ∈ vs → v ∈ ws := by
    intro v hv
    simp only [← hvs, ← hws, List.mem_eraseDups, List.flatMap_append, List.mem_append] at hv ⊢
    exact hv.symm
  have hinj : Set.InjOn (Var.canonical j ws) { v | v ∈ vs } :=
    (Var.canonical_injOn j ws).mono hmem
  obtain ⟨φ, hφ, heq⟩ := Var.exists_injective_comp (Var.canonical_injOn i vs) hinj
  refine ⟨φ, ls.map (rename (Var.canonical i vs)), ms.map (rename (Var.canonical i vs)), hφ,
    List.length_map .., List.length_map .., List.map_append, ?_⟩
  rw [← List.map_append, List.map_map]
  refine List.map_congr_left ?_
  intro l hl
  rw [Function.comp_apply, rename_rename]
  refine rename_congr ?_
  intro v hv
  have hvmem : v ∈ vs := by
    rw [← hvs, List.mem_eraseDups]
    exact List.mem_flatMap.2 ⟨l, List.perm_append_comm.mem_iff.1 hl, hv⟩
  exact (heq v hvmem).symm

end Literal

namespace Clause

variable {σ τ : Substitution}

/-! ### Resolvable pairs -/

theorem unifies_swap (p : Literal × Literal) : unifies p.swap = unifies p := by
  have hone : ∀ {l m : Literal}, unifies (l, m) = true → unifies (m, l) = true := by
    intro l m h
    obtain ⟨σ, hσ⟩ := unifies_eq_true_iff.1 h
    exact unifies_eq_true_iff.2 (Term.exists_unifyAll_comm hσ)
  exact Bool.eq_iff_iff.2 ⟨hone, hone⟩

theorem perm_product {α β : Type} (as : List α) (bs : List β) :
    (bs.product as).Perm ((as.product bs).map Prod.swap) := by
  have h := Multiset.map_swap_product (as : Multiset α) (bs : Multiset β)
  rw [Multiset.coe_product, Multiset.coe_product, Multiset.map_coe] at h
  exact (Multiset.coe_eq_coe.1 h).symm

/-- The resolvable pairs of two clauses are those of the clauses the other way round. -/
theorem perm_resolvablePairs (c d : Clause) :
    (resolvablePairs d c).Perm ((resolvablePairs c d).map Prod.swap) := by
  have hswap : (fun p : Literal × Literal => p.1.clashes p.2 && unifies p) ∘ Prod.swap =
      fun p => p.1.clashes p.2 && unifies p := by
    funext p
    rw [Function.comp_apply, unifies_swap, Prod.fst_swap, Prod.snd_swap, Literal.clashes_comm]
  have hperm := (perm_product c.literals d.literals).filter
    fun p : Literal × Literal => p.1.clashes p.2 && unifies p
  rw [List.filter_map, hswap] at hperm
  exact hperm

theorem length_resolvablePairs_comm (c d : Clause) :
    (resolvablePairs d c).length = (resolvablePairs c d).length := by
  rw [(perm_resolvablePairs c d).length_eq, List.length_map]

/-! ### Outcomes -/

theorem refuted_resolve_comm (limit : Limit) (lastId : Nat) (c d : Clause) :
    (resolve limit lastId d c).refuted = (resolve limit lastId c d).refuted := by
  rw [Bool.eq_iff_iff, refuted_iff, refuted_iff, length_resolvablePairs_comm, and_left_comm]

/-- How many clauses are kept, and how many numbers are used. -/
theorem length_kept_and_lastId (limit : Limit) (lastId : Nat) (c d : Clause) :
    (resolve limit lastId c d).kept.length =
      (if (resolve limit lastId c d).refuted = false ∧ limit.admits (c.size + d.size - 2) = true
        then (resolvablePairs c d).length else 0) ∧
    (resolve limit lastId c d).lastId = lastId + (resolvablePairs c d).length := by
  cases h : (resolve limit lastId c d).refuted with
  | true =>
    obtain ⟨hkept, hlast⟩ := outcome_of_refuted h
    rw [hkept, hlast, (refuted_iff.1 h).2.2]
    exact ⟨rfl, rfl⟩
  | false =>
    obtain ⟨rs, hall, -, hkept, hlast⟩ := exists_resolvents_resolve h
    refine ⟨?_, hlast⟩
    rw [hkept, hall.length_eq]
    split
    · next hadmits => simp [hadmits]
    · next hadmits => simp [hadmits]

/-! ### Candidates -/

/-- Unifiers that differ by a renaming give the same candidate. -/
theorem candidate_of_renamed {f : Var → Var} (hf : Function.Injective f)
    (h : ∀ t, (σ.apply t).rename f = τ.apply t) (id : Nat) (c d : Clause) :
    candidate id τ c d = candidate id σ c d := by
  have hlits : (c.literals ++ d.literals).map (·.mapArgs τ.apply) =
      ((c.literals ++ d.literals).map (·.mapArgs σ.apply)).map (Literal.rename f) := by
    rw [List.map_map]
    refine List.map_congr_left ?_
    intro l _
    rw [Function.comp_apply, Literal.rename, Literal.mapArgs_mapArgs]
    exact congrArg (l.mapArgs ·) (funext fun t => (h t).symm)
  rw [candidate, hlits, Literal.canonicalAll_rename hf, ← candidate]

/-- The candidates of two clauses in their two orders have the same literals, but for the order of
the two blocks and a renaming. -/
theorem exists_rename_candidate (i j : Nat) (σ : Substitution) (c d : Clause) :
    ∃ (φ : Var → Var) (ks ns : List Literal), Function.Injective φ ∧
      ks.length = c.size ∧ ns.length = d.size ∧
      (candidate i σ c d).literals = ks ++ ns ∧
      (candidate j σ d c).literals = (ns ++ ks).map (Literal.rename φ) := by
  have h := Literal.exists_rename_canonicalAll i j (c.literals.map (·.mapArgs σ.apply))
    (d.literals.map (·.mapArgs σ.apply))
  rwa [← List.map_append, ← List.map_append, List.length_map, List.length_map] at h

/-! ### The other way round -/

/-- **Two clauses come to the same the other way round.**  Either they are refuted in both orders or
in none, as many resolvents are kept, and as many numbers are used.  A pair of literals that clash
and unify does so in the other order, and its two candidates, whatever numbers they get, are made up
of the same two blocks of literals, in the two orders of the parents and up to a renaming. -/
theorem resolve_reversed (limit : Limit) (lastId : Nat) (c d : Clause) :
    let o := resolve limit lastId c d
    let o' := resolve limit lastId d c
    (o'.refuted = o.refuted ∧ o'.kept.length = o.kept.length ∧ o'.lastId = o.lastId) ∧
    ∀ l ∈ c.literals, ∀ m ∈ d.literals, l.clashes m = true →
      ∀ σ, Term.unifyAll l.args m.args = .ok σ →
        m.clashes l = true ∧ ∃ τ, Term.unifyAll m.args l.args = .ok τ ∧
          ∀ i j, ∃ (φ : Var → Var) (ks ns : List Literal), Function.Injective φ ∧
            ks.length = c.size ∧ ns.length = d.size ∧
            (candidate i σ c d).literals = ks ++ ns ∧
            (candidate j τ d c).literals = (ns ++ ks).map (Literal.rename φ) := by
  intro o o'
  have hrefuted := refuted_resolve_comm limit lastId c d
  obtain ⟨hkept, hlast⟩ := length_kept_and_lastId limit lastId c d
  obtain ⟨hkept', hlast'⟩ := length_kept_and_lastId limit lastId d c
  have hlength := length_resolvablePairs_comm c d
  refine ⟨⟨hrefuted, ?_, ?_⟩, ?_⟩
  · rw [hkept, hkept', hrefuted, hlength, Nat.add_comm d.size]
  · rw [hlast, hlast', hlength]
  · intro l _ m _ hclash σ hσ
    obtain ⟨ρ, -, hρ⟩ := Term.exists_mirrored_unifyAll l.args m.args
    rw [hσ] at hρ
    rw [Literal.clashes_comm]
    generalize hτ : Term.unifyAll m.args l.args = r at hρ
    cases hρ with
    | @ok _ τ hτσ =>
      refine ⟨hclash, τ, rfl, fun i j => ?_⟩
      rw [candidate_of_renamed ρ.injective hτσ]
      exact exists_rename_candidate i j σ c d

/-- Two clauses that share the variable `Y` keep one resolvent in either order, and the unifiers of
the two orders bind different variables. -/
theorem resolve_reversed_shared :
    let v : String → Term := fun name => .var ⟨name, 1⟩
    let l : Literal := ⟨true, "p", [v "X", v "Y"]⟩
    let m : Literal := ⟨false, "p", [v "Z", .app "f" [v "Z"]]⟩
    let c : Clause := ⟨1, [⟨true, "q", [v "Y"]⟩, l]⟩
    let d : Clause := ⟨2, [m]⟩
    let σ : Substitution := [⟨⟨"X", 1⟩, v "Z"⟩, ⟨⟨"Y", 1⟩, .app "f" [v "Z"]⟩]
    let τ : Substitution := [⟨⟨"Z", 1⟩, v "X"⟩, ⟨⟨"Y", 1⟩, .app "f" [v "X"]⟩]
    ((resolve (.below 2) 7 d c).refuted = false ∧ (resolve (.below 2) 7 d c).kept.length = 1 ∧
      (resolve (.below 2) 7 d c).lastId = 8) ∧
    Term.unifyAll l.args m.args = .ok σ ∧ Term.unifyAll m.args l.args = .ok τ ∧
      ∀ i j, ∃ (φ : Var → Var) (ks ns : List Literal), Function.Injective φ ∧
        ks.length = 2 ∧ ns.length = 1 ∧ (candidate i σ c d).literals = ks ++ ns ∧
        (candidate j τ d c).literals = (ns ++ ks).map (Literal.rename φ) := by
  intro v l m c d σ τ
  obtain ⟨⟨hrefuted, hkept, hlast⟩, hpairs⟩ := resolve_reversed (.below 2) 7 c d
  have hσ : Term.unifyAll l.args m.args = .ok σ := eq_ok_of_toOption (by decide +kernel)
  have hτ : Term.unifyAll m.args l.args = .ok τ := eq_ok_of_toOption (by decide +kernel)
  obtain ⟨-, υ, hυ, hcandidates⟩ := hpairs l (by decide) m (by decide) (by decide) σ hσ
  cases hτ.symm.trans hυ
  have hone : (resolve (.below 2) 7 c d).refuted = false ∧
      (resolve (.below 2) 7 c d).kept.length = 1 ∧ (resolve (.below 2) 7 c d).lastId = 8 := by
    decide +kernel
  rw [← hrefuted, ← hkept, ← hlast] at hone
  exact ⟨hone, hσ, hτ, hcandidates⟩

end Clause
end Refutation
