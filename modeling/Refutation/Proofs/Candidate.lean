import Mathlib.Data.List.Permutation
import Refutation.Proofs.Freshness
import Refutation.Proofs.Unifier
import Refutation.Resolution

/-!
# Candidates and resolvents

A candidate is an instance of both parents at once, and no unifier of the literals resolved on
gives an instance that the candidate does not have.  A resolvent is a candidate without two
complementary literals.  These need not be the two that were resolved on, but it does not matter
which they are where only their number counts, or the number of literals that hold.

## Main definitions

* `Clause.instantiation` — the replacement that makes the parents' literals those of a candidate.
* `Clause.ResolventOn` — a clause is the resolvent of two others on a literal of each.

## Main results

* `perm_of_cancelPair?` — a cancellation takes out two complementary literals.
* `Clause.exists_subst_candidate` — a candidate has every common instance of its parents.
* `Clause.exists_resolventOn` — there is a resolvent wherever two clashing literals unify.
-/

namespace Refutation

/-! ### Cancelling -/

theorem Literal.clashes_comm (l m : Literal) : l.clashes m = m.clashes l := by
  rw [clashes, clashes, samePredicate, samePredicate, bne_comm, BEq.comm]

theorem Literal.complements_comm (l m : Literal) : l.complements m = m.complements l := by
  rw [complements, complements, clashes_comm, BEq.comm]

/-- A literal is the only complement of its complement. -/
theorem Literal.eq_of_complements {l m k : Literal} (hl : l.complements k = true)
    (hm : m.complements k = true) : l = m := by
  rw [complements_eq_true_iff] at hl hm
  obtain ⟨hlsign, hlpred, hlargs⟩ := hl
  obtain ⟨hmsign, hmpred, hmargs⟩ := hm
  cases l
  cases m
  simp_all

/-- A cancellation takes out two complementary literals and leaves the others. -/
theorem perm_of_cancelPair? {ls ms : List Literal} (h : cancelPair? ls = some ms) :
    ∃ l m, l.complements m = true ∧ ls.Perm (l :: m :: ms) := by
  induction ls generalizing ms with
  | nil => cases h
  | cons l ls ih =>
    rw [cancelPair?] at h
    split at h
    · next hany =>
      cases h
      obtain ⟨m, hm, hlm⟩ := List.any_eq_true.1 hany
      obtain ⟨k, pre, post, -, hlk, hls, hrest⟩ := List.exists_of_eraseP hm hlm
      refine ⟨l, k, hlk, ?_⟩
      rw [hrest, hls]
      exact List.perm_middle.cons l
    · obtain ⟨ms, hms, rfl⟩ := Option.map_eq_some_iff.1 h
      obtain ⟨m, k, hmk, hperm⟩ := ih hms
      refine ⟨m, k, hmk, (hperm.cons l).trans ?_⟩
      exact (List.Perm.swap m l _).trans ((List.Perm.swap k l ms).cons m)

/-- Something cancels where a literal is followed by a complement. -/
theorem exists_cancelPair? {ls ms : List Literal} {l m : Literal} (hl : l ∈ ls) (hm : m ∈ ms)
    (h : l.complements m = true) : ∃ ks, cancelPair? (ls ++ ms) = some ks := by
  induction ls with
  | nil => cases hl
  | cons k ls ih =>
    rw [List.cons_append, cancelPair?]
    split
    · exact ⟨_, rfl⟩
    · next hany =>
      rcases List.mem_cons.1 hl with rfl | hl
      · exact absurd (List.any_eq_true.2 ⟨m, List.mem_append_right ls hm, h⟩) hany
      · obtain ⟨ks, hks⟩ := ih hl
        exact ⟨k :: ks, by rw [hks, Option.map_some]⟩

/-- Of two literals in any order, one is the complement of the other or it is not. -/
theorem complements_of_perm {a b l m : Literal} (hperm : [a, b].Perm [l, m])
    (h : l.complements m = true) : a.complements b = true := by
  rcases List.pair_perm.1 hperm with heq | heq
  · cases heq
    exact h
  · cases heq
    rwa [Literal.complements_comm]

/-- Of three literals, two of which are complementary, the third is left, whichever two cancel. -/
theorem cancelPair?_eq_singleton {ls ms : List Literal} {a b u : Literal}
    (hperm : ls.Perm [a, b, u]) (hbu : b.complements u = true) (h : cancelPair? ls = some ms) :
    ms = [a] := by
  obtain ⟨l, m, hlm, hls⟩ := perm_of_cancelPair? h
  have hall : [a, b, u].Perm (l :: m :: ms) := hperm.symm.trans hls
  obtain ⟨k, rfl⟩ : ∃ k, ms = [k] := by
    have hlen := hall.length_eq
    simp only [List.length_cons, List.length_nil] at hlen
    exact List.length_eq_one_iff.1 (by omega)
  have hlast : ∀ x y z : Literal, [x, y, z].Perm [z, x, y] := by
    intro x y z
    exact ((List.Perm.swap z y []).cons x).trans (List.Perm.swap z x [y])
  have hmem : k ∈ [a, b, u] := hall.mem_iff.2 (by simp)
  simp only [List.mem_cons, List.not_mem_nil, or_false] at hmem
  rcases hmem with rfl | rfl | rfl
  · rfl
  · -- `a` and `u` have cancelled, and `u` has only one complement
    have hpair : [a, u].Perm [l, m] :=
      ((List.Perm.swap a k [u]).trans (hall.trans (hlast l m k))).cons_inv
    rw [Literal.eq_of_complements (complements_of_perm hpair hlm) hbu]
  · -- `a` and `b` have cancelled, and `b` has only one complement
    have hpair : [a, b].Perm [l, m] :=
      ((hlast a b k).symm.trans (hall.trans (hlast l m k))).cons_inv
    rw [Literal.complements_comm] at hbu
    rw [Literal.eq_of_complements (complements_of_perm hpair hlm) hbu]

/-! ### Candidates -/

theorem Literal.mapArgs_mapArgs (f g : Term → Term) (l : Literal) :
    (l.mapArgs f).mapArgs g = l.mapArgs (g ∘ f) := by
  rw [mapArgs, mapArgs, mapArgs, List.map_map]

/-- Clashing literals become complementary where their arguments become equal. -/
theorem Literal.complements_mapArgs {l m : Literal} {f : Term → Term}
    (hclash : l.clashes m = true) (hargs : l.args.map f = m.args.map f) :
    (l.mapArgs f).complements (m.mapArgs f) = true := by
  rw [clashes_eq_true_iff] at hclash
  exact complements_eq_true_iff.2 ⟨hclash.1, hclash.2, hargs⟩

namespace Clause

/-- What becomes of a variable of either parent in their candidate. -/
def instantiation (id : Nat) (σ : Substitution) (c d : Clause) (v : Var) : Term :=
  (σ.apply (.var v)).rename (Var.canonical id
    (((c.literals ++ d.literals).map (·.mapArgs σ.apply)).flatMap Literal.occurrences).eraseDups)

theorem subst_instantiation (id : Nat) (σ : Substitution) (c d : Clause) (t : Term) :
    t.subst (instantiation id σ c d) = (σ.apply t).rename (Var.canonical id
      (((c.literals ++ d.literals).map
        (·.mapArgs σ.apply)).flatMap Literal.occurrences).eraseDups) := by
  rw [σ.apply_eq_subst t, Term.rename, Term.subst_subst]
  rfl

/-- What the unifier makes equal is equal in the candidate. -/
theorem map_subst_instantiation {σ : Substitution} {ss ts : List Term}
    (h : Term.unifyAll ss ts = .ok σ) (id : Nat) (c d : Clause) :
    ss.map (Term.subst (instantiation id σ c d)) =
      ts.map (Term.subst (instantiation id σ c d)) := by
  have hmap := Term.map_apply_of_unifyAll h
  simp only [funext (subst_instantiation id σ c d), ← List.map_map, ← Function.comp_def]
  rw [hmap]

/-- The literals of a candidate are an instance of those of its parents. -/
theorem literals_candidate (id : Nat) (σ : Substitution) (c d : Clause) :
    (candidate id σ c d).literals =
      (c.literals ++ d.literals).map (·.mapArgs (Term.subst (instantiation id σ c d))) := by
  rw [candidate, Literal.canonicalAll, List.map_map]
  refine List.map_congr_left ?_
  intro l _
  rw [Function.comp_apply, Literal.mapArgs_mapArgs]
  congr 1
  funext t
  exact (subst_instantiation id σ c d t).symm

/-- The variables of a candidate are its own. -/
theorem ownsVars_candidate (id : Nat) (σ : Substitution) (c d : Clause) :
    (candidate id σ c d).OwnsVars :=
  fun _ hv => Literal.clause_of_mem_canonicalAll hv

/-- A candidate has every common instance of its parents that factors through its unifier. -/
theorem exists_subst_candidate {σ : Substitution} {θ : Var → Term} (h : σ.Factors θ) (id : Nat)
    (c d : Clause) :
    ∃ η : Var → Term, ∀ l ∈ c.literals ++ d.literals,
      (l.mapArgs (Term.subst (instantiation id σ c d))).mapArgs (Term.subst η) =
        l.mapArgs (Term.subst θ) := by
  obtain ⟨η, hη⟩ := Term.exists_subst_rename id
    (((c.literals ++ d.literals).map (·.mapArgs σ.apply)).flatMap Literal.occurrences).eraseDups θ
  refine ⟨η, ?_⟩
  intro l hl
  rw [Literal.mapArgs_mapArgs, Literal.mapArgs, Literal.mapArgs, Literal.mk.injEq]
  refine ⟨rfl, rfl, List.map_congr_left ?_⟩
  intro t ht
  rw [Function.comp_apply, subst_instantiation, hη, h]
  -- every variable of the unified argument has been given a new name
  intro v hv
  rw [List.mem_eraseDups]
  refine List.mem_flatMap.2 ⟨l.mapArgs σ.apply, List.mem_map_of_mem hl, ?_⟩
  exact List.mem_flatMap.2 ⟨σ.apply t, List.mem_map_of_mem ht, hv⟩

/-! ### Resolvents -/

/-- The clause `r` is the resolvent of `c` and `d` on the literals `l` and `m`. -/
def ResolventOn (c d : Clause) (l m : Literal) (r : Clause) : Prop :=
  ∃ σ, Term.unifyAll l.args m.args = .ok σ ∧ (candidate r.id σ c d).cancel? = some r

variable {c d r : Clause} {l m : Literal}

/-- A cancellation keeps the number of a clause. -/
theorem id_of_cancel? (h : c.cancel? = some r) : r.id = c.id := by
  obtain ⟨ls, -, rfl⟩ := Option.map_eq_some_iff.1 h
  rfl

theorem cancelPair?_of_cancel? (h : c.cancel? = some r) :
    cancelPair? c.literals = some r.literals := by
  obtain ⟨ls, hls, rfl⟩ := Option.map_eq_some_iff.1 h
  exact hls

/-- Two clashing literals whose arguments unify give a resolvent. -/
theorem exists_resolventOn {σ : Substitution} (hl : l ∈ c.literals) (hm : m ∈ d.literals)
    (hclash : l.clashes m = true) (hσ : Term.unifyAll l.args m.args = .ok σ) (id : Nat) :
    ∃ r, r.id = id ∧ (candidate id σ c d).cancel? = some r ∧ ResolventOn c d l m r := by
  have hcompl := Literal.complements_mapArgs hclash (map_subst_instantiation hσ id c d)
  obtain ⟨ls, hls⟩ := exists_cancelPair?
    (List.mem_map_of_mem (f := (·.mapArgs (Term.subst (instantiation id σ c d)))) hl)
    (List.mem_map_of_mem hm) hcompl
  rw [← List.map_append, ← literals_candidate] at hls
  have hcancel : (candidate id σ c d).cancel? = some ⟨id, ls⟩ := by
    rw [cancel?, hls]
    rfl
  exact ⟨⟨id, ls⟩, rfl, hcancel, σ, hσ, hcancel⟩

namespace ResolventOn

theorem exists_unifyAll (h : ResolventOn c d l m r) :
    ∃ σ, Term.unifyAll l.args m.args = .ok σ := by
  obtain ⟨σ, hσ, -⟩ := h
  exact ⟨σ, hσ⟩

/-- A resolvent has two literals less than its parents together. -/
theorem length_literals (h : ResolventOn c d l m r) :
    r.literals.length + 2 = c.literals.length + d.literals.length := by
  obtain ⟨σ, -, hr⟩ := h
  have hlen := length_of_cancelPair? (cancelPair?_of_cancel? hr)
  rwa [literals_candidate, List.length_map, List.length_append] at hlen

/-- So all resolvents of two clauses have the same size. -/
theorem size_eq (h : ResolventOn c d l m r) : r.size = c.size + d.size - 2 := by
  have hlen := h.length_literals
  rw [size, size, size]
  omega

/-- Only clauses of one literal each have an empty resolvent. -/
theorem eq_singleton_of_nil (h : ResolventOn c d l m r) (hl : l ∈ c.literals)
    (hm : m ∈ d.literals) (hr : r.literals = []) : c.literals = [l] ∧ d.literals = [m] := by
  have hlen := h.length_literals
  have hposc := List.length_pos_of_mem hl
  have hposd := List.length_pos_of_mem hm
  rw [hr, List.length_nil] at hlen
  have hone : ∀ {ls : List Literal} {k : Literal}, ls.length = 1 → k ∈ ls → ls = [k] := by
    intro ls k hls hk
    obtain ⟨k', rfl⟩ := List.length_eq_one_iff.1 hls
    rw [List.mem_singleton.1 hk]
  exact ⟨hone (by omega) hl, hone (by omega) hm⟩

end ResolventOn
end Clause
end Refutation
