import Refutation.Proofs.Links

/-!
# The exact outcome of resolving two clauses

What two clauses come to is told by a number, that of the pairs of literals, one of each, that clash
and have arguments that unify.  Every one of them gives a resolvent with a number of its own.  The
clauses are refuted if they are of one literal each and there is such a pair.  Otherwise the limit
admits all resolvents or none, as all are of one size.

## Main definitions

* `Clause.resolvablePairs` — the pairs that clash and unify, in the order in which they are tried.
* `positives` — how many literals of a list are positive.

## Main results

* `Clause.ResolventOn.positives_eq` — how many positive literals a resolvent has.
* `Clause.refuted_iff` — when two clauses are refuted.
* `Clause.resolve_tally` — **the exact outcome of resolving two clauses**.
-/

namespace Refutation

/-! ### Signs -/

/-- The number of positive literals. -/
def positives (ls : List Literal) : Nat := ls.countP Literal.positive

theorem positives_add_negatives (ls : List Literal) :
    positives ls + negatives ls = ls.length := by
  rw [positives, negatives, List.length_eq_countP_add_countP Literal.positive]
  simp

namespace Clause

variable {limit : Limit} {c d x : Clause} {l m : Literal} {lastId : Nat}

/-- Cancelling takes one positive literal away. -/
theorem ResolventOn.positives_eq (h : ResolventOn c d l m x) :
    positives x.literals + 1 = positives c.literals + positives d.literals := by
  have hlen := h.length_literals
  have hneg := h.negatives_eq
  have hx := positives_add_negatives x.literals
  have hc := positives_add_negatives c.literals
  have hd := positives_add_negatives d.literals
  omega

/-! ### Resolvable pairs -/

/-- The pairs of a literal of `c` and one of `d` that clash and have arguments that unify, ordered by
the place of the first and then of the second. -/
def resolvablePairs (c d : Clause) : List (Literal × Literal) :=
  (c.literals.product d.literals).filter fun p => p.1.clashes p.2 && unifies p

theorem mem_resolvablePairs :
    (l, m) ∈ resolvablePairs c d ↔ l ∈ c.literals ∧ m ∈ d.literals ∧ l.clashes m = true ∧
      ∃ σ, Term.unifyAll l.args m.args = .ok σ := by
  simp [resolvablePairs, unifies_eq_true_iff, and_assoc]

/-- The resolvable pairs are those of the clashing ones that unify. -/
theorem filter_clashingPairs : (clashingPairs c d).filter unifies = resolvablePairs c d := by
  simp [clashingPairs, resolvablePairs, List.product, List.filter_flatMap, List.filter_map,
    Function.comp_def, Bool.and_comm]

/-- If the clauses are not refuted, there is a resolvent for each resolvable pair. -/
theorem exists_resolvents_resolve (h : (resolve limit lastId c d).refuted = false) :
    ∃ rs : List Clause,
      List.Forall₂ (fun p r => ResolventOn c d p.1 p.2 r) (resolvablePairs c d) rs ∧
      rs.map Clause.id = List.range' (lastId + 1) (resolvablePairs c d).length ∧
      (resolve limit lastId c d).kept =
        (if limit.admits (c.size + d.size - 2) then rs else []) ∧
      (resolve limit lastId c d).lastId = lastId + (resolvablePairs c d).length := by
  obtain ⟨rs, hall, hids, -, hkept, hlast⟩ := exists_resolvents (fun _ hp => hp) h
  rw [filter_clashingPairs] at hall
  rw [← hall.length_eq] at hids hlast
  exact ⟨rs, hall, hids, hkept, hlast⟩

/-! ### Refutations -/

/-- Clauses that contradict one another have one pair, and it is resolvable. -/
theorem contradicts_iff :
    c.Contradicts d ↔ c.size = 1 ∧ d.size = 1 ∧ (resolvablePairs c d).length = 1 := by
  constructor
  · rintro ⟨l, m, σ, hc, hd, hclash, hσ⟩
    have hunify := unifies_eq_true_iff.2 ⟨σ, hσ⟩
    simp [size, resolvablePairs, List.product, hc, hd, hclash, hunify]
  · rintro ⟨hc, hd, hpairs⟩
    obtain ⟨l, hc⟩ := List.length_eq_one_iff.1 hc
    obtain ⟨m, hd⟩ := List.length_eq_one_iff.1 hd
    obtain ⟨⟨l', m'⟩, hmem⟩ := List.exists_mem_of_length_pos (hpairs ▸ Nat.one_pos)
    obtain ⟨hl, hm, hclash, σ, hσ⟩ := mem_resolvablePairs.1 hmem
    rw [hc, List.mem_singleton] at hl
    rw [hd, List.mem_singleton] at hm
    exact ⟨l, m, σ, hc, hd, by rw [← hl, ← hm, hclash], by rw [← hl, ← hm, hσ]⟩

/-- Two clauses are refuted if they contradict one another. -/
theorem refuted_iff : (resolve limit lastId c d).refuted = true ↔
    c.size = 1 ∧ d.size = 1 ∧ (resolvablePairs c d).length = 1 :=
  ⟨fun h => contradicts_iff.1 (contradicts_of_refuted h),
    fun h => (contradicts_iff.2 h).refuted limit lastId⟩

/-- A refutation keeps nothing, and uses the number of its one pair. -/
theorem outcome_of_refuted (h : (resolve limit lastId c d).refuted = true) :
    (resolve limit lastId c d).kept = [] ∧ (resolve limit lastId c d).lastId = lastId + 1 := by
  obtain ⟨l, m, σ, hc, hd, hclash, hσ⟩ := contradicts_of_refuted h
  have hl : l ∈ c.literals := by simp [hc]
  have hm : m ∈ d.literals := by simp [hd]
  obtain ⟨r, -, hcancel, hr⟩ := exists_resolventOn hl hm hclash hσ (lastId + 1)
  have hempty : r.isEmpty = true := by
    have hlen := hr.length_literals
    rw [hc, hd] at hlen
    simpa [isEmpty] using hlen
  have hpairs : clashingPairs c d = [(l, m)] := by simp [clashingPairs, hc, hd, hclash]
  rw [resolve, hpairs, resolveOn, hσ]
  simp [hcancel, hempty]

/-! ### The outcome -/

/-- **The exact outcome of resolving two clauses.**  Each pair of literals that clash and unify gives
a candidate that cancels, and leaves one positive and one negative literal less than the clauses have
together.  The clauses are refuted if they are of one literal each and there is one such pair, and
then nothing is kept.  Otherwise one resolvent is kept for each pair, in order and with the next
numbers, if the limit admits their common size, and none if it does not.  In any case there are as
many numbers used as there are pairs. -/
theorem resolve_tally (limit : Limit) (lastId : Nat) (c d : Clause) :
    let k := (resolvablePairs c d).length
    let o := resolve limit lastId c d
    (∀ p ∈ resolvablePairs c d, ∀ σ, Term.unifyAll p.1.args p.2.args = .ok σ → ∀ id,
      ∃ r, (candidate id σ c d).cancel? = some r ∧
        positives r.literals + 1 = positives c.literals + positives d.literals ∧
        negatives r.literals + 1 = negatives c.literals + negatives d.literals) ∧
    (o.refuted = true ↔ c.size = 1 ∧ d.size = 1 ∧ k = 1) ∧
    (o.refuted = true → o.kept = []) ∧
    (o.refuted = false → limit.admits (c.size + d.size - 2) = true →
      List.Forall₂ (fun p r => ResolventOn c d p.1 p.2 r) (resolvablePairs c d) o.kept ∧
        o.kept.map Clause.id = List.range' (lastId + 1) k) ∧
    (o.refuted = false → limit.admits (c.size + d.size - 2) = false → o.kept = []) ∧
    o.lastId = lastId + k := by
  intro k o
  refine ⟨?_, refuted_iff, fun h => (outcome_of_refuted h).1, ?_, ?_, ?_⟩
  · rintro ⟨l, m⟩ hp σ hσ id
    obtain ⟨hl, hm, hclash, -⟩ := mem_resolvablePairs.1 hp
    obtain ⟨r, -, hcancel, hr⟩ := exists_resolventOn hl hm hclash hσ id
    exact ⟨r, hcancel, hr.positives_eq, hr.negatives_eq⟩
  · intro h hadmits
    obtain ⟨rs, hall, hids, hkept, -⟩ := exists_resolvents_resolve h
    rw [hkept, if_pos hadmits]
    exact ⟨hall, hids⟩
  · intro h hadmits
    obtain ⟨rs, -, -, hkept, -⟩ := exists_resolvents_resolve h
    simp [o, hkept, hadmits]
  · cases h : o.refuted with
    | true =>
      have hone : k = 1 := (refuted_iff.1 h).2.2
      rw [hone]
      exact (outcome_of_refuted h).2
    | false =>
      obtain ⟨rs, -, -, -, hlast⟩ := exists_resolvents_resolve h
      exact hlast

/-- The outcome for two pairs, with resolvents within the limit and beyond it, and for one pair of
literals that are alone in their clauses. -/
theorem resolve_tally_three :
    let p : Term → Literal := fun t => ⟨true, "p", [t]⟩
    let c : Clause := ⟨1, [p (.var ⟨"X", 1⟩), p (.const "a")]⟩
    let d : Clause := ⟨2, [⟨false, "p", [.var ⟨"Y", 2⟩]⟩]⟩
    let e : Clause := ⟨3, [p (.app "f" [.var ⟨"X", 3⟩])]⟩
    ((resolve (.below 2) 7 c d).refuted = false ∧
      (resolve (.below 2) 7 c d).kept.map Clause.id = [8, 9] ∧
      (resolve (.below 2) 7 c d).lastId = 9) ∧
    ((resolve (.below 1) 7 c d).kept = [] ∧ (resolve (.below 1) 7 c d).lastId = 9) ∧
    ((resolve .unlimited 7 e d).refuted = true ∧ (resolve .unlimited 7 e d).kept = [] ∧
      (resolve .unlimited 7 e d).lastId = 8) := by
  intro p c d e
  have htwo : (resolvablePairs c d).length = 2 := by decide +kernel
  have hone : (resolvablePairs e d).length = 1 := by decide +kernel
  have hgoes : ∀ n, (resolve (.below n) 7 c d).refuted = false := by
    intro n
    refine Bool.eq_false_iff.2 fun h => ?_
    exact absurd ((resolve_tally (.below n) 7 c d).2.1.1 h).1 (by decide)
  obtain ⟨-, -, -, hkept, -, hlast⟩ := resolve_tally (.below 2) 7 c d
  obtain ⟨-, -, -, -, hnone, hlast'⟩ := resolve_tally (.below 1) 7 c d
  obtain ⟨-, hrefuted, hempty, -, -, hlast''⟩ := resolve_tally .unlimited 7 e d
  rw [htwo] at hkept hlast hlast'
  rw [hone] at hrefuted hlast''
  have hend := hrefuted.2 (by decide)
  exact ⟨⟨hgoes 2, (hkept (hgoes 2) (by decide)).2, hlast⟩, ⟨hnone (hgoes 1) (by decide), hlast'⟩,
    hend, hempty hend, hlast''⟩

end Clause
end Refutation
