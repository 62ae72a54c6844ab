import Refutation.Proofs.Links

/-!
# On which link a clause was made

The literal pairs that unify are, in their order, those that the clauses kept have come from, unless
a refutation cuts them off; or none is kept, for all that two clauses give is of one size and the
limit admits it or not.  Numbers tell the clauses kept from one another, so each clause that a run
stores has come from one place of one literal and one place of another, and from one step.

## Main definitions

* `Clause.placedPairs` — the clashing pairs with their places.
* `Run.Made` — a clause is made on a link in the turn of a clause.

## Main results

* `Clause.forall₂_kept_resolveOn` — the clauses kept, one for each pair that unifies.
* `Run.Made.inj` — a clause is made once.
* `Run.exists_made_of_meets` — every unifiable link of two clauses that are resolved gives a clause.
-/

namespace Refutation
namespace Clause

variable {limit : Limit} {c d : Clause} {l m : Literal} {lastId i j : Nat}

/-! ### Places -/

/-- A literal and its place. -/
abbrev Placed := Literal × Nat

/-- The clashing pairs in the order in which they are tried, with their places. -/
def placedPairs (c d : Clause) : List (Placed × Placed) :=
  c.literals.zipIdx.flatMap fun l =>
    (d.literals.zipIdx.filter fun m => l.1.clashes m.1).map fun m => (l, m)

/-- A pair without its places. -/
def pairOf (p : Placed × Placed) : Literal × Literal := (p.1.1, p.2.1)

theorem mem_placedPairs :
    ((l, i), (m, j)) ∈ placedPairs c d ↔
      c.literals[i]? = some l ∧ d.literals[j]? = some m ∧ l.clashes m = true := by
  simp [placedPairs, List.mk_mem_zipIdx_iff_getElem?]

theorem map_placedPairs (c d : Clause) : (placedPairs c d).map pairOf = clashingPairs c d := by
  have hd : ∀ l : Literal, d.literals.filter l.clashes =
      (d.literals.zipIdx.filter fun m => l.clashes m.1).map Prod.fst := by
    intro l
    nth_rewrite 1 [← List.zipIdx_map_fst 0 d.literals]
    exact List.filter_map
  rw [clashingPairs, ← List.zipIdx_map_fst 0 c.literals, List.flatMap_map, placedPairs,
    List.map_flatMap]
  refine congrArg (List.flatMap · c.literals.zipIdx) (funext fun l => ?_)
  rw [hd, List.map_map, List.map_map]
  rfl

/-- If the clauses are not refuted and the limit admits what they give, the clauses kept are the
resolvents on the pairs that unify, one for each. -/
theorem forall₂_kept_resolveOn {pairs : List (Literal × Literal)}
    (hadmits : limit.admits (c.size + d.size - 2) = true)
    (hpairs : ∀ p ∈ pairs, p ∈ clashingPairs c d)
    (h : (resolveOn limit c d lastId pairs).refuted = false) :
    List.Forall₂ (fun p x => ResolventOn c d p.1 p.2 x) (pairs.filter unifies)
      (resolveOn limit c d lastId pairs).kept := by
  obtain ⟨rs, hall, -, -, hkept, -⟩ := exists_resolvents hpairs h
  rwa [hkept, if_pos hadmits]

/-- The pairs that unify, with their places. -/
def unifyingPairs (c d : Clause) : List (Placed × Placed) :=
  (placedPairs c d).filter fun p => unifies (pairOf p)

theorem mem_unifyingPairs :
    ((l, i), (m, j)) ∈ unifyingPairs c d ↔
      c.literals[i]? = some l ∧ d.literals[j]? = some m ∧ l.clashes m = true ∧
        ∃ σ, Term.unifyAll l.args m.args = .ok σ := by
  rw [unifyingPairs, List.mem_filter, mem_placedPairs, pairOf, unifies_eq_true_iff, and_assoc,
    and_assoc]

theorem forall₂_kept_resolve (hadmits : limit.admits (c.size + d.size - 2) = true)
    (h : (resolve limit lastId c d).refuted = false) :
    List.Forall₂ (fun p x => ResolventOn c d p.1.1 p.2.1 x) (unifyingPairs c d)
      (resolve limit lastId c d).kept := by
  have hkept := forall₂_kept_resolveOn hadmits (fun _ hp => hp) h
  rw [← map_placedPairs, List.filter_map, List.forall₂_map_left_iff, map_placedPairs] at hkept
  exact hkept

/-- The link that a pair makes: its positive literal and its negative one. -/
def linkOf (c d : Clause) (p : Placed × Placed) : Link :=
  if p.1.1.positive then ⟨c, p.1.2, d, p.2.2⟩ else ⟨d, p.2.2, c, p.1.2⟩

/-- What has come from a pair is a resolvent on its link. -/
theorem resolvent_linkOf {x : Clause} {p : Placed × Placed} (hp : p ∈ unifyingPairs c d)
    (hx : ResolventOn c d p.1.1 p.2.1 x) : (linkOf c d p).Resolvent x := by
  obtain ⟨⟨l, i⟩, m, j⟩ := p
  obtain ⟨hl, hm, hclash, -⟩ := mem_unifyingPairs.1 hp
  rw [linkOf]
  split
  · next hpos => exact ⟨l, m, hl, hm, hpos, hclash, Or.inl hx⟩
  · next hpos =>
    have hsign := (Literal.clashes_eq_true_iff.1 hclash).1
    refine ⟨m, l, hm, hl, ?_, by rw [Literal.clashes_comm, hclash], Or.inr hx⟩
    dsimp only at hpos
    cases hmpos : m.positive with
    | true => rfl
    | false =>
      rw [hmpos] at hsign
      exact absurd hsign hpos

end Clause

/-! ### Runs -/

namespace Run

variable {r : Run} {n : Nat} {c d x : Clause} {k : Link}

/-- The clause `x` is made on the link `k`, in the turn of `c`: it is kept at the place in the order
that the pair of the link has among those that unify. -/
def Made (r : Run) (c : Clause) (k : Link) (x : Clause) : Prop :=
  ∃ (t : Nat) (d : Clause) (p : Clause.Placed × Clause.Placed) (i : Nat),
    (steps t r).action = .resolve c d ∧ (Clause.unifyingPairs c d)[i]? = some p ∧
    (c.resolve (steps t r).state.limit (steps t r).state.lastId d).kept[i]? = some x ∧
    k = Clause.linkOf c d p

/-- The limit admits whatever the pair of a clause to be stored gives, for it is all of one size. -/
theorem Keeps.admits (h : r.Keeps c d x) : r.state.limit.admits (c.size + d.size - 2) = true := by
  obtain ⟨⟨l, m, -, hres⟩, -, -, -, hadmits⟩ := Clause.resolventOn_of_mem_kept h.2
  rwa [hres.size_eq] at hadmits

/-- A clause that is made is stored by some step. -/
theorem Made.exists_keeps (h : r.Made c k x) :
    ∃ t d, (steps t r).Keeps c d x ∧ (k.pos = c ∧ k.neg = d ∨ k.pos = d ∧ k.neg = c) := by
  obtain ⟨t, d, p, i, hact, -, hx, rfl⟩ := h
  refine ⟨t, d, ⟨hact, List.mem_of_getElem? hx⟩, ?_⟩
  rw [Clause.linkOf]
  split
  · exact Or.inl ⟨rfl, rfl⟩
  · exact Or.inr ⟨rfl, rfl⟩

/-- A clause is made once: the step that stores it and its place among what the step stores tell the
pair that it has come from. -/
theorem Made.inj {k' : Link} (h : (steps n r).status = .finished .satisfiable)
    (hnum : r.state.Numbered) (hx : r.Made c k x) (hx' : r.Made d k' x) : c = d ∧ k = k' := by
  obtain ⟨t, e, p, i, hact, hp, hi, rfl⟩ := hx
  obtain ⟨t', e', p', i', hact', hp', hi', rfl⟩ := hx'
  obtain rfl := Keeps.eq_of_keeps h hnum ⟨hact, List.mem_of_getElem? hi⟩
    ⟨hact', List.mem_of_getElem? hi'⟩
  obtain ⟨rfl, rfl⟩ := Action.resolve.inj (hact.symm.trans hact')
  have hnodup : (c.resolve (steps t r).state.limit (steps t r).state.lastId e).kept.Nodup :=
    (Clause.pairwise_kept_resolveOn _ c e _ _).imp fun hlt heq =>
      Nat.ne_of_lt hlt (congrArg Clause.id heq)
  obtain ⟨hlt, hget⟩ := List.getElem?_eq_some_iff.1 hi
  obtain rfl := (List.getElem?_inj hlt hnodup).1 (hi.trans hi'.symm)
  cases hp.symm.trans hp'
  exact ⟨rfl, rfl⟩

section Finished

variable (h : (steps n r).status = .finished .satisfiable)

include h

theorem forall₂_kept {t : Nat} (hact : (steps t r).action = .resolve c d)
    (hadmits : r.state.limit.admits (c.size + d.size - 2) = true) :
    List.Forall₂ (fun p x => Clause.ResolventOn c d p.1.1 p.2.1 x) (Clause.unifyingPairs c d)
      (c.resolve (steps t r).state.limit (steps t r).state.lastId d).kept := by
  refine Clause.forall₂_kept_resolve ?_ (goesOn_of_satisfiable (finished_of_steps h t) hact).refuted
  rwa [limit_steps]

theorem Made.resolvent (hx : r.Made c k x) : k.Resolvent x := by
  obtain ⟨t, d, p, i, hact, hp, hi, rfl⟩ := hx
  have hadmits := Keeps.admits ⟨hact, List.mem_of_getElem? hi⟩
  rw [limit_steps] at hadmits
  obtain ⟨hlt, rfl⟩ := List.getElem?_eq_some_iff.1 hp
  obtain ⟨hlt', rfl⟩ := List.getElem?_eq_some_iff.1 hi
  exact Clause.resolvent_linkOf (List.getElem_mem hlt) ((forall₂_kept h hact hadmits).get hlt hlt')

/-- Whatever a step stores has been made on a link. -/
theorem exists_made_of_keeps {t : Nat} (hx : (steps t r).Keeps c d x) : ∃ k, r.Made c k x := by
  have hadmits := hx.admits
  rw [limit_steps] at hadmits
  obtain ⟨i, hi⟩ := List.mem_iff_getElem?.1 hx.2
  obtain ⟨hlt, -⟩ := List.getElem?_eq_some_iff.1 hi
  rw [← (forall₂_kept h hx.1 hadmits).length_eq] at hlt
  exact ⟨_, t, d, _, i, hx.1, List.getElem?_eq_getElem hlt, hi, rfl⟩

/-- Every pair of literals that unify gives a clause, if their clauses are resolved. -/
theorem exists_made_of_mem {p : Clause.Placed × Clause.Placed} (hmeets : r.Meets c d)
    (hadmits : r.state.limit.admits (c.size + d.size - 2) = true)
    (hp : p ∈ Clause.unifyingPairs c d) : ∃ x, r.Made c (Clause.linkOf c d p) x := by
  obtain ⟨t, hact⟩ := hmeets
  obtain ⟨i, hi⟩ := List.mem_iff_getElem?.1 hp
  obtain ⟨hlt, -⟩ := List.getElem?_eq_some_iff.1 hi
  rw [(forall₂_kept h hact hadmits).length_eq] at hlt
  exact ⟨_, t, d, p, i, hact, hi, List.getElem?_eq_getElem hlt, rfl⟩

/-- Every unifiable link of two clauses that are resolved gives a clause, whichever of the two has
its turn, if the limit admits a clause of that size. -/
theorem exists_made_of_meets (hadmits : r.state.limit.admits (k.pos.size + k.neg.size - 2) = true)
    (hpos : k.pos.OwnsVars) (hneg : k.neg.OwnsVars) (hid : k.pos.id ≠ k.neg.id)
    (hk : k.Unifiable) :
    (r.Meets k.pos k.neg → ∃ x, r.Made k.pos k x) ∧
      (r.Meets k.neg k.pos → ∃ x, r.Made k.neg k x) := by
  obtain ⟨l, m, σ, hl, hm, hlpos, hclash, hσ⟩ := hk.exists_unifyAll hpos hneg hid
  constructor
  · intro hmeets
    have hmade := exists_made_of_mem h (p := ((l, k.i), (m, k.j))) hmeets hadmits
      (Clause.mem_unifyingPairs.2 ⟨hl, hm, hclash, σ, hσ⟩)
    rwa [Clause.linkOf, if_pos hlpos] at hmade
  · intro hmeets
    have hmneg : ¬ m.positive = true := by
      intro hmpos
      have hsign := (Literal.clashes_eq_true_iff.1 hclash).1
      rw [hlpos, hmpos] at hsign
      cases hsign
    rw [Literal.clashes_comm] at hclash
    rw [Nat.add_comm] at hadmits
    have hmade := exists_made_of_mem h (p := ((m, k.j), (l, k.i))) hmeets hadmits
      (Clause.mem_unifyingPairs.2 ⟨hm, hl, hclash, Term.exists_unifyAll_comm hσ⟩)
    rwa [Clause.linkOf, if_neg hmneg] at hmade

end Finished
end Run
end Refutation
