import Refutation.Proofs.Lifting

/-!
# Links between clauses

A link is a place of a positive literal in one clause and a place of a negative literal in another.
Two clauses can have the same literal at several places, and then each of them makes a link of its
own.  What an instance of a resolvent has for literals is said here up to their order: those of
instances of its parents, less two complementary ones.  Which two these are is known where only one
pair is complementary.

## Main definitions

* `negatives` — how many literals of a list are negative.
* `Link` — two clauses with a place in each.
* `Link.Unifiable` — the literals at the two places have complementary instances.
* `Link.Resolvent` — a clause has come from resolving on the two literals, in either order.

## Main results

* `Link.Resolvent.exists_inst` — instances of the parents give one of the resolvent.
* `Link.Resolvent.exists_parents` — an instance of the resolvent is given by some of the parents.
* `Clause.ResolventOn.negatives_eq` — how many negative literals a resolvent has.
-/

namespace Refutation
namespace Clause

variable {c d : Clause} {l : Literal} {θ : Var → Term}

theorem getElem?_inst {i : Nat} :
    (c.inst θ)[i]? = some l ↔ ∃ l₀, c.literals[i]? = some l₀ ∧ l₀.mapArgs (Term.subst θ) = l := by
  rw [inst, List.getElem?_map, Option.map_eq_some_iff]

/-- Instances of two clauses with variables of their own can be had by one replacement. -/
theorem exists_common_inst (hc : c.OwnsVars) (hd : d.OwnsVars) (hid : c.id ≠ d.id)
    (θ ζ : Var → Term) : ∃ τ, c.inst τ = c.inst θ ∧ d.inst τ = d.inst ζ := by
  obtain ⟨τ, hτc, hτd⟩ := exists_common_subst hc hd hid θ ζ
  exact ⟨τ, List.map_congr_left hτc, List.map_congr_left hτd⟩

end Clause

/-! ### Complementary pairs -/

/-- A cancellation in two lists takes one literal from each, if there is one pair only that is
complementary. -/
theorem perm_erase_of_perm {U V W : List Literal} {l y : Literal} (hl : l ∈ U) (hm : l.compl ∈ V)
    (honly : ∀ k ∈ U ++ V, k.positive = true → k.compl ∈ U ++ V → k = l)
    (h : (U ++ V).Perm (y :: y.compl :: W)) : W.Perm (U.erase l ++ V.erase l.compl) := by
  have hy : y ∈ U ++ V := h.mem_iff.2 List.mem_cons_self
  have hyc : y.compl ∈ U ++ V := h.mem_iff.2 (List.mem_cons_of_mem _ List.mem_cons_self)
  have hcancelled : (y :: y.compl :: W).Perm (l :: l.compl :: W) := by
    cases hpos : y.positive with
    | true => rw [honly y hy hpos hyc]
    | false =>
      have heq : y.compl = l := by
        refine honly y.compl hyc (Literal.positive_compl_of_negative hpos) ?_
        rwa [Literal.compl_compl]
      rw [← heq, Literal.compl_compl]
      exact List.Perm.swap _ _ _
  have hparts : (U ++ V).Perm (l :: l.compl :: (U.erase l ++ V.erase l.compl)) :=
    ((List.perm_cons_erase hl).append (List.perm_cons_erase hm)).trans
      (List.perm_middle.cons l)
  exact ((hcancelled.symm.trans h.symm).trans hparts).cons_inv.cons_inv

/-- When two pairs of complementary literals are taken out of the same literals in turn, what is left
is the same, or each pair is left when the other is taken out. -/
theorem perm_or_mem_of_perm {ls ms : List Literal} {l m : Literal}
    (h : (l :: l.compl :: ls).Perm (m :: m.compl :: ms)) :
    ls.Perm ms ∨ l ∈ ms ∧ l.compl ∈ ms := by
  by_cases hlm : l = m
  · subst hlm
    exact Or.inl h.cons_inv.cons_inv
  · by_cases hlmc : l = m.compl
    · subst hlmc
      rw [Literal.compl_compl] at h
      exact Or.inl (h.trans (List.Perm.swap _ _ _)).cons_inv.cons_inv
    · have hmem : ∀ {k : Literal}, k ∈ l :: l.compl :: ls → k ≠ m → k ≠ m.compl → k ∈ ms := by
        intro k hk hkm hkmc
        exact List.mem_of_ne_of_mem hkmc (List.mem_of_ne_of_mem hkm (h.mem_iff.1 hk))
      refine Or.inr ⟨hmem (by simp) hlm hlmc, hmem (by simp) ?_ ?_⟩
      · rintro rfl
        exact hlmc (Literal.compl_compl l).symm
      · intro heq
        exact hlm (by rw [← Literal.compl_compl l, heq, Literal.compl_compl])

/-! ### Signs -/

/-- The number of negative literals. -/
def negatives (ls : List Literal) : Nat := ls.countP fun l => !l.positive

section Negatives

variable {ls ms : List Literal} {l m : Literal}

@[simp] theorem negatives_append (ls ms : List Literal) :
    negatives (ls ++ ms) = negatives ls + negatives ms :=
  List.countP_append

theorem negatives_of_perm (h : ls.Perm ms) : negatives ls = negatives ms := h.countP_eq _

@[simp] theorem negatives_inst (c : Clause) (θ : Var → Term) :
    negatives (c.inst θ) = negatives c.literals := by
  rw [negatives, Clause.inst, List.countP_map]
  rfl

theorem negatives_eq_zero_iff : negatives ls = 0 ↔ ∀ l ∈ ls, l.positive = true := by
  simp [negatives, List.countP_eq_zero]

theorem negatives_cons_compl (l : Literal) (ls : List Literal) :
    negatives (l :: l.compl :: ls) = negatives ls + 1 := by
  rw [negatives, List.countP_cons, List.countP_cons, Literal.positive_compl]
  cases l.positive with
  | false => rfl
  | true => rfl

theorem negatives_erase (hl : l ∈ ls) (hneg : l.positive = false) :
    negatives (ls.erase l) + 1 = negatives ls := by
  rw [negatives_of_perm (List.perm_cons_erase hl), negatives, negatives, List.countP_cons, hneg]
  rfl

/-- A list has one negative literal if there is one at a single place. -/
theorem negatives_eq_one {j : Nat} (hj : ls[j]? = some l) (hneg : l.positive = false)
    (honly : ∀ i m, ls[i]? = some m → m.positive = false → i = j) : negatives ls = 1 := by
  obtain ⟨hlt, hget⟩ := List.getElem?_eq_some_iff.1 hj
  have hrest : negatives (ls.eraseIdx j) = 0 := by
    rw [negatives_eq_zero_iff]
    intro m hm
    obtain ⟨i, hne, hi⟩ := List.mem_eraseIdx_iff_getElem?.1 hm
    by_contra hpos
    exact hne (honly i m hi (Bool.eq_false_of_not_eq_true hpos))
  rw [negatives_of_perm (List.getElem_cons_eraseIdx_perm hlt).symm, hget, negatives,
    List.countP_cons, hneg, ← negatives, hrest]
  rfl

/-- If there is one negative literal at most, there are no two different ones. -/
theorem eq_of_negatives_le_one (h : negatives ls ≤ 1) (hl : l ∈ ls) (hm : m ∈ ls)
    (hlneg : l.positive = false) (hmneg : m.positive = false) : m = l := by
  by_contra hne
  have herase := negatives_erase hl hlneg
  have hzero : negatives (ls.erase l) = 0 := by omega
  have hpos := negatives_eq_zero_iff.1 hzero m ((List.mem_erase_of_ne hne).2 hm)
  rw [hmneg] at hpos
  cases hpos

/-- If there is one negative literal at most, it is the complement of one literal only. -/
theorem eq_of_compl_mem (h : negatives ls ≤ 1) (hl : l.positive = true) (hlc : l.compl ∈ ls)
    (hm : m.positive = true) (hmc : m.compl ∈ ls) : m = l := by
  have heq : m.compl = l.compl :=
    eq_of_negatives_le_one h hlc hmc (Literal.negative_compl_of_positive hl)
      (Literal.negative_compl_of_positive hm)
  rw [← Literal.compl_compl m, heq, Literal.compl_compl]

end Negatives

/-- Cancelling takes one negative literal away. -/
theorem Clause.ResolventOn.negatives_eq {c d x : Clause} {l m : Literal}
    (h : ResolventOn c d l m x) :
    negatives x.literals + 1 = negatives c.literals + negatives d.literals := by
  obtain ⟨τ, y, -, hperm⟩ := h.exists_parents Term.var
  have hcount := negatives_of_perm hperm
  simp only [negatives_append, negatives_cons_compl, negatives_inst] at hcount
  exact hcount.symm

/-! ### Links -/

/-- A place of a positive literal in one clause and a place of a negative one in another. -/
structure Link where
  /-- The clause with the positive literal. -/
  pos : Clause
  /-- Where that literal stands. -/
  i : Nat
  /-- The clause with the negative literal. -/
  neg : Clause
  /-- Where that literal stands. -/
  j : Nat

namespace Link

variable {k : Link} {x : Clause} {l : Literal}

/-- The literals at the two places have complementary instances. -/
def Unifiable (k : Link) : Prop :=
  ∃ θ ζ l, (k.pos.inst θ)[k.i]? = some l ∧ l.positive = true ∧
    (k.neg.inst ζ)[k.j]? = some l.compl

/-- A clause has come from resolving on the literals at the two places, in either order. -/
def Resolvent (k : Link) (x : Clause) : Prop :=
  ∃ l m, k.pos.literals[k.i]? = some l ∧ k.neg.literals[k.j]? = some m ∧ l.positive = true ∧
    l.clashes m = true ∧
    (Clause.ResolventOn k.pos k.neg l m x ∨ Clause.ResolventOn k.neg k.pos m l x)

/-- The literals of a link unify if they have complementary instances. -/
theorem Unifiable.exists_unifyAll (h : k.Unifiable) (hpos : k.pos.OwnsVars) (hneg : k.neg.OwnsVars)
    (hid : k.pos.id ≠ k.neg.id) :
    ∃ l m σ, k.pos.literals[k.i]? = some l ∧ k.neg.literals[k.j]? = some m ∧
      l.positive = true ∧ l.clashes m = true ∧ Term.unifyAll l.args m.args = .ok σ := by
  obtain ⟨θ, ζ, l, hl, hlpos, hm⟩ := h
  obtain ⟨τ, hτpos, hτneg⟩ := Clause.exists_common_inst hpos hneg hid θ ζ
  rw [← hτpos] at hl
  rw [← hτneg] at hm
  obtain ⟨l₀, hl₀, rfl⟩ := Clause.getElem?_inst.1 hl
  obtain ⟨m₀, hm₀, heq⟩ := Clause.getElem?_inst.1 hm
  obtain ⟨hsign, hpred, hargs⟩ :=
    Literal.complements_eq_true_iff.1 (Literal.complements_iff_eq_compl.2 heq)
  obtain ⟨σ, hσ⟩ := Term.unifyAll_eq_ok_iff.2 ⟨τ, hargs⟩
  exact ⟨l₀, m₀, σ, hl₀, hm₀, hlpos, Literal.clashes_eq_true_iff.2 ⟨hsign, hpred⟩, hσ⟩

namespace Resolvent

/-- A resolvent is true wherever its parents are. -/
theorem models {D : Type} {I : Interpretation D} (h : k.Resolvent x) (hpos : I.Models k.pos)
    (hneg : I.Models k.neg) : I.Models x := by
  obtain ⟨l, m, -, -, -, -, hres | hres⟩ := h
  · exact hres.models hpos hneg
  · exact hres.models hneg hpos

/-- Instances of the parents that are complementary at the places resolved on give an instance of
the resolvent: all their literals but two complementary ones. -/
theorem exists_inst (h : k.Resolvent x) (hpos : k.pos.OwnsVars) (hneg : k.neg.OwnsVars)
    (hid : k.pos.id ≠ k.neg.id) {θ ζ : Var → Term} (hl : (k.pos.inst θ)[k.i]? = some l)
    (hm : (k.neg.inst ζ)[k.j]? = some l.compl) :
    ∃ η y, (k.pos.inst θ ++ k.neg.inst ζ).Perm (y :: y.compl :: x.inst η) := by
  obtain ⟨l₀, m₀, hl₀, hm₀, -, -, hres⟩ := h
  obtain ⟨τ, hτpos, hτneg⟩ := Clause.exists_common_inst hpos hneg hid θ ζ
  rw [← hτpos] at hl ⊢
  rw [← hτneg] at hm ⊢
  -- the literals resolved on become the complementary pair
  have hargs : l₀.args.map (Term.subst τ) = m₀.args.map (Term.subst τ) := by
    obtain ⟨l₁, hl₁, rfl⟩ := Clause.getElem?_inst.1 hl
    obtain ⟨m₁, hm₁, heq⟩ := Clause.getElem?_inst.1 hm
    cases hl₀.symm.trans hl₁
    cases hm₀.symm.trans hm₁
    exact (congrArg Literal.args heq).symm
  rcases hres with hres | hres
  · exact hres.exists_inst hargs
  · obtain ⟨η, y, hy⟩ := hres.exists_inst hargs.symm
    exact ⟨η, y, List.perm_append_comm.trans hy⟩

/-- If there is one complementary pair only, at the places resolved on, then these two are what the
instance of the resolvent lacks. -/
theorem exists_perm_erase (h : k.Resolvent x) (hpos : k.pos.OwnsVars) (hneg : k.neg.OwnsVars)
    (hid : k.pos.id ≠ k.neg.id) {θ ζ : Var → Term} (hl : (k.pos.inst θ)[k.i]? = some l)
    (hm : (k.neg.inst ζ)[k.j]? = some l.compl)
    (honly : ∀ y ∈ k.pos.inst θ ++ k.neg.inst ζ, y.positive = true →
      y.compl ∈ k.pos.inst θ ++ k.neg.inst ζ → y = l) :
    ∃ η, (x.inst η).Perm ((k.pos.inst θ).erase l ++ (k.neg.inst ζ).erase l.compl) := by
  obtain ⟨η, y, hy⟩ := h.exists_inst hpos hneg hid hl hm
  exact ⟨η, perm_erase_of_perm (List.mem_of_getElem? hl) (List.mem_of_getElem? hm) honly hy⟩

/-- An instance of the resolvent is given by instances of the parents, in which the literals
resolved on are complementary. -/
theorem exists_parents (h : k.Resolvent x) (η : Var → Term) :
    ∃ τ l y, (k.pos.inst τ)[k.i]? = some l ∧ l.positive = true ∧
      (k.neg.inst τ)[k.j]? = some l.compl ∧
      (k.pos.inst τ ++ k.neg.inst τ).Perm (y :: y.compl :: x.inst η) := by
  obtain ⟨l₀, m₀, hl₀, hm₀, hpos, hclash, hres⟩ := h
  have hpair : ∃ τ y, l₀.args.map (Term.subst τ) = m₀.args.map (Term.subst τ) ∧
      (k.pos.inst τ ++ k.neg.inst τ).Perm (y :: y.compl :: x.inst η) := by
    rcases hres with hres | hres
    · exact hres.exists_parents η
    · obtain ⟨τ, y, hargs, hy⟩ := hres.exists_parents η
      exact ⟨τ, y, hargs.symm, List.perm_append_comm.trans hy⟩
  obtain ⟨τ, y, hargs, hy⟩ := hpair
  refine ⟨τ, l₀.mapArgs (Term.subst τ), y, Clause.getElem?_inst.2 ⟨l₀, hl₀, rfl⟩, hpos,
    Clause.getElem?_inst.2 ⟨m₀, hm₀, ?_⟩, hy⟩
  exact Literal.complements_iff_eq_compl.1 (Literal.complements_mapArgs hclash hargs)

/-- A resolvent has one negative literal less than its parents together. -/
theorem negatives_eq (h : k.Resolvent x) :
    negatives x.literals + 1 = negatives k.pos.literals + negatives k.neg.literals := by
  obtain ⟨l, m, -, -, -, -, hres | hres⟩ := h
  · exact hres.negatives_eq
  · rw [hres.negatives_eq, Nat.add_comm]

end Resolvent
end Link
end Refutation
