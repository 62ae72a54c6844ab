import Refutation.Proofs.Links

/-!
# Unit propagation

A set of literals is closed under a clause if it has every literal of an instance whose other
literals are all denied by it.  If such a set is consistent, it is closed under resolvents as well,
whichever two literals cancel: when these are not the ones resolved on, then those are left, and the
set denies only one of them.  So clauses under which a consistent set is closed are never refuted.

With a limit on the size of resolvents this need only be known of the small clauses.  A clause with
more literals than the limit has gives nothing that is kept.

## Main definitions

* `Consistent` — no literal of a set has its complement there.
* `Propagates`, `ClosedUnder` — the last literal that is not denied is in the set.

## Main results

* `Propagates.of_perm` — what is left of two lists propagates.
* `Clause.ResolventOn.closedUnder` — a consistent set is closed under resolvents.
* `Run.not_yields_of_consistent` — clauses under which a consistent set is closed are not refuted.
-/

namespace Refutation

variable {A : Set Literal} {us vs ws ks : List Literal} {l y r : Literal} {c d x : Clause}

/-! ### Lists of literals -/

/-- No two literals of the set are complementary. -/
def Consistent (A : Set Literal) : Prop := ∀ l ∈ A, l.compl ∉ A

/-- If all literals but one are denied by the set, then it has that one. -/
def Propagates (A : Set Literal) (ls : List Literal) : Prop :=
  ∀ l ms, ls.Perm (l :: ms) → (∀ m ∈ ms, m.compl ∈ A) → l ∈ A

namespace Propagates

/-- A list is one of its members and the others. -/
theorem cons_erase (h : Propagates A us) (hl : l ∈ us) : Propagates A (l :: us.erase l) := by
  intro k ms hperm hms
  exact h k ms ((List.perm_cons_erase hl).trans hperm) hms

/-- A literal of one list is the only one that is not denied, in two lists without complementary
literals. -/
theorem mem_of_perm (hus : Propagates A (l :: us)) (hvs : Propagates A (l.compl :: vs))
    (hperm : us.Perm (r :: ks)) (hks : ∀ m ∈ ks, m.compl ∈ A) (hdenied : ∀ m ∈ vs, m.compl ∈ A) :
    r ∈ A := by
  have hl : l.compl ∈ A := hvs l.compl vs (List.Perm.refl _) hdenied
  refine hus r (l :: ks) ((hperm.cons l).trans (List.Perm.swap r l ks)) ?_
  exact List.forall_mem_cons.2 ⟨hl, hks⟩

/-- What is left of two lists with complementary literals propagates, whichever complementary
literals are taken out. -/
theorem of_perm (hA : Consistent A) (hus : Propagates A (l :: us))
    (hvs : Propagates A (l.compl :: vs))
    (h : (l :: l.compl :: (us ++ vs)).Perm (y :: y.compl :: ws)) : Propagates A ws := by
  intro r ms hperm hms
  rcases perm_or_mem_of_perm h with hleft | ⟨hl, hlc⟩
  · have hr : r ∈ us ++ vs := (hleft.trans hperm).mem_iff.2 List.mem_cons_self
    have hrest : ∀ {ks : List Literal}, (us ++ vs).Perm (r :: ks) → ∀ m ∈ ks, m.compl ∈ A := by
      intro ks hks m hm
      exact hms m ((hks.symm.trans (hleft.trans hperm)).cons_inv.mem_iff.1 hm)
    rcases List.mem_append.1 hr with hr | hr
    · have hks := List.perm_cons_erase hr
      have hdenied := hrest (hks.append_right vs)
      exact mem_of_perm hus hvs hks (fun m hm => hdenied m (List.mem_append_left _ hm))
        fun m hm => hdenied m (List.mem_append_right _ hm)
    · have hks := List.perm_cons_erase hr
      have hdenied := hrest ((hks.append_left us).trans List.perm_middle)
      have hus' : Propagates A (l.compl.compl :: us) := by rwa [Literal.compl_compl]
      exact mem_of_perm hvs hus' hks (fun m hm => hdenied m (List.mem_append_right _ hm))
        fun m hm => hdenied m (List.mem_append_left _ hm)
  · -- the literals resolved on are left, and not both of them are denied
    rw [hperm.mem_iff, List.mem_cons] at hl hlc
    rcases hl with rfl | hl
    · rcases hlc with heq | hlc
      · exact absurd heq (Literal.compl_ne l)
      · have hmem := hms _ hlc
        rwa [Literal.compl_compl] at hmem
    · rcases hlc with rfl | hlc
      · exact hms l hl
      · exact absurd (hms _ hlc) (hA _ (hms l hl))

end Propagates

/-! ### Clauses -/

/-- A set of literals is closed under a clause if each instance propagates. -/
def ClosedUnder (A : Set Literal) (c : Clause) : Prop := ∀ θ, Propagates A (c.inst θ)

/-- A consistent set that is closed under two clauses is closed under their resolvents. -/
theorem Clause.ResolventOn.closedUnder {m : Literal} (h : ResolventOn c d l m x)
    (hl : l ∈ c.literals) (hm : m ∈ d.literals) (hclash : l.clashes m = true)
    (hA : Consistent A) (hc : ClosedUnder A c) (hd : ClosedUnder A d) : ClosedUnder A x := by
  intro η
  obtain ⟨τ, y, hargs, hperm⟩ := h.exists_parents η
  have hcompl := Literal.complements_iff_eq_compl.1 (Literal.complements_mapArgs hclash hargs)
  have hlτ : l.mapArgs (Term.subst τ) ∈ c.inst τ := List.mem_map_of_mem hl
  have hmτ : (l.mapArgs (Term.subst τ)).compl ∈ d.inst τ := hcompl ▸ List.mem_map_of_mem hm
  have hparts := (List.perm_cons_erase hlτ).append (List.perm_cons_erase hmτ)
  exact Propagates.of_perm hA ((hc τ).cons_erase hlτ) ((hd τ).cons_erase hmτ)
    ((List.perm_middle.cons _).symm.trans (hparts.symm.trans hperm))

/-- Clauses of one literal under which a consistent set is closed do not clash. -/
theorem Clause.ResolventOn.ne_nil_of_closedUnder {m : Literal} (h : ResolventOn c d l m x)
    (hl : l ∈ c.literals) (hm : m ∈ d.literals) (hclash : l.clashes m = true)
    (hA : Consistent A) (hc : c.size ≤ 1 → ClosedUnder A c) (hd : d.size ≤ 1 → ClosedUnder A d) :
    x.literals ≠ [] := by
  intro hnil
  obtain ⟨hcone, hdone⟩ := h.eq_singleton_of_nil hl hm hnil
  obtain ⟨τ, -, hargs, -⟩ := h.exists_parents Term.var
  have hcompl := Literal.complements_iff_eq_compl.1 (Literal.complements_mapArgs hclash hargs)
  have hone : ∀ {e : Clause} {k : Literal}, e.literals = [k] → (e.size ≤ 1 → ClosedUnder A e) →
      k.mapArgs (Term.subst τ) ∈ A := by
    intro e k he hclosed
    have hsize : e.size = 1 := congrArg List.length he
    refine hclosed hsize.le τ _ [] ?_ fun m hm => by cases hm
    rw [inst, he]
    exact List.Perm.refl _
  have hlA := hone hcone hc
  have hmA := hone hdone hd
  rw [hcompl] at hmA
  exact hA _ hlA hmA

/-! ### Runs -/

namespace Run

variable {s : Saturation} {n : Nat}

/-- A consistent set that is closed under the small clauses stays so, for only small clauses give
small ones. -/
theorem Next.closedUnder {r t : Run} (h : r.Next t) (hlimit : r.state.limit = .below n)
    (hA : Consistent A) (hr : ∀ c ∈ r.state.store.toList, c.size ≤ n → ClosedUnder A c) :
    ∀ c ∈ t.state.store.toList, c.size ≤ n → ClosedUnder A c := by
  obtain ⟨pre, hstore, hpre⟩ := h.exists_toList
  rw [hstore]
  intro x hx hsize
  rcases List.mem_append.1 hx with hx | hx
  · exact hr x hx hsize
  · obtain ⟨c, d, hact, hkept⟩ := hpre x hx
    obtain ⟨hc, hd⟩ := mem_of_action_eq_resolve hact
    obtain ⟨⟨l, m, hmem, hres⟩, -, -, -, hadmits⟩ := Clause.resolventOn_of_mem_kept hkept
    obtain ⟨hl, hm, hclash⟩ := Clause.mem_clashingPairs.1 hmem
    rw [hlimit, Limit.admits, decide_eq_true_eq] at hadmits
    have hlen : x.size + 2 = c.size + d.size := hres.length_literals
    have hposc : 0 < c.size := List.length_pos_of_mem hl
    have hposd : 0 < d.size := List.length_pos_of_mem hm
    exact hres.closedUnder hl hm hclash hA (hr c hc (by omega)) (hr d hd (by omega))

theorem closedUnder_steps {r : Run} (hlimit : r.state.limit = .below n) (hA : Consistent A)
    (hr : ∀ c ∈ r.state.store.toList, c.size ≤ n → ClosedUnder A c) (k : Nat) :
    ∀ c ∈ (steps k r).state.store.toList, c.size ≤ n → ClosedUnder A c := by
  induction k generalizing r with
  | zero => exact hr
  | succ k ih =>
    refine ih ?_ (r.next_step.closedUnder hlimit hA hr)
    rw [r.next_step.limit, hlimit]

/-- Clauses are not refuted below a limit if a consistent set of literals is closed under the small
ones. -/
theorem not_yields_of_consistent (hn : 1 ≤ n) (hlimit : s.limit = .below n) (hA : Consistent A)
    (hs : ∀ c ∈ s.store.toList, c.size ≤ n → ClosedUnder A c) :
    ¬ (start s).Yields .unsatisfiable := by
  intro hyields
  obtain ⟨k, hrun, hend⟩ := exists_step_of_yields (r := start s) rfl hyields
  have hclosed := closedUnder_steps (r := start s) hlimit hA hs k
  obtain ⟨c, d, hact, hrefuted⟩ := (next_step _).exists_refuted hrun hend
  obtain ⟨hc, hd⟩ := mem_of_action_eq_resolve hact
  obtain ⟨l, m, x, hmem, hres, hempty⟩ := Clause.exists_mem_of_refuted hrefuted
  obtain ⟨hl, hm, hclash⟩ := Clause.mem_clashingPairs.1 hmem
  exact hres.ne_nil_of_closedUnder hl hm hclash hA (fun hsize => hclosed c hc (hsize.trans hn))
    (fun hsize => hclosed d hd (hsize.trans hn)) hempty

end Run
end Refutation
