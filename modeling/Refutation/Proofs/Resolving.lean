import Refutation.Proofs.Candidate

/-!
# What resolving two clauses comes to

The literal pairs are taken one after another.  Every pair that unifies uses up a number, kept or
not, so the clauses kept carry increasing numbers from the range that was used up.  As long as no
pair gives the empty clause, every pair that unifies gives a resolvent, and what the limit admits is
kept.  The empty clause comes of two clauses of one literal each, and of these alone.

## Main definitions

* `Clause.unifies` — whether the arguments of a pair unify.
* `Clause.Contradicts` — two unit clauses clash, and their arguments unify.

## Main results

* `Clause.le_lastId_resolveOn`, `Clause.pairwise_kept_resolveOn` — the numbers used.
* `Clause.resolventOn_of_mem_kept` — every clause kept is a resolvent.
* `Clause.exists_mem_of_refuted` — a refutation is an empty resolvent.
* `Clause.exists_resolvents`, `Clause.exists_mem_kept_resolveOn` — no resolvent is missed.
* `Clause.exists_mem_kept_resolve_comm` — the order of the two clauses hardly matters.
* `Clause.contradicts_of_refuted`, `Clause.Contradicts.refuted` — when two clauses are refuted.
-/

namespace Refutation
namespace Clause

variable {limit : Limit} {c d r : Clause} {l m : Literal} {lastId : Nat}
  {pairs : List (Literal × Literal)}

/-! ### The numbers used -/

/-- No number is given back. -/
theorem le_lastId_resolveOn (limit : Limit) (c d : Clause) (lastId : Nat)
    (pairs : List (Literal × Literal)) : lastId ≤ (resolveOn limit c d lastId pairs).lastId := by
  fun_induction resolveOn limit c d lastId pairs with
  | case1 => exact Nat.le_refl _
  | case2 lastId l m pairs err _ ih => exact ih
  | case3 lastId l m pairs σ _ id _ ih => exact Nat.le_of_succ_le ih
  | case4 lastId l m pairs σ _ id r _ _ => exact Nat.le_succ _
  | case5 lastId l m pairs σ _ id r _ _ _ ih => exact Nat.le_of_succ_le ih
  | case6 lastId l m pairs σ _ id r _ _ _ ih => exact Nat.le_of_succ_le ih

/-! ### What is kept -/

/-- A clause that is kept is a resolvent on one of the pairs, with a number used for it. -/
theorem resolventOn_of_mem_kept (h : r ∈ (resolveOn limit c d lastId pairs).kept) :
    (∃ l m, (l, m) ∈ pairs ∧ ResolventOn c d l m r) ∧ lastId < r.id ∧
      r.id ≤ (resolveOn limit c d lastId pairs).lastId ∧ r.isEmpty = false ∧
      limit.admits r.size = true := by
  have hweaken : ∀ {pairs : List (Literal × Literal)} (p : Literal × Literal),
      (∃ l m, (l, m) ∈ pairs ∧ ResolventOn c d l m r) →
        ∃ l m, (l, m) ∈ p :: pairs ∧ ResolventOn c d l m r := by
    rintro pairs p ⟨l, m, hmem, hr⟩
    exact ⟨l, m, List.mem_cons_of_mem p hmem, hr⟩
  fun_induction resolveOn limit c d lastId pairs with
  | case1 => cases h
  | case2 lastId l m pairs err _ ih =>
    obtain ⟨hres, hrest⟩ := ih h
    exact ⟨hweaken _ hres, hrest⟩
  | case3 lastId l m pairs σ _ id _ ih =>
    obtain ⟨hres, hid, hrest⟩ := ih h
    exact ⟨hweaken _ hres, Nat.lt_of_succ_lt hid, hrest⟩
  | case4 => cases h
  | case5 lastId l m pairs σ hσ id x hx hempty hadmit ih =>
    rcases List.mem_cons.1 h with rfl | h
    · have hid : r.id = id := id_of_cancel? hx
      refine ⟨⟨l, m, List.mem_cons_self, σ, hσ, hid ▸ hx⟩, ?_, ?_, ?_, hadmit⟩
      · rw [hid]
        exact Nat.lt_succ_self _
      · rw [hid]
        exact le_lastId_resolveOn limit c d id pairs
      · exact Bool.eq_false_iff.2 hempty
    · obtain ⟨hres, hid, hrest⟩ := ih h
      exact ⟨hweaken _ hres, Nat.lt_of_succ_lt hid, hrest⟩
  | case6 lastId l m pairs σ _ id x _ _ _ ih =>
    obtain ⟨hres, hid, hrest⟩ := ih h
    exact ⟨hweaken _ hres, Nat.lt_of_succ_lt hid, hrest⟩

/-- The clauses kept are numbered in the order they were built. -/
theorem pairwise_kept_resolveOn (limit : Limit) (c d : Clause) (lastId : Nat)
    (pairs : List (Literal × Literal)) :
    (resolveOn limit c d lastId pairs).kept.Pairwise fun x y => x.id < y.id := by
  fun_induction resolveOn limit c d lastId pairs with
  | case1 => exact List.Pairwise.nil
  | case2 lastId l m pairs err _ ih => exact ih
  | case3 lastId l m pairs σ _ id _ ih => exact ih
  | case4 => exact List.Pairwise.nil
  | case5 lastId l m pairs σ _ id x hx _ _ ih =>
    refine List.pairwise_cons.2 ⟨?_, ih⟩
    intro y hy
    rw [id_of_cancel? hx]
    exact (resolventOn_of_mem_kept hy).2.1
  | case6 lastId l m pairs σ _ id x _ _ _ ih => exact ih

/-- The clauses are refuted only by an empty resolvent, on one of the pairs. -/
theorem exists_mem_of_refuted (h : (resolveOn limit c d lastId pairs).refuted = true) :
    ∃ l m r, (l, m) ∈ pairs ∧ ResolventOn c d l m r ∧ r.literals = [] := by
  have hweaken : ∀ {pairs : List (Literal × Literal)} (p : Literal × Literal),
      (∃ l m r, (l, m) ∈ pairs ∧ ResolventOn c d l m r ∧ r.literals = []) →
        ∃ l m r, (l, m) ∈ p :: pairs ∧ ResolventOn c d l m r ∧ r.literals = [] := by
    rintro pairs p ⟨l, m, r, hmem, hr⟩
    exact ⟨l, m, r, List.mem_cons_of_mem p hmem, hr⟩
  fun_induction resolveOn limit c d lastId pairs with
  | case1 => cases h
  | case2 lastId l m pairs err _ ih => exact hweaken _ (ih h)
  | case3 lastId l m pairs σ _ id _ ih => exact hweaken _ (ih h)
  | case4 lastId l m pairs σ hσ id x hx hempty =>
    have hid : x.id = id := id_of_cancel? hx
    exact ⟨l, m, x, List.mem_cons_self, ⟨σ, hσ, hid ▸ hx⟩, List.isEmpty_iff.1 hempty⟩
  | case5 lastId l m pairs σ _ id x _ _ _ ih => exact hweaken _ (ih h)
  | case6 lastId l m pairs σ _ id x _ _ _ ih => exact hweaken _ (ih h)

theorem resolventOn_of_refuted (h : (resolveOn limit c d lastId pairs).refuted = true) :
    ∃ l m r, ResolventOn c d l m r ∧ r.literals = [] := by
  obtain ⟨l, m, r, -, hr⟩ := exists_mem_of_refuted h
  exact ⟨l, m, r, hr⟩

/-! ### Nothing is missed -/

/-- Whether the arguments of a pair unify. -/
def unifies (p : Literal × Literal) : Bool := (Term.unifyAll p.1.args p.2.args).isOk

theorem unifies_eq_true_iff :
    unifies (l, m) = true ↔ ∃ σ, Term.unifyAll l.args m.args = .ok σ := by
  rw [unifies]
  cases Term.unifyAll l.args m.args with
  | error err =>
    constructor
    · intro h
      cases h
    · rintro ⟨σ, h⟩
      cases h
  | ok σ => exact iff_of_true rfl ⟨σ, rfl⟩

/-- A first pair that does not unify is passed over. -/
theorem resolveOn_cons_of_error {err : UnifyError}
    (hσ : Term.unifyAll l.args m.args = .error err) :
    resolveOn limit c d lastId ((l, m) :: pairs) =
      (resolveOn limit c d lastId pairs).attempt (.error err) := by
  rw [resolveOn, hσ]

/-- What a first pair that unifies comes to if the clauses are not refuted. -/
theorem resolveOn_cons_of_ok {σ : Substitution} (hl : l ∈ c.literals) (hm : m ∈ d.literals)
    (hclash : l.clashes m = true) (hσ : Term.unifyAll l.args m.args = .ok σ)
    (h : (resolveOn limit c d lastId ((l, m) :: pairs)).refuted = false) :
    ∃ r, r.id = lastId + 1 ∧ ResolventOn c d l m r ∧ r.isEmpty = false ∧
      (resolveOn limit c d lastId ((l, m) :: pairs)).kept =
        (if limit.admits r.size then [r] else []) ++
          (resolveOn limit c d (lastId + 1) pairs).kept ∧
      (resolveOn limit c d lastId ((l, m) :: pairs)).lastId =
        (resolveOn limit c d (lastId + 1) pairs).lastId ∧
      (resolveOn limit c d (lastId + 1) pairs).refuted = false := by
  obtain ⟨r, hid, hcancel, hr⟩ := exists_resolventOn hl hm hclash hσ (lastId + 1)
  rw [resolveOn, hσ] at h ⊢
  simp only [hcancel] at h ⊢
  by_cases hempty : r.isEmpty = true
  · simp [hempty] at h
  · refine ⟨r, hid, hr, by simpa using hempty, ?_⟩
    by_cases hadmit : limit.admits r.size = true
    · simp [hempty, hadmit] at h ⊢
      exact ⟨rfl, rfl, h⟩
    · simp [hempty, hadmit] at h ⊢
      exact ⟨rfl, rfl, h⟩

/-- A member of one list has a partner in the other. -/
theorem exists_mem_of_forall₂ {α β : Type} {R : α → β → Prop} {xs : List α} {ys : List β} {x : α}
    (h : List.Forall₂ R xs ys) (hx : x ∈ xs) : ∃ y ∈ ys, R x y := by
  induction h with
  | nil => cases hx
  | cons hxy _ ih =>
    rcases List.mem_cons.1 hx with rfl | hx
    · exact ⟨_, List.mem_cons_self, hxy⟩
    · obtain ⟨y, hy, hR⟩ := ih hx
      exact ⟨y, List.mem_cons_of_mem _ hy, hR⟩

/-- If the clauses are not refuted, the pairs that unify have resolvents, one for each, and these
take the next numbers in order.  As they are all of one size, the limit admits all of them or
none. -/
theorem exists_resolvents (hpairs : ∀ p ∈ pairs, p ∈ clashingPairs c d)
    (h : (resolveOn limit c d lastId pairs).refuted = false) :
    ∃ rs : List Clause,
      List.Forall₂ (fun p r => ResolventOn c d p.1 p.2 r) (pairs.filter unifies) rs ∧
      rs.map Clause.id = List.range' (lastId + 1) rs.length ∧ (∀ r ∈ rs, r.isEmpty = false) ∧
      (resolveOn limit c d lastId pairs).kept =
        (if limit.admits (c.size + d.size - 2) then rs else []) ∧
      (resolveOn limit c d lastId pairs).lastId = lastId + rs.length := by
  induction pairs generalizing lastId with
  | nil => exact ⟨[], by simp [resolveOn]⟩
  | cons p pairs ih =>
    obtain ⟨l, m⟩ := p
    obtain ⟨hl, hm, hclash⟩ := mem_clashingPairs.1 (hpairs _ List.mem_cons_self)
    have hrest := fun p hp => hpairs p (List.mem_cons_of_mem (l, m) hp)
    cases hσ : Term.unifyAll l.args m.args with
    | error err =>
      rw [resolveOn_cons_of_error hσ] at h ⊢
      rw [List.filter_cons_of_neg (by simp [unifies_eq_true_iff, hσ])]
      exact ih hrest h
    | ok σ =>
      obtain ⟨r, hid, hr, hne, hkept, hlast, hrefuted⟩ := resolveOn_cons_of_ok hl hm hclash hσ h
      obtain ⟨rs, hall, hids, hnes, hrs, hlen⟩ := ih hrest hrefuted
      rw [List.filter_cons_of_pos (unifies_eq_true_iff.2 ⟨σ, hσ⟩)]
      refine ⟨r :: rs, .cons hr hall, ?_, List.forall_mem_cons.2 ⟨hne, hnes⟩, ?_, ?_⟩
      · simp [hid, hids, List.range'_succ]
      · rw [hkept, hrs, hr.size_eq]
        split
        · rfl
        · rfl
      · rw [hlast, hlen, List.length_cons]
        omega

/-- If the clauses are not refuted, every clashing pair that unifies has a resolvent, which is kept
if the limit admits it. -/
theorem exists_mem_kept_resolveOn {σ : Substitution}
    (hpairs : ∀ p ∈ pairs, p ∈ clashingPairs c d) (hmem : (l, m) ∈ pairs)
    (hσ : Term.unifyAll l.args m.args = .ok σ)
    (h : (resolveOn limit c d lastId pairs).refuted = false) :
    ∃ r, ResolventOn c d l m r ∧ r.isEmpty = false ∧
      (limit.admits r.size = true → r ∈ (resolveOn limit c d lastId pairs).kept) := by
  obtain ⟨rs, hall, -, hnes, hkept, -⟩ := exists_resolvents hpairs h
  obtain ⟨r, hr, hres⟩ := exists_mem_of_forall₂ hall
    (List.mem_filter.2 ⟨hmem, unifies_eq_true_iff.2 ⟨σ, hσ⟩⟩)
  refine ⟨r, hres, hnes r hr, fun hadmit => ?_⟩
  rw [hkept, if_pos (hres.size_eq ▸ hadmit)]
  exact hr

theorem exists_mem_kept_resolve {σ : Substitution} (hl : l ∈ c.literals) (hm : m ∈ d.literals)
    (hclash : l.clashes m = true) (hσ : Term.unifyAll l.args m.args = .ok σ)
    (h : (resolve limit lastId c d).refuted = false) :
    ∃ r, ResolventOn c d l m r ∧ r.isEmpty = false ∧
      (limit.admits r.size = true → r ∈ (resolve limit lastId c d).kept) :=
  exists_mem_kept_resolveOn (fun _ hp => hp) (mem_clashingPairs.2 ⟨hl, hm, hclash⟩) hσ h

/-- Where one order of two clauses gives a clause to keep, so does the other. -/
theorem exists_mem_kept_resolve_comm {lastId' : Nat} (hr : r ∈ (resolve limit lastId c d).kept)
    (h : (resolve limit lastId' d c).refuted = false) :
    ∃ x, x ∈ (resolve limit lastId' d c).kept := by
  obtain ⟨⟨l, m, hmem, hres⟩, -, -, -, hadmit⟩ := resolventOn_of_mem_kept hr
  obtain ⟨σ, hσ⟩ := hres.exists_unifyAll
  obtain ⟨τ, hτ⟩ := Term.exists_unifyAll_comm hσ
  obtain ⟨hl, hm, hclash⟩ := mem_clashingPairs.1 hmem
  rw [Literal.clashes_comm] at hclash
  obtain ⟨x, hx, -, hkept⟩ := exists_mem_kept_resolve hm hl hclash hτ h
  refine ⟨x, hkept ?_⟩
  have hlen := hres.length_literals
  have hlen' := hx.length_literals
  have hsize : x.size = r.size := by
    rw [size, size]
    omega
  rw [hsize, hadmit]

/-! ### Refutations -/

/-- Two clauses are of one literal each, and these clash and have arguments that unify. -/
def Contradicts (c d : Clause) : Prop :=
  ∃ l m σ, c.literals = [l] ∧ d.literals = [m] ∧ l.clashes m = true ∧
    Term.unifyAll l.args m.args = .ok σ

theorem Contradicts.symm (h : c.Contradicts d) : d.Contradicts c := by
  obtain ⟨l, m, σ, hc, hd, hclash, hσ⟩ := h
  obtain ⟨τ, hτ⟩ := Term.exists_unifyAll_comm hσ
  exact ⟨m, l, τ, hd, hc, by rw [Literal.clashes_comm, hclash], hτ⟩

/-- An empty resolvent is all that two clauses give that contradict one another. -/
theorem contradicts_of_refuted {limit : Limit} {lastId : Nat}
    (h : (resolve limit lastId c d).refuted = true) : c.Contradicts d := by
  obtain ⟨l, m, r, hmem, hres, hempty⟩ := exists_mem_of_refuted h
  obtain ⟨hl, hm, hclash⟩ := mem_clashingPairs.1 hmem
  obtain ⟨hc, hd⟩ := hres.eq_singleton_of_nil hl hm hempty
  obtain ⟨σ, hσ⟩ := hres.exists_unifyAll
  exact ⟨l, m, σ, hc, hd, hclash, hσ⟩

theorem Contradicts.refuted (h : c.Contradicts d) (limit : Limit) (lastId : Nat) :
    (resolve limit lastId c d).refuted = true := by
  obtain ⟨l, m, σ, hc, hd, hclash, hσ⟩ := h
  have hl : l ∈ c.literals := hc ▸ List.mem_singleton_self l
  have hm : m ∈ d.literals := hd ▸ List.mem_singleton_self m
  by_contra hgoes
  obtain ⟨r, hres, hne, -⟩ := exists_mem_kept_resolve hl hm hclash hσ (Bool.eq_false_iff.2 hgoes)
  have hlen := hres.length_literals
  rw [hc, hd, List.length_singleton, List.length_singleton] at hlen
  rw [isEmpty, List.isEmpty_iff_length_eq_zero.2 (by omega)] at hne
  cases hne

end Clause
end Refutation
