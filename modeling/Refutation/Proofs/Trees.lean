import Refutation.Proofs.Propagation

/-!
# Refutations as trees of instances

Resolving with no two literals merged uses every literal of every instance exactly once.  So a
refutation is a tree: its nodes are instances of clauses, and two of them are joined where they are
resolved on complementary literals.  In which order the joints are resolved makes no difference.
Seen from a joint, the tree has two sides, and it may be seen from any joint.

## Main definitions

* `ResolvesAway` — literals are resolved away by a number of instances.
* `Forces` — a literal is all that is left of an instance.
* `Refutes` — a number of instances make up a refutation.

## Main results

* `ResolvesAway.perm`, `ResolvesAway.append` — the order of the literals does not matter, and they
  are resolved away independently of one another.
* `exists_turn` — a tree seen from a neighbouring joint.
* `closedUnder_forces` — what is forced by clauses is closed under them.
-/

namespace Refutation

/-- The literals can be resolved away by `n` instances of clauses: each is resolved with an instance
whose other literals can be resolved away in their turn. -/
inductive ResolvesAway (S : Set Clause) : Nat → List Literal → Prop where
  /-- There is nothing to resolve. -/
  | nil : ResolvesAway S 0 []
  /-- The first literal is resolved with an instance of `c`. -/
  | cons {c : Clause} {θ : Var → Term} {l : Literal} {ls ms : List Literal} {a b : Nat} :
    c ∈ S → (c.inst θ).Perm (l.compl :: ms) → ResolvesAway S a ms → ResolvesAway S b ls →
      ResolvesAway S (a + b + 1) (l :: ls)

/-- All but the literal `l` at place `i` of an instance of `c` can be resolved away by `n`
instances. -/
def Forces (S : Set Clause) (n : Nat) (c : Clause) (i : Nat) (l : Literal) : Prop :=
  c ∈ S ∧ ∃ θ, (c.inst θ)[i]? = some l ∧ ResolvesAway S n ((c.inst θ).eraseIdx i)

/-- There is a refutation with `N` instances: two of them are joined, and all other literals can be
resolved away. -/
def Refutes (S : Set Clause) (N : Nat) : Prop :=
  ∃ a b c i d j l, Forces S a c i l ∧ Forces S b d j l.compl ∧ a + b + 2 = N

variable {S : Set Clause} {n a b : Nat} {c d : Clause} {i j k : Nat} {l m y : Literal}
  {ls ms ws : List Literal} {θ : Var → Term}

/-! ### Places in a list -/

/-- A member has a place, and the others are those at other places. -/
theorem exists_place_of_perm (h : ls.Perm (l :: ms)) :
    ∃ i, ls[i]? = some l ∧ (ls.eraseIdx i).Perm ms := by
  obtain ⟨i, hi⟩ := List.mem_iff_getElem?.1 (h.mem_iff.2 List.mem_cons_self)
  obtain ⟨hlt, hget⟩ := List.getElem?_eq_some_iff.1 hi
  refine ⟨i, hi, ?_⟩
  have hperm := List.getElem_cons_eraseIdx_perm hlt
  rw [hget] at hperm
  exact (hperm.trans h).cons_inv

theorem perm_cons_eraseIdx (h : ls[i]? = some l) : ls.Perm (l :: ls.eraseIdx i) := by
  obtain ⟨hlt, rfl⟩ := List.getElem?_eq_some_iff.1 h
  exact (List.getElem_cons_eraseIdx_perm hlt).symm

/-- Two places hold two members. -/
theorem exists_perm_of_ne (hi : ls[i]? = some l) (hj : ls[j]? = some m) (hij : j ≠ i) :
    ∃ ks, (ls.eraseIdx i).Perm (m :: ks) ∧ (ls.eraseIdx j).Perm (l :: ks) := by
  have hmem : m ∈ ls.eraseIdx i := List.mem_eraseIdx_iff_getElem?.2 ⟨j, hij, hj⟩
  refine ⟨(ls.eraseIdx i).erase m, List.perm_cons_erase hmem, ?_⟩
  have hall := (perm_cons_eraseIdx hi).trans ((List.perm_cons_erase hmem).cons l)
  exact ((perm_cons_eraseIdx hj).symm.trans (hall.trans (List.Perm.swap m l _))).cons_inv

/-! ### Resolving away -/

/-- The order of the literals does not matter. -/
theorem ResolvesAway.perm (h : ResolvesAway S n ls) (hperm : ls.Perm ms) :
    ResolvesAway S n ms := by
  induction hperm generalizing n with
  | nil => exact h
  | cons l _ ih =>
    cases h with
    | cons hc hinst hrest hls => exact .cons hc hinst hrest (ih hls)
  | swap l m ls =>
    cases h with
    | @cons _ _ _ _ _ a _ hc hinst hrest hls =>
      cases hls with
      | @cons _ _ _ _ _ a' b hc' hinst' hrest' hls =>
        have hsum : a + (a' + b + 1) + 1 = a' + (a + b + 1) + 1 := by omega
        rw [hsum]
        exact .cons hc' hinst' hrest' (.cons hc hinst hrest hls)
  | trans _ _ ih ih' => exact ih' (ih h)

/-- The first literal is resolved away by an instance of which its complement is left. -/
theorem resolvesAway_cons :
    ResolvesAway S n (l :: ls) ↔
      ∃ a b c i, Forces S a c i l.compl ∧ ResolvesAway S b ls ∧ a + b + 1 = n := by
  constructor
  · intro h
    cases h with
    | cons hc hinst hrest hls =>
      obtain ⟨i, hi, hperm⟩ := exists_place_of_perm hinst
      exact ⟨_, _, _, i, ⟨hc, _, hi, hrest.perm hperm.symm⟩, hls, rfl⟩
  · rintro ⟨a, b, c, i, ⟨hc, θ, hi, hrest⟩, hls, rfl⟩
    exact .cons hc (perm_cons_eraseIdx hi) hrest hls

/-- Literals are resolved away independently of one another. -/
theorem ResolvesAway.append (h : ResolvesAway S a ls) (h' : ResolvesAway S b ms) :
    ResolvesAway S (a + b) (ls ++ ms) := by
  induction h with
  | nil => rwa [Nat.zero_add]
  | @cons _ _ _ _ _ a a' hc hinst hrest _ _ ih =>
    have hsum : a + a' + 1 + b = a + (a' + b) + 1 := by omega
    rw [hsum]
    exact .cons hc hinst hrest ih

/-- Literals can be resolved away together if each of them can. -/
theorem exists_resolvesAway (h : ∀ l ∈ ls, ∃ a c i, Forces S a c i l.compl) :
    ∃ n, ResolvesAway S n ls := by
  induction ls with
  | nil => exact ⟨0, .nil⟩
  | cons l ls ih =>
    obtain ⟨hl, hls⟩ := List.forall_mem_cons.1 h
    obtain ⟨a, c, i, hforces⟩ := hl
    obtain ⟨b, hrest⟩ := ih hls
    exact ⟨_, resolvesAway_cons.2 ⟨a, b, c, i, hforces, hrest, rfl⟩⟩

/-! ### The two sides of a joint -/

/-- An instance that forces a literal by itself has no other. -/
theorem Forces.size_eq_one (h : Forces S 0 c i l) : c.size = 1 := by
  obtain ⟨-, θ, hi, hrest⟩ := h
  cases hlist : (c.inst θ).eraseIdx i with
  | nil =>
    have hlen := (perm_cons_eraseIdx hi).length_eq
    rwa [hlist, Clause.inst, List.length_map] at hlen
  | cons m ms =>
    rw [hlist] at hrest
    cases hrest

/-- A place where an instance has a literal is a place of the clause. -/
theorem lt_size_of_getElem? (h : (c.inst θ)[i]? = some l) : i < c.size := by
  obtain ⟨hlt, -⟩ := List.getElem?_eq_some_iff.1 h
  rwa [Clause.inst, List.length_map] at hlt

theorem exists_getElem?_of_lt_size (h : i < c.size) (θ : Var → Term) :
    ∃ l, (c.inst θ)[i]? = some l := by
  have hlt : i < (c.inst θ).length := by rwa [Clause.inst, List.length_map]
  exact ⟨_, List.getElem?_eq_getElem hlt⟩

/-- One that forces a literal by others has a literal at another place. -/
theorem exists_place_of_resolvesAway (h : ResolvesAway S a (ls.eraseIdx i)) (ha : a ≠ 0) :
    ∃ j m, j ≠ i ∧ ls[j]? = some m := by
  cases hlist : ls.eraseIdx i with
  | nil =>
    rw [hlist] at h
    cases h
    exact absurd rfl ha
  | cons m ms =>
    have hm : m ∈ ls.eraseIdx i := by
      rw [hlist]
      exact List.mem_cons_self
    obtain ⟨j, hj⟩ := List.mem_eraseIdx_iff_getElem?.1 hm
    exact ⟨j, m, hj⟩

theorem Forces.lt_size (h : Forces S a c i l) : i < c.size := by
  obtain ⟨-, θ, hi, -⟩ := h
  exact lt_size_of_getElem? hi

/-- Complementary literals do not come from the same place. -/
theorem Forces.place_ne (hc : Forces S a c i l) (hd : Forces S b c j l.compl) : j ≠ i := by
  rintro rfl
  obtain ⟨-, θ, hi, -⟩ := hc
  obtain ⟨-, ζ, hj, -⟩ := hd
  obtain ⟨l₀, hl₀, rfl⟩ := Clause.getElem?_inst.1 hi
  obtain ⟨m₀, hm₀, heq⟩ := Clause.getElem?_inst.1 hj
  cases hl₀.symm.trans hm₀
  exact Bool.not_ne_self _ (congrArg Literal.positive heq).symm

/-- The same refutation is seen from the joint of a literal that one side resolves away. -/
theorem exists_turn (hc : c ∈ S) (hi : (c.inst θ)[i]? = some l)
    (hrest : ResolvesAway S a ((c.inst θ).eraseIdx i)) (hd : Forces S b d k l.compl)
    (hj : (c.inst θ)[j]? = some m) (hij : j ≠ i) :
    ∃ a' c' i' b', Forces S a' c' i' m.compl ∧ Forces S b' c j m ∧ a' + b' = a + b ∧ a' < a := by
  obtain ⟨ks, hks, hks'⟩ := exists_perm_of_ne hi hj hij
  obtain ⟨a', b', c', i', hforces, hothers, rfl⟩ := resolvesAway_cons.1 (hrest.perm hks)
  refine ⟨a', c', i', b + b' + 1, hforces, ⟨hc, θ, hj, ?_⟩, by omega, by omega⟩
  exact (resolvesAway_cons.2 ⟨b, b', d, k, hd, hothers, rfl⟩).perm hks'.symm

theorem Refutes.intro (hc : Forces S a c i l) (hd : Forces S b d j l.compl) :
    Refutes S (a + b + 2) :=
  ⟨a, b, c, i, d, j, l, hc, hd, rfl⟩

/-- Complementary literals that are resolved away make up a refutation. -/
theorem exists_refutes_of_mem (h : ResolvesAway S n ws) (hy : y ∈ ws) (hyc : y.compl ∈ ws) :
    ∃ N ≤ n, Refutes S N := by
  have hyc' : y.compl ∈ ws.erase y := (List.mem_erase_of_ne (Literal.compl_ne y)).2 hyc
  obtain ⟨a, b, c, i, hc, hrest, rfl⟩ := resolvesAway_cons.1 (h.perm (List.perm_cons_erase hy))
  obtain ⟨a', b', d, j, hd, -, rfl⟩ :=
    resolvesAway_cons.1 (hrest.perm (List.perm_cons_erase hyc'))
  exact ⟨a + a' + 2, by omega, .intro hc hd⟩

/-- So does an instance all of whose literals are resolved away. -/
theorem refutes_of_perm (hc : c ∈ S) (hne : c.literals ≠ []) (hperm : ws.Perm (c.inst θ))
    (h : ResolvesAway S n ws) : Refutes S (n + 1) := by
  obtain ⟨l, ls, hls⟩ := List.exists_cons_of_ne_nil (mt List.map_eq_nil_iff.1 hne)
  replace hls : c.inst θ = l :: ls := hls
  rw [hls] at hperm
  obtain ⟨a, b, d, i, hd, hrest, rfl⟩ := resolvesAway_cons.1 (h.perm hperm)
  have hforces : Forces S b c 0 l.compl.compl := by
    rw [Literal.compl_compl]
    refine ⟨hc, θ, ?_, ?_⟩
    · rw [hls]
      rfl
    · rw [hls]
      exact hrest
  have hsum : a + b + 1 + 1 = a + b + 2 := rfl
  exact hsum ▸ Refutes.intro hd hforces

/-! ### What is forced -/

/-- What is forced by clauses is closed under each of them. -/
theorem closedUnder_forces (hc : c ∈ S) :
    ClosedUnder { l | ∃ a c i, Forces S a c i l } c := by
  intro θ l ms hperm hms
  obtain ⟨n, hn⟩ := exists_resolvesAway hms
  obtain ⟨i, hi, hrest⟩ := exists_place_of_perm hperm
  exact ⟨n, c, i, hc, θ, hi, hn.perm hrest.symm⟩

/-- What is forced by clauses is consistent if there is no refutation. -/
theorem consistent_forces (h : ∀ N, ¬ Refutes S N) :
    Consistent { l | ∃ a c i, Forces S a c i l } := by
  rintro l ⟨a, c, i, hc⟩ ⟨b, d, j, hd⟩
  exact h _ (.intro hc hd)

end Refutation
