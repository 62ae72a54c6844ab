import Mathlib.Data.List.Permutation
import Refutation.Proofs.Coverage

/-!
# Contradictions between clauses of one literal

A run that saturates never takes its last clause as the current one, and not every clause meets it.
Still no contradiction with it is missed as far as clauses of one literal go.  If the last clause has
one literal, it has come from a clause `b ∨ a` and a clause `z` by resolving on `a`, and a clause `u`
that contradicts it could have been resolved with `b ∨ a` on `b` instead.  That leaves an instance
of `a` which contradicts `z`; and neither of these is the last clause.

## Main definitions

* `Clause.Opposed` — two clauses of one literal contradict each other.
* `Clause.UnitResolvent` — a clause of one literal has come from one of two literals and one of one.

## Main results

* `Clause.UnitResolvent.opposed` — the two resolutions can be done in the other order.
* `Run.not_exists_clashing_units` — **no contradiction between clauses of one literal is left**.
-/

namespace Refutation

/-! ### Instances of two clauses at once -/

theorem Literal.mapArgs_congr {l : Literal} {θ η : Var → Term}
    (h : ∀ v ∈ l.occurrences, θ v = η v) :
    l.mapArgs (Term.subst θ) = l.mapArgs (Term.subst η) := by
  rw [mapArgs, mapArgs, Literal.mk.injEq]
  refine ⟨rfl, rfl, List.map_congr_left fun t ht => Term.subst_congr fun v hv => h v ?_⟩
  exact List.mem_flatMap.2 ⟨t, ht, hv⟩

theorem Literal.map_subst_map_subst (l : Literal) (θ η : Var → Term) :
    (l.args.map (Term.subst θ)).map (Term.subst η) =
      l.args.map (Term.subst fun v => (θ v).subst η) := by
  rw [List.map_map]
  exact List.map_congr_left fun t _ => Term.subst_subst θ η t

namespace Clause

variable {b a z u : Literal} {B C U L c d x : Clause}

/-- Two clauses with variables of their own can be given any two instances by one replacement. -/
theorem exists_common_subst (hc : c.OwnsVars) (hd : d.OwnsVars) (hid : c.id ≠ d.id)
    (τ ρ : Var → Term) :
    ∃ ζ : Var → Term, (∀ l ∈ c.literals, l.mapArgs (Term.subst ζ) = l.mapArgs (Term.subst τ)) ∧
      ∀ l ∈ d.literals, l.mapArgs (Term.subst ζ) = l.mapArgs (Term.subst ρ) := by
  refine ⟨fun v => if v.clause = c.id then τ v else ρ v, ?_, ?_⟩
  · intro l hl
    refine Literal.mapArgs_congr ?_
    intro v hv
    exact if_pos (hc v (List.mem_flatMap.2 ⟨l, hl, hv⟩))
  · intro l hl
    refine Literal.mapArgs_congr ?_
    intro v hv
    refine if_neg ?_
    rw [hd v (List.mem_flatMap.2 ⟨l, hl, hv⟩)]
    exact hid.symm

/-! ### Opposed clauses -/

/-- Two clauses of one literal each contradict each other: some instances of the literals are
complementary. -/
def Opposed (c d : Clause) : Prop :=
  ∃ l m, c.literals = [l] ∧ d.literals = [m] ∧ l.clashes m = true ∧
    ∃ τ ρ : Var → Term, l.args.map (Term.subst τ) = m.args.map (Term.subst ρ)

namespace Opposed

theorem symm (h : Opposed c d) : Opposed d c := by
  obtain ⟨l, m, hl, hm, hclash, τ, ρ, hargs⟩ := h
  exact ⟨m, l, hm, hl, by rw [Literal.clashes_comm, hclash], ρ, τ, hargs.symm⟩

theorem exists_literals (h : Opposed c d) : ∃ l m, c.literals = [l] ∧ d.literals = [m] := by
  obtain ⟨l, m, hl, hm, -⟩ := h
  exact ⟨l, m, hl, hm⟩

theorem ne (h : Opposed c d) : c ≠ d := by
  rintro rfl
  obtain ⟨l, m, hl, hm, hclash, -⟩ := h
  cases hl.symm.trans hm
  have hsign := (Literal.clashes_eq_true_iff.1 hclash).1
  cases hpos : l.positive <;> rw [hpos] at hsign <;> cases hsign

/-- The literals of opposed clauses unify if the clauses have variables of their own. -/
theorem exists_unifyAll (h : Opposed c d) (hc : c.OwnsVars) (hd : d.OwnsVars)
    (hid : c.id ≠ d.id) :
    ∃ l m σ, c.literals = [l] ∧ d.literals = [m] ∧ l.clashes m = true ∧
      Term.unifyAll l.args m.args = .ok σ := by
  obtain ⟨l, m, hl, hm, hclash, τ, ρ, hargs⟩ := h
  obtain ⟨ζ, hζc, hζd⟩ := exists_common_subst hc hd hid τ ρ
  have hlζ := congrArg Literal.args (hζc l (by rw [hl]; exact List.mem_singleton_self l))
  have hmζ := congrArg Literal.args (hζd m (by rw [hm]; exact List.mem_singleton_self m))
  obtain ⟨σ, hσ⟩ := Term.unifyAll_eq_ok_iff.2 ⟨ζ, hlζ.trans (hargs.trans hmζ.symm)⟩
  exact ⟨l, m, σ, hl, hm, hclash, hσ⟩

end Opposed

/-! ### Resolvents of one literal -/

/-- Resolving on two of three literals leaves the third, in its most general instance. -/
theorem ResolventOn.exists_instance {l m : Literal} (h : ResolventOn c d l m x)
    (hclash : l.clashes m = true) (hperm : (c.literals ++ d.literals).Perm [b, l, m]) :
    ∃ θ : Var → Term, x.literals = [b.mapArgs (Term.subst θ)] ∧
      l.args.map (Term.subst θ) = m.args.map (Term.subst θ) ∧
      ∀ ζ : Var → Term, l.args.map (Term.subst ζ) = m.args.map (Term.subst ζ) →
        ∃ η : Var → Term,
          (b.mapArgs (Term.subst θ)).mapArgs (Term.subst η) = b.mapArgs (Term.subst ζ) := by
  obtain ⟨σ, hσ, hx⟩ := h
  have hargs := map_subst_instantiation hσ x.id c d
  refine ⟨instantiation x.id σ c d, ?_, hargs, ?_⟩
  · have hcancel := cancelPair?_of_cancel? hx
    rw [literals_candidate] at hcancel
    exact cancelPair?_eq_singleton (hperm.map _) (Literal.complements_mapArgs hclash hargs) hcancel
  · intro ζ hζ
    obtain ⟨η, hη⟩ := exists_subst_candidate (Term.factors_of_unifyAll hσ hζ) x.id c d
    exact ⟨η, hη b (hperm.mem_iff.2 List.mem_cons_self)⟩

/-- The clause `L` is the resolvent of `b ∨ a` and `z` on the latter two, in either order. -/
structure UnitResolvent (B C : Clause) (b a z : Literal) (L : Clause) : Prop where
  binary : B.literals.Perm [b, a]
  unit : C.literals = [z]
  clash : a.clashes z = true
  resolventOn : ResolventOn B C a z L ∨ ResolventOn C B z a L

namespace UnitResolvent

/-- The literal that is left, in its most general instance. -/
theorem exists_instance (h : UnitResolvent B C b a z L) :
    ∃ θ : Var → Term, L.literals = [b.mapArgs (Term.subst θ)] ∧
      a.args.map (Term.subst θ) = z.args.map (Term.subst θ) ∧
      ∀ ζ : Var → Term, a.args.map (Term.subst ζ) = z.args.map (Term.subst ζ) →
        ∃ η : Var → Term,
          (b.mapArgs (Term.subst θ)).mapArgs (Term.subst η) = b.mapArgs (Term.subst ζ) := by
  rcases h.resolventOn with hres | hres
  · refine hres.exists_instance h.clash ?_
    rw [h.unit]
    exact h.binary.append_right [z]
  · have hclash : z.clashes a = true := by rw [Literal.clashes_comm, h.clash]
    obtain ⟨θ, hL, hargs, hlift⟩ := hres.exists_instance (b := b) hclash (by
      rw [h.unit]
      exact (h.binary.cons z).trans (List.Perm.swap b z [a]))
    exact ⟨θ, hL, hargs.symm, fun ζ hζ => hlift ζ hζ.symm⟩

/-- A clause that is opposed to the resolvent has an instance in common with the literal left. -/
theorem exists_subst (h : UnitResolvent B C b a z L) (hU : U.literals = [u])
    (hopposed : Opposed L U) (hid : B.id ≠ U.id) (hB : B.OwnsVars) (hUv : U.OwnsVars) :
    b.clashes u = true ∧ ∃ ζ τ : Var → Term, b.args.map (Term.subst ζ) = u.args.map (Term.subst ζ) ∧
      a.args.map (Term.subst ζ) = z.args.map (Term.subst τ) := by
  obtain ⟨θ, hL, hargs, -⟩ := h.exists_instance
  obtain ⟨l, m, hl, hm, hclash, η, ρ, hη⟩ := hopposed
  cases hL.symm.trans hl
  cases hU.symm.trans hm
  refine ⟨hclash, ?_⟩
  obtain ⟨ζ, hζB, hζU⟩ := exists_common_subst hB hUv hid (fun v => (θ v).subst η) ρ
  have hb := congrArg Literal.args (hζB b (h.binary.mem_iff.2 (by simp)))
  have ha := congrArg Literal.args (hζB a (h.binary.mem_iff.2 (by simp)))
  have hu := congrArg Literal.args (hζU u (by rw [hU]; exact List.mem_singleton_self u))
  rw [Literal.mapArgs_args, Literal.mapArgs_args] at hb ha hu
  rw [Literal.mapArgs_args, Literal.map_subst_map_subst] at hη
  refine ⟨ζ, fun v => (θ v).subst η, ?_, ?_⟩
  · rw [hb, hu, hη]
  · rw [ha, ← Literal.map_subst_map_subst, ← Literal.map_subst_map_subst, hargs]

/-- A clause that is opposed to the resolvent can be resolved with the literal left beforehand. -/
theorem exists_unifyAll (h : UnitResolvent B C b a z L) (hU : U.literals = [u])
    (hopposed : Opposed L U) (hid : B.id ≠ U.id) (hB : B.OwnsVars) (hUv : U.OwnsVars) :
    b.clashes u = true ∧ ∃ σ, Term.unifyAll b.args u.args = .ok σ := by
  obtain ⟨hclash, ζ, -, hζ, -⟩ := h.exists_subst hU hopposed hid hB hUv
  exact ⟨hclash, Term.unifyAll_eq_ok_iff.2 ⟨ζ, hζ⟩⟩

/-- The two resolutions can be done in the other order: resolving `u` away first leaves an instance
of `a`, and that is opposed to `z`. -/
theorem opposed (h : UnitResolvent B C b a z L) (hx : UnitResolvent B U a b u x)
    (hopposed : Opposed L U) (hid : B.id ≠ U.id) (hB : B.OwnsVars) (hU : U.OwnsVars) :
    Opposed x C := by
  obtain ⟨-, ζ, τ, hbu, haz⟩ := h.exists_subst hx.unit hopposed hid hB hU
  obtain ⟨ξ, hxa, -, hlift⟩ := hx.exists_instance
  obtain ⟨η, hη⟩ := hlift ζ hbu
  refine ⟨a.mapArgs (Term.subst ξ), z, hxa, h.unit, h.clash, η, τ, ?_⟩
  exact (congrArg Literal.args hη).trans haz

/-- What is left has one literal. -/
theorem length_literals (h : UnitResolvent B C b a z L) : L.literals.length = 1 := by
  obtain ⟨θ, hL, -⟩ := h.exists_instance
  rw [hL]
  rfl

end UnitResolvent

/-- Two literals that both resolve with `u` give one clause to keep each. -/
theorem kept_of_two {limit : Limit} {lastId : Nat} (hB : B.literals = [a, b])
    (hU : U.literals = [u]) (ha : a.clashes u = true) (hb : b.clashes u = true)
    (hau : ∃ σ, Term.unifyAll a.args u.args = .ok σ)
    (hbu : ∃ σ, Term.unifyAll b.args u.args = .ok σ) (hlimit : limit.admits 1 = true)
    (h : (resolve limit lastId B U).refuted = false) :
    ∃ x y, (resolve limit lastId B U).kept = [x, y] ∧ x.id < y.id ∧
      ResolventOn B U a u x ∧ ResolventOn B U b u y := by
  obtain ⟨σ, hσ⟩ := hau
  obtain ⟨τ, hτ⟩ := hbu
  have haB : a ∈ B.literals := by simp [hB]
  have hbB : b ∈ B.literals := by simp [hB]
  have huU : u ∈ U.literals := by simp [hU]
  have hadmits : ∀ {l : Literal} {x : Clause}, ResolventOn B U l u x →
      limit.admits x.size = true := by
    intro l x hx
    have hlen := hx.length_literals
    rw [hB, hU] at hlen
    have hsize : x.size = 1 := by simpa [size] using hlen
    rw [hsize, hlimit]
  have hpairs : clashingPairs B U = [(a, u), (b, u)] := by
    simp [clashingPairs, hB, hU, ha, hb]
  rw [resolve, hpairs] at h ⊢
  obtain ⟨x, hxid, hx, -, hkept, -, hrest⟩ := resolveOn_cons_of_ok haB huU ha hσ h
  obtain ⟨y, hyid, hy, -, hkept', -⟩ := resolveOn_cons_of_ok hbB huU hb hτ hrest
  refine ⟨x, y, ?_, by omega, hx, hy⟩
  rw [hkept, hkept', if_pos (hadmits hx), if_pos (hadmits hy)]
  rfl

/-- Where both literals resolve with `u`, one of the two clauses to keep is not the given one. -/
theorem UnitResolvent.exists_other {limit : Limit} {lastId : Nat} (h : UnitResolvent B U b a u L)
    (hclash : b.clashes u = true) (hbu : ∃ σ, Term.unifyAll b.args u.args = .ok σ)
    (hlimit : limit.admits 1 = true) (hrefuted : (resolve limit lastId B U).refuted = false)
    (hL : L ∈ (resolve limit lastId B U).kept) :
    ∃ x ∈ (resolve limit lastId B U).kept, x ≠ L ∧ ∃ p q, UnitResolvent B U p q u L ∧
      UnitResolvent B U q p u x := by
  have hau : ∃ σ, Term.unifyAll a.args u.args = .ok σ := by
    rcases h.resolventOn with hres | hres
    · exact hres.exists_unifyAll
    · obtain ⟨σ, hσ⟩ := hres.exists_unifyAll
      exact Term.exists_unifyAll_comm hσ
  have hpair : ∀ {p q : Literal}, B.literals = [p, q] → p.clashes u = true →
      q.clashes u = true → (∃ σ, Term.unifyAll p.args u.args = .ok σ) →
      (∃ σ, Term.unifyAll q.args u.args = .ok σ) →
      ∃ x ∈ (resolve limit lastId B U).kept, x ≠ L ∧ ∃ p q, UnitResolvent B U p q u L ∧
        UnitResolvent B U q p u x := by
    intro p q hB hp hq hpu hqu
    obtain ⟨x, y, hkept, hid, hx, hy⟩ := kept_of_two hB h.unit hp hq hpu hqu hlimit hrefuted
    have hpx : UnitResolvent B U q p u x :=
      ⟨by rw [hB]; exact List.Perm.swap q p [], h.unit, hp, Or.inl hx⟩
    have hqy : UnitResolvent B U p q u y := ⟨by rw [hB], h.unit, hq, Or.inl hy⟩
    have hne : x ≠ y := by
      rintro rfl
      exact Nat.lt_irrefl _ hid
    -- the given clause is one of the two, and the literals change places if it is the other
    rw [hkept] at hL ⊢
    rcases List.mem_cons.1 hL with rfl | hL
    · exact ⟨y, by simp, hne.symm, q, p, hpx, hqy⟩
    · obtain rfl := List.mem_singleton.1 hL
      exact ⟨x, by simp, hne, p, q, hqy, hpx⟩
  rcases List.perm_pair.1 h.binary with hB | hB
  · exact hpair hB hclash h.clash hbu hau
  · exact hpair hB h.clash hclash hau hbu

end Clause

/-! ### Runs -/

namespace Run

variable {s : Saturation} {n : Nat} {B C U L P Q c d x : Clause} {b a z u : Literal}

/-- Clauses that are opposed are not resolved in a run that saturates. -/
theorem not_meets_of_opposed {r : Run} (h : (steps n r).status = .finished .satisfiable)
    (hopposed : c.Opposed d) (hc : c.OwnsVars) (hd : d.OwnsVars) (hid : c.id ≠ d.id) :
    ¬ r.Meets c d := by
  rintro ⟨k, hact⟩
  obtain ⟨l, m, σ, hl, hm, hclash, hσ⟩ := hopposed.exists_unifyAll hc hd hid
  obtain ⟨x, hx, hempty, -⟩ := Clause.exists_mem_kept_resolve (by simp [hl]) (by simp [hm]) hclash
    hσ (goesOn_of_satisfiable (finished_of_steps h k) hact).refuted
  have hlen := hx.length_literals
  rw [hl, hm] at hlen
  have hnil : x.literals = [] := List.length_eq_zero_iff.1 (by simpa using hlen)
  rw [Clause.isEmpty, hnil] at hempty
  cases hempty

/-- Clauses before the last one are not opposed in a run that saturates. -/
theorem not_opposed_of_ne_last (h : (steps n (start s)).status = .finished .satisfiable)
    (hnum : s.Numbered) (howns : ∀ c ∈ s.store.toList, c.OwnsVars)
    (hL : (steps n (start s)).state.store.toList.getLast? = some L)
    (hc : c ∈ (steps n (start s)).state.store.toList)
    (hd : d ∈ (steps n (start s)).state.store.toList) (hcL : c ≠ L) (hdL : d ≠ L) :
    ¬ c.Opposed d := by
  intro hopposed
  have hownsF := ownsVars_steps (r := start s) howns n
  have hid : c.id ≠ d.id := by
    intro hid
    exact hopposed.ne ((numbered_steps (r := start s) h hnum n).eq_of_id_eq hc hd hid)
  rcases meets_or_meets_of_ne_last h hL hc hd hcL hdL hid with hmeets | hmeets
  · exact not_meets_of_opposed h hopposed (hownsF c hc) (hownsF d hd) hid hmeets
  · exact not_meets_of_opposed h hopposed.symm (hownsF d hd) (hownsF c hc) hid.symm hmeets

/-- A clause of one literal that is stored has come from one of two literals and one of one. -/
theorem Keeps.exists_unitResolvent {r : Run} (h : r.Keeps P Q L) (hL : L.literals.length = 1) :
    ∃ B C b a z, Clause.UnitResolvent B C b a z L ∧ (B = P ∧ C = Q ∨ B = Q ∧ C = P) := by
  obtain ⟨⟨l, m, hmem, hres⟩, -⟩ := Clause.resolventOn_of_mem_kept h.2
  obtain ⟨hl, hm, hclash⟩ := Clause.mem_clashingPairs.1 hmem
  have hlen := hres.length_literals
  have hposP := List.length_pos_of_mem hl
  have hposQ := List.length_pos_of_mem hm
  -- of three literals, one parent has two
  have hsplit : ∀ {ls ms : List Literal} {l m : Literal}, l ∈ ls → m ∈ ms → ls.length = 2 →
      ms.length = 1 → (∃ b, ls.Perm [b, l]) ∧ ms = [m] := by
    intro ls ms l m hl hm hls hms
    obtain ⟨x, y, rfl⟩ := List.length_eq_two.1 hls
    obtain ⟨w, rfl⟩ := List.length_eq_one_iff.1 hms
    rw [List.mem_singleton] at hm
    refine ⟨?_, by rw [hm]⟩
    rcases List.mem_cons.1 hl with rfl | hl
    · exact ⟨y, List.Perm.swap y l []⟩
    · rw [List.mem_singleton] at hl
      exact ⟨x, by rw [hl]⟩
  rcases Nat.lt_or_ge P.literals.length 2 with hlt | hge
  · obtain ⟨⟨b, hb⟩, hP⟩ := hsplit hm hl (by omega) (by omega)
    refine ⟨Q, P, b, m, l, ⟨hb, hP, ?_, Or.inr hres⟩, Or.inr ⟨rfl, rfl⟩⟩
    rw [Literal.clashes_comm, hclash]
  · obtain ⟨⟨b, hb⟩, hQ⟩ := hsplit hl hm (by omega) (by omega)
    exact ⟨P, Q, b, l, m, ⟨hb, hQ, hclash, Or.inl hres⟩, Or.inl ⟨rfl, rfl⟩⟩

/-- A clause of two literals that meets one of one in either order gives a clause of one. -/
theorem exists_keeps_of_action {r : Run} (h : (steps n r).status = .finished .satisfiable)
    (hact : r.action = .resolve B U ∨ r.action = .resolve U B) (hB : B.literals.Perm [a, b])
    (hU : U.literals = [u]) (hclash : b.clashes u = true)
    (hunify : ∃ σ, Term.unifyAll b.args u.args = .ok σ)
    (hlimit : r.state.limit.admits 1 = true) :
    ∃ c d x, r.Keeps c d x ∧ Clause.UnitResolvent B U a b u x := by
  obtain ⟨σ, hσ⟩ := hunify
  have hbB : b ∈ B.literals := hB.mem_iff.2 (by simp)
  have huU : u ∈ U.literals := by simp [hU]
  rcases hact with hact | hact
  · obtain ⟨x, hx, -, hkept⟩ := Clause.exists_mem_kept_resolve hbB huU hclash hσ
      (goesOn_of_satisfiable h hact).refuted
    have hunit : Clause.UnitResolvent B U a b u x := ⟨hB, hU, hclash, Or.inl hx⟩
    refine ⟨B, U, x, ⟨hact, hkept ?_⟩, hunit⟩
    rw [Clause.size, hunit.length_literals, hlimit]
  · obtain ⟨τ, hτ⟩ := Term.exists_unifyAll_comm hσ
    have hclash' : u.clashes b = true := by rw [Literal.clashes_comm, hclash]
    obtain ⟨x, hx, -, hkept⟩ := Clause.exists_mem_kept_resolve huU hbB hclash' hτ
      (goesOn_of_satisfiable h hact).refuted
    have hunit : Clause.UnitResolvent B U a b u x := ⟨hB, hU, hclash, Or.inr hx⟩
    refine ⟨U, B, x, ⟨hact, hkept ?_⟩, hunit⟩
    rw [Clause.size, hunit.length_literals, hlimit]

/-- What is to be stored has a higher number than all that is stored. -/
theorem Keeps.id_lt {r : Run} {t : Nat} (h : (steps n r).status = .finished .satisfiable)
    (hnum : r.state.Numbered) (hkeeps : (steps t r).Keeps P Q L)
    (hx : x ∈ (steps t r).state.store.toList) : x.id < L.id := by
  obtain ⟨-, hlt, -⟩ := Clause.resolventOn_of_mem_kept hkeeps.2
  exact ((numbered_steps h hnum t).le_lastId x hx).trans_lt hlt

/-- A clause is stored by one step only. -/
theorem Keeps.eq_of_keeps {r : Run} {t t' : Nat} (h : (steps n r).status = .finished .satisfiable)
    (hnum : r.state.Numbered) (ht : (steps t r).Keeps P Q L) (ht' : (steps t' r).Keeps c d L) :
    t = t' := by
  have hle : ∀ {k k' : Nat} {c d c' d' : Clause}, (steps k r).Keeps c d L →
      (steps k' r).Keeps c' d' L → k' ≤ k := by
    intro k k' c d c' d' hk hk'
    by_contra hlt
    have hmem : L ∈ (steps k' r).state.store.toList :=
      (isPrefix_toList_of_le (Nat.succ_le_of_lt (Nat.lt_of_not_le hlt)) r).subset (hk.mem_steps h)
    exact Nat.lt_irrefl _ (hk'.id_lt h hnum hmem)
  exact Nat.le_antisymm (hle ht' ht) (hle ht ht')

/-- The parents of a clause of one literal are stored before it. -/
theorem exists_parents {t : Nat} (h : (steps n (start s)).status = .finished .satisfiable)
    (hnum : s.Numbered) (hkeeps : (steps t (start s)).Keeps P Q L) (hL : L.literals.length = 1) :
    ∃ B C b a z, Clause.UnitResolvent B C b a z L ∧ (B = P ∧ C = Q ∨ B = Q ∧ C = P) ∧
      (B ∈ (steps n (start s)).state.store.toList ∧ B ≠ L) ∧
      C ∈ (steps n (start s)).state.store.toList ∧ C ≠ L := by
  have hstored : ∀ {e : Clause}, e ∈ (steps t (start s)).state.store.toList →
      e ∈ (steps n (start s)).state.store.toList ∧ e ≠ L := by
    intro e he
    refine ⟨(isPrefix_toList_of_finished h t).subset he, ?_⟩
    rintro rfl
    exact Nat.lt_irrefl _ (hkeeps.id_lt h hnum he)
  obtain ⟨B, C, b, a, z, hunit, hparents⟩ := hkeeps.exists_unitResolvent hL
  obtain ⟨hP, hQ⟩ := mem_of_action_eq_resolve hkeeps.1
  refine ⟨B, C, b, a, z, hunit, hparents, ?_⟩
  rcases hparents with ⟨rfl, rfl⟩ | ⟨rfl, rfl⟩
  · exact ⟨hstored hP, hstored hQ⟩
  · exact ⟨hstored hQ, hstored hP⟩

/-- If the last clause has one literal and another one opposes it, then some step resolves the latter
with the parent of two literals, and has a clause to store. -/
theorem exists_keeps_of_opposed (h : (steps n (start s)).status = .finished .satisfiable)
    (hlast : (steps n (start s)).state.store.toList.getLast? = some L)
    (hB : B ∈ (steps n (start s)).state.store.toList)
    (hU : U ∈ (steps n (start s)).state.store.toList) (hBL : B ≠ L) (hUL : U ≠ L)
    (hid : B.id ≠ U.id) (hbinary : B.literals.Perm [a, b]) (hunit : U.literals = [u])
    (hclash : b.clashes u = true) (hbu : ∃ σ, Term.unifyAll b.args u.args = .ok σ)
    (hlimit : s.limit.admits 1 = true) :
    ∃ t c d x, ((steps t (start s)).action = .resolve B U ∨
        (steps t (start s)).action = .resolve U B) ∧
      (steps t (start s)).Keeps c d x ∧ Clause.UnitResolvent B U a b u x := by
  obtain ⟨t, hact⟩ : ∃ t, (steps t (start s)).action = .resolve B U ∨
      (steps t (start s)).action = .resolve U B := by
    rcases meets_or_meets_of_ne_last h hlast hB hU hBL hUL hid with ⟨t, hact⟩ | ⟨t, hact⟩
    · exact ⟨t, Or.inl hact⟩
    · exact ⟨t, Or.inr hact⟩
  obtain ⟨c, d, x, hx⟩ := exists_keeps_of_action (finished_of_steps h t) hact hbinary hunit hclash
    hbu (by rw [limit_steps]; exact hlimit)
  exact ⟨t, c, d, x, hact, hx⟩

/-- If the last clause has been stored in the turn of a clause other than `U`, and `U` opposes it,
then there are opposed clauses among the others. -/
theorem exists_opposed_of_keeps (h : (steps n (start s)).status = .finished .satisfiable)
    (hnum : s.Numbered) (howns : ∀ c ∈ s.store.toList, c.OwnsVars)
    (hlast : (steps n (start s)).state.store.toList.getLast? = some L) {t : Nat}
    (hkeeps : (steps t (start s)).Keeps P Q L) (hopposed : L.Opposed U)
    (hUmem : U ∈ (steps n (start s)).state.store.toList) (hUP : U ≠ P) :
    ∃ x ∈ (steps n (start s)).state.store.toList, ∃ C ∈ (steps n (start s)).state.store.toList,
      x ≠ L ∧ C ≠ L ∧ x.Opposed C := by
  have hfinal := numbered_steps (r := start s) h hnum n
  have hownsF := ownsVars_steps (r := start s) howns n
  have hkept : ∀ {t' : Nat} {c d x : Clause}, (steps t' (start s)).Keeps c d x →
      x ∈ (steps n (start s)).state.store.toList := by
    intro t' c d x hk
    exact (isPrefix_toList_of_finished h _).subset (hk.mem_steps h)
  obtain ⟨l, u, hLl, hU⟩ := hopposed.exists_literals
  have hLlen : L.literals.length = 1 := by rw [hLl, List.length_singleton]
  obtain ⟨B, C, b, a, z, hunit, hparents, ⟨hBmem, hBL⟩, hCmem, hCL⟩ :=
    exists_parents h hnum hkeeps hLlen
  have hBU : B ≠ U := by
    rintro rfl
    have hlen := hunit.binary.length_eq
    rw [hU] at hlen
    cases hlen
  have hid : B.id ≠ U.id := by
    intro hid
    exact hBU (hfinal.eq_of_id_eq hBmem hUmem hid)
  have hBv := hownsF B hBmem
  have hUv := hownsF U hUmem
  obtain ⟨hclash, hbu⟩ := hunit.exists_unifyAll hU hopposed hid hBv hUv
  have hlimit : s.limit.admits 1 = true := by
    obtain ⟨-, -, -, -, hadmits⟩ := Clause.resolventOn_of_mem_kept hkeeps.2
    rwa [Clause.size, hLlen, limit_steps] at hadmits
  obtain ⟨t', c, d, x, hact, hx, hxunit⟩ := exists_keeps_of_opposed h hlast hBmem hUmem hBL
    hopposed.ne.symm hid (hunit.binary.trans (List.Perm.swap a b [])) hU hclash hbu hlimit
  by_cases hxL : x = L
  · -- the step that has stored the last clause has resolved `u` with both literals, and so it has
    -- stored another clause as well
    subst hxL
    obtain rfl := hkeeps.eq_of_keeps h hnum hx
    rcases hact with hact | hact
    · cases hkeeps.1.symm.trans hact
      have hrefuted := (goesOn_of_satisfiable (finished_of_steps h t) hact).refuted
      obtain rfl : C = U := by
        rcases hparents with ⟨-, rfl⟩ | ⟨rfl, -⟩
        · rfl
        · exact absurd rfl hBU
      cases hunit.unit.symm.trans hU
      obtain ⟨y, hy, hyx, p, q, hpq, hqp⟩ := hunit.exists_other hclash hbu
        (by rw [limit_steps]; exact hlimit) hrefuted hkeeps.2
      exact ⟨y, hkept ⟨hact, hy⟩, C, hUmem, hyx, hCL, hpq.opposed hqp hopposed hid hBv hUv⟩
    · cases hkeeps.1.symm.trans hact
      exact absurd rfl hUP
  · exact ⟨x, hkept hx, C, hCmem, hxL, hCL, hunit.opposed hxunit hopposed hid hBv hUv⟩

/-- The last clause is not opposed to any in a run that saturates. -/
theorem not_opposed_last (h : (steps n (start s)).status = .finished .satisfiable)
    (hnum : s.Numbered) (howns : ∀ c ∈ s.store.toList, c.OwnsVars)
    (hlast : (steps n (start s)).state.store.toList.getLast? = some L)
    (hU : U ∈ (steps n (start s)).state.store.toList) : ¬ L.Opposed U := by
  intro hopposed
  have hfinal := numbered_steps (r := start s) h hnum n
  have hownsF := ownsVars_steps (r := start s) howns n
  have hL := List.mem_of_getLast? hlast
  have hid : U.id ≠ L.id := by
    intro hid
    exact hopposed.ne (hfinal.eq_of_id_eq hU hL hid).symm
  obtain ⟨i, hi⟩ := Store.exists_get?_of_mem hU
  rw [List.getLast?_eq_getElem?, Store.length_toList, Store.getElem?_toList] at hlast
  generalize hj : (steps n (start s)).state.store.size - 1 = j at hlast
  have hij : i < j := by
    have hlt := Store.lt_size_of_get? hi
    have hne : i ≠ j := by
      rintro rfl
      cases hi.symm.trans hlast
      exact hid rfl
    omega
  -- the last clause has come too late to meet the other
  have hlate : ¬ (start s).InTime i j := by
    intro hin
    exact not_meets_of_opposed h hopposed.symm (hownsF U hU) (hownsF L hL) hid
      (meets_of_inTime h hij hin hi hlast hid)
  -- so it was not there at the start, and has come from a pair with another current clause
  by_cases hinitial : j < s.store.size
  · obtain ⟨k, -, hcursor, -⟩ := exists_steps_enter (i := i) h (by omega)
    exact hlate ⟨k, hcursor, hinitial.trans_le (size_le_size_steps k (start s))⟩
  · obtain ⟨t, -, P, Q, hkeeps⟩ :=
      exists_keeps_of_get? (r := start s) hlast (Nat.le_of_not_lt hinitial)
    by_cases hUP : U = P
    · subst hUP
      refine hlate ⟨t + 1, ?_, ?_⟩
      · rw [steps_succ_last, (goesOn_of_satisfiable (finished_of_steps h t) hkeeps.1).cursor]
        exact hfinal.eq_of_get?_eq
          (get?_final h (action_eq_resolve_iff.1 hkeeps.1).2.2.1) hi
      · obtain ⟨j', hj'⟩ := Store.exists_get?_of_mem (hkeeps.mem_steps h)
        rw [← hfinal.eq_of_get?_eq (get?_final h hj') hlast]
        exact Store.lt_size_of_get? hj'
    · rw [← hj, ← Store.getElem?_toList, ← Store.length_toList,
        ← List.getLast?_eq_getElem?] at hlast
      obtain ⟨x, hx, C, hC, hxL, hCL, hxC⟩ :=
        exists_opposed_of_keeps h hnum howns hlast hkeeps hopposed hU hUP
      exact not_opposed_of_ne_last h hnum howns hlast hx hC hxL hCL hxC

/-- **No contradiction between clauses of one literal is left.**  In a run that saturates no two
clauses of one literal clash on arguments that unify, although the last clause is not resolved with
all others. -/
theorem not_exists_clashing_units (hnum : s.Numbered)
    (howns : ∀ c ∈ s.store.toList, c.OwnsVars)
    (h : (steps n (start s)).status = .finished .satisfiable) :
    ¬ ∃ c ∈ (steps n (start s)).state.store.toList,
      ∃ d ∈ (steps n (start s)).state.store.toList, c.id ≠ d.id ∧
        ∃ l m σ, c.literals = [l] ∧ d.literals = [m] ∧ l.clashes m = true ∧
          Term.unifyAll l.args m.args = .ok σ := by
  rintro ⟨c, hc, d, hd, -, l, m, σ, hl, hm, hclash, hσ⟩
  have hopposed : c.Opposed d := by
    obtain ⟨θ, hθ⟩ := Term.unifyAll_eq_ok_iff.1 ⟨σ, hσ⟩
    exact ⟨l, m, hl, hm, hclash, θ, θ, hθ⟩
  have hlast := List.getLast?_eq_some_getLast (List.ne_nil_of_mem hc)
  generalize List.getLast _ (List.ne_nil_of_mem hc) = L at hlast
  by_cases hcL : c = L
  · exact not_opposed_last h hnum howns hlast hd (hcL ▸ hopposed)
  · by_cases hdL : d = L
    · exact not_opposed_last h hnum howns hlast hc (hdL ▸ hopposed.symm)
    · exact not_opposed_of_ne_last h hnum howns hlast hc hd hcL hdL hopposed

theorem not_exists_clashing_units_four :
    ¬ ∃ c ∈ (steps 15 (start (.initial [⟨1, [⟨true, "p", [.const "a"]⟩, ⟨true, "q", []⟩]⟩,
        ⟨2, [⟨false, "p", [.var ⟨"X", 2⟩]⟩]⟩] 2 .unlimited))).state.store.toList,
      ∃ d ∈ (steps 15 (start (.initial [⟨1, [⟨true, "p", [.const "a"]⟩, ⟨true, "q", []⟩]⟩,
        ⟨2, [⟨false, "p", [.var ⟨"X", 2⟩]⟩]⟩] 2 .unlimited))).state.store.toList, c.id ≠ d.id ∧
        ∃ l m σ, c.literals = [l] ∧ d.literals = [m] ∧ l.clashes m = true ∧
          Term.unifyAll l.args m.args = .ok σ :=
  not_exists_clashing_units ⟨by decide +kernel, by decide +kernel⟩
    (by unfold Clause.OwnsVars; decide +kernel) (by decide +kernel)

end Run
end Refutation
