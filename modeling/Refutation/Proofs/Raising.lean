import Refutation.Proofs.Completeness
import Refutation.Proofs.Trees

/-!
# A higher limit hides no refutation

What a run that saturates has worked off need not contain all resolvents: a clause that comes last is
left alone.  Suppose the small clauses among those worked off can be joined to a refutation, and take
one with the fewest instances.  At a joint of two different clauses their resolvent could take their
place, so it has to be the clause that is left alone; and that one was made on a single link.  Of all
joints those nearest to a leaf leave no choice: the clause there has two literals, one of them joined
to a unit clause on the link that the last clause was made on.  The other one is joined as well, and
so to the same clause again and again, for ever.

So there is no refutation, and what the small clauses force is consistent.  The run with a lower
limit can never come to the empty clause then.

## Main definitions

* `Link.between` — the link between two places.
* `Stock` — clauses of bounded size that have been worked off.
* `Run.stock` — the small clauses of a run that saturates.

## Main results

* `Stock.made_last` — a joint of a smallest refutation is the link of the last clause.
* `Stock.not_refutes` — what has been worked off makes up no refutation.
* `Run.eq_unsatisfiable_of_below` — **raising the limit never hides a refutation**.
-/

namespace Refutation

variable {c d c' d' x : Clause} {i j i' j' n a b : Nat} {l m : Literal} {k : Link}

/-! ### Links between places -/

namespace Link

/-- The link between two places, the first of which has the literal `l`. -/
def between (l : Literal) (c : Clause) (i : Nat) (d : Clause) (j : Nat) : Link :=
  if l.positive then ⟨c, i, d, j⟩ else ⟨d, j, c, i⟩

/-- It does not matter which place comes first. -/
theorem between_compl : between l.compl d j c i = between l c i d j := by
  rw [between, between, Literal.positive_compl]
  cases l.positive with
  | false => rfl
  | true => rfl

/-- Links that are equal begin at the same place, or one begins with the clause with which the other
ends. -/
theorem eq_or_eq_of_between_eq (h : between l c i d j = between m c' i' d' j') :
    c = c' ∧ i = i' ∨ c = d' := by
  unfold between at h
  split at h
  · split at h
    · cases h
      exact Or.inl ⟨rfl, rfl⟩
    · cases h
      exact Or.inr rfl
  · split at h
    · cases h
      exact Or.inr rfl
    · cases h
      exact Or.inl ⟨rfl, rfl⟩

theorem Resolvent.size_eq (h : k.Resolvent x) : x.size = k.pos.size + k.neg.size - 2 := by
  obtain ⟨l, m, -, -, -, -, hres | hres⟩ := h
  · exact hres.size_eq
  · rw [hres.size_eq, Nat.add_comm]

end Link

/-! ### Clauses that have been worked off -/

/-- Clauses of bounded size, such that all that two of them give is among them, but for a single
clause. -/
structure Stock where
  /-- The clauses that have been worked off. -/
  clauses : Set Clause
  /-- The clause that is left alone. -/
  last : Clause
  /-- How large a clause can be. -/
  bound : Nat
  /-- A clause is made on a link. -/
  Made : Link → Clause → Prop
  ownsVars {c : Clause} : c ∈ clauses → c.OwnsVars
  eq_of_id_eq {c d : Clause} : c ∈ clauses → d ∈ clauses → c.id = d.id → c = d
  size_le {c : Clause} : c ∈ clauses → c.size ≤ bound
  /-- Two different clauses give all that is not too large. -/
  exists_made {k : Link} : k.pos ∈ clauses → k.neg ∈ clauses → k.pos ≠ k.neg →
    k.pos.size + k.neg.size ≤ bound + 2 → k.Unifiable →
      ∃ x, Made k x ∧ (x ∈ clauses ∨ x = last)
  resolvent {k : Link} {x : Clause} : Made k x → k.Resolvent x
  made_ne_nil {k : Link} {x : Clause} : Made k x → x.literals ≠ []
  /-- A clause is made once. -/
  made_inj {k k' : Link} {x : Clause} : Made k x → Made k' x → k = k'

namespace Stock

variable (K : Stock)

/-- If no refutation is smaller than one with the given joint, then the clauses there give the last
one: any other could take the place of the two. -/
theorem made_last (hmin : ∀ N < a + b + 2, ¬ Refutes K.clauses N)
    (hc : Forces K.clauses a c i l) (hd : Forces K.clauses b d j l.compl) (hcd : c ≠ d)
    (hsize : c.size + d.size ≤ K.bound + 2) : K.Made (Link.between l c i d j) K.last := by
  wlog hpos : l.positive = true generalizing a b c d i j l with hsymm
  · rw [← Link.between_compl]
    rw [← Literal.compl_compl l] at hc
    rw [Nat.add_comm a] at hmin
    rw [Nat.add_comm] at hsize
    exact hsymm hmin hd hc hcd.symm hsize
      (Literal.positive_compl_of_negative (Bool.eq_false_iff.2 hpos))
  obtain ⟨hcmem, θ, hi, hrest⟩ := hc
  obtain ⟨hdmem, ζ, hj, hrest'⟩ := hd
  obtain ⟨x, hmade, hx⟩ := K.exists_made (k := ⟨c, i, d, j⟩) hcmem hdmem hcd hsize
    ⟨θ, ζ, l, hi, hpos, hj⟩
  rw [Link.between, if_pos hpos]
  rcases hx with hx | rfl
  · exfalso
    obtain ⟨η, y, hperm⟩ := (K.resolvent hmade).exists_inst (K.ownsVars hcmem) (K.ownsVars hdmem)
      (mt (K.eq_of_id_eq hcmem hdmem) hcd) hi hj
    have hparts := (perm_cons_eraseIdx hi).append (perm_cons_eraseIdx hj)
    have hleft := hperm.symm.trans (hparts.trans (List.perm_middle.cons l))
    have hall := hrest.append hrest'
    -- either the resolvent takes the place of its parents, or two of its literals clash already
    rcases perm_or_mem_of_perm hleft with hsame | ⟨hy, hyc⟩
    · exact hmin (a + b + 1) (Nat.lt_succ_self _)
        (refutes_of_perm hx (K.made_ne_nil hmade) hsame.symm hall)
    · obtain ⟨N, hN, hrefutes⟩ := exists_refutes_of_mem hall hy hyc
      exact hmin N (by omega) hrefutes
  · exact hmade

/-- If the last clause was made on a link of a clause with two literals and a unit clause, no
smallest refutation has a joint at the other literal. -/
theorem false_of_joint {N : Nat} (hmin : ∀ N' < N, ¬ Refutes K.clauses N') (hsize : c.size ≤ 2)
    (hmade : K.Made (Link.between m c j' c' i') K.last) (hcc' : c ≠ c') (hij' : i ≠ j')
    (hc : Forces K.clauses a c i l) (hd : Forces K.clauses b d j l.compl) (hN : a + b + 2 = N) :
    False := by
  -- the clause at the other side is `c` again, and there the tree is smaller
  induction b using Nat.strong_induction_on generalizing a d j l with
  | h b ih =>
    by_cases hcd : c = d
    · subst hcd
      have hplace := hc.place_ne hd
      obtain ⟨hcmem, θ, hi, hrest⟩ := hd
      obtain ⟨m', hm'⟩ := exists_getElem?_of_lt_size hc.lt_size θ
      rw [← Literal.compl_compl l] at hc
      obtain ⟨b', d', j'', a', hd', hc', hsum, hlt⟩ :=
        exists_turn hcmem hi hrest hc hm' hplace.symm
      exact ih b' hlt hc' hd' (by omega)
    · have hbound := K.size_le hd.1
      have hlast := K.made_last (hN ▸ hmin) hc hd hcd (by omega)
      rcases Link.eq_or_eq_of_between_eq (K.made_inj hlast hmade) with ⟨-, heq⟩ | heq
      · exact hij' heq
      · exact hcc' heq

/-- Two unit clauses make up no smallest refutation, for the last clause has a literal. -/
theorem false_of_units (hmin : ∀ N < 2, ¬ Refutes K.clauses N) (hc : Forces K.clauses 0 c i l)
    (hd : Forces K.clauses 0 d j l.compl) : False := by
  have hcone := hc.size_eq_one
  have hdone := hd.size_eq_one
  have hcd : c ≠ d := by
    rintro rfl
    have hplace := hc.place_ne hd
    have hi := hc.lt_size
    have hj := hd.lt_size
    omega
  have hmade := K.made_last hmin hc hd hcd (by omega)
  have hsize := (K.resolvent hmade).size_eq
  refine K.made_ne_nil hmade (List.length_eq_zero_iff.1 (hsize.trans ?_))
  rw [Link.between]
  split
  · show c.size + d.size - 2 = 0
    rw [hcone, hdone]
  · show d.size + c.size - 2 = 0
    rw [hcone, hdone]

/-- A smallest refutation has no joint with more than one clause at one side. -/
theorem false_of_side {N : Nat} (hmin : ∀ N' < N, ¬ Refutes K.clauses N') (ha : a ≠ 0)
    (hc : Forces K.clauses a c i l) (hd : Forces K.clauses b d j l.compl) (hN : a + b + 2 = N) :
    False := by
  induction a using Nat.strong_induction_on generalizing b c d i j l with
  | h a ih =>
    obtain ⟨hcmem, θ, hi, hrest⟩ := id hc
    -- at the smallest side all literals but the one of the joint are joined to unit clauses
    have hunit : ∀ j' m, j' ≠ i → (c.inst θ)[j']? = some m →
        ∃ c' i', c ≠ c' ∧ K.Made (Link.between m c j' c' i') K.last := by
      intro j' m hj' hm
      obtain ⟨a', c', i', b', hc', hother, hsum, hlt⟩ := exists_turn hcmem hi hrest hd hm hj'
      by_cases ha' : a' = 0
      · subst ha'
        have hone := hc'.size_eq_one
        have hcc' : c ≠ c' := by
          rintro rfl
          have hi' := lt_size_of_getElem? hi
          have hm' := lt_size_of_getElem? hm
          omega
        have hbound := K.size_le hcmem
        have hsmall : b' + 0 + 2 = N := by omega
        exact ⟨c', i', hcc', K.made_last (hsmall ▸ hmin) hother hc' hcc' (by omega)⟩
      · have hother' : Forces K.clauses b' c j' m.compl.compl := by rwa [Literal.compl_compl]
        exact (ih a' hlt ha' hc' hother' (by omega)).elim
    obtain ⟨j', m, hj', hm⟩ := exists_place_of_resolvesAway hrest ha
    obtain ⟨c', i', hcc', hmade⟩ := hunit j' m hj' hm
    have hsize : c.size ≤ 2 := by
      have honly : ∀ k, k < c.size → k ≠ i → k = j' := by
        intro k hk hki
        obtain ⟨m', hm'⟩ := exists_getElem?_of_lt_size hk θ
        obtain ⟨c'', i'', hcc'', hmade'⟩ := hunit k m' hki hm'
        rcases Link.eq_or_eq_of_between_eq (K.made_inj hmade' hmade) with ⟨-, heq⟩ | heq
        · exact heq
        · exact absurd heq hcc'
      by_contra hlarge
      have hzero := honly 0
      have hone := honly 1
      have htwo := honly 2
      omega
    exact K.false_of_joint hmin hsize hmade hcc' hj'.symm hc hd hN

/-- What has been worked off makes up no refutation. -/
theorem not_refutes (N : Nat) : ¬ Refutes K.clauses N := by
  induction N using Nat.strong_induction_on with
  | h N ih =>
    rintro ⟨a, b, c, i, d, j, l, hc, hd, hN⟩
    by_cases ha : a = 0
    · by_cases hb : b = 0
      · subst ha hb hN
        exact K.false_of_units ih hc hd
      · rw [← Literal.compl_compl l] at hc
        exact K.false_of_side ih hb hd hc (by omega)
    · exact K.false_of_side ih ha hc hd hN

/-- What it forces is consistent and closed under it. -/
theorem exists_consistent : ∃ A, Consistent A ∧ ∀ c ∈ K.clauses, ClosedUnder A c :=
  ⟨_, consistent_forces K.not_refutes, fun _ hc => closedUnder_forces hc⟩

end Stock

/-! ### Runs -/

namespace Run

variable {s : Saturation} {L : Clause} {t : Nat}

/-- The clauses of at most `n` literals that a run which saturates has worked off. -/
def stock (h : (steps t (start s)).status = .finished .satisfiable) (hnum : s.Numbered)
    (howns : ∀ c ∈ s.store.toList, c.OwnsVars) (hadmits : ∀ m ≤ n, s.limit.admits m = true)
    (hL : (steps t (start s)).state.store.toList.getLast? = some L) : Stock where
  clauses := { c | (c ∈ (steps t (start s)).state.store.toList ∧ (c ∈ s.store.toList ∨ c ≠ L)) ∧
    c.size ≤ n }
  last := L
  bound := n
  Made k x := ∃ c, (start s).Made c k x
  ownsVars hc := ownsVars_steps (r := start s) howns t _ hc.1.1
  eq_of_id_eq hc hd := (numbered_steps (r := start s) h hnum t).eq_of_id_eq hc.1.1 hd.1.1
  size_le hc := hc.2
  exists_made := by
    rintro k ⟨hpos, -⟩ ⟨hneg, -⟩ hcd hsize hk
    have hid := mt ((numbered_steps (r := start s) h hnum t).eq_of_id_eq hpos.1 hneg.1) hcd
    have hmade := exists_made_of_meets h (hadmits (k.pos.size + k.neg.size - 2) (by omega))
      (ownsVars_steps (r := start s) howns t _ hpos.1)
      (ownsVars_steps (r := start s) howns t _ hneg.1) hid hk
    obtain ⟨c, x, hx⟩ : ∃ c x, (start s).Made c k x := by
      rcases meets_or_meets_of_worked h hnum hL hpos hneg hcd with hmeets | hmeets
      · exact ⟨_, hmade.1 hmeets⟩
      · exact ⟨_, hmade.2 hmeets⟩
    refine ⟨x, ⟨c, hx⟩, ?_⟩
    by_cases hxL : x = L
    · exact Or.inr hxL
    · refine Or.inl ⟨⟨hx.mem_final h, Or.inr hxL⟩, ?_⟩
      rw [(hx.resolvent h).size_eq]
      omega
  resolvent := by
    rintro k x ⟨c, hx⟩
    exact hx.resolvent h
  made_ne_nil := by
    rintro k x ⟨c, hx⟩
    obtain ⟨_, _, hkeeps, -⟩ := hx.exists_keeps
    exact hkeeps.ne_nil
  made_inj := by
    rintro k k' x ⟨c, hx⟩ ⟨d, hx'⟩
    exact (hx.inj h hnum hx').2

/-- If a run saturates and keeps all that has at most `n` literals, then there is a consistent set of
literals that is closed under those clauses of the start that have no more. -/
theorem exists_consistent_of_finished (h : (steps t (start s)).status = .finished .satisfiable)
    (hnum : s.Numbered) (howns : ∀ c ∈ s.store.toList, c.OwnsVars)
    (hadmits : ∀ m ≤ n, s.limit.admits m = true) :
    ∃ A, Consistent A ∧ ∀ c ∈ s.store.toList, c.size ≤ n → ClosedUnder A c := by
  have hkept := (isPrefix_toList_of_finished h 0).subset
  cases hL : (steps t (start s)).state.store.toList.getLast? with
  | none =>
    rw [List.getLast?_eq_none_iff] at hL
    refine ⟨∅, fun l hl => absurd hl (Set.notMem_empty l), ?_⟩
    intro c hc
    rw [hL] at hkept
    cases hkept hc
  | some L =>
    obtain ⟨A, hA, hclosed⟩ := (stock h hnum howns hadmits hL).exists_consistent
    exact ⟨A, hA, fun c hc hsize => hclosed c ⟨⟨hkept hc, Or.inl hc⟩, hsize⟩⟩

/-- Clauses of a source that are refuted below a limit are refuted, if the run ends with an answer,
whenever all that has as many literals as the limit is kept. -/
theorem eq_unsatisfiable_of_admits {source : List Char} {cs : List Clause} {limit : Limit}
    {o : Outcome} (hread : readClauses 0 source = .ok cs) (hn : 1 ≤ n)
    (hyields : (start (.ofRead cs (.below n))).Yields .unsatisfiable)
    (hadmits : ∀ m ≤ n, limit.admits m = true) (h : (start (.ofRead cs limit)).Yields o) :
    o = .unsatisfiable := by
  cases o with
  | unsatisfiable => rfl
  | satisfiable =>
    obtain ⟨t, ht⟩ := h
    obtain ⟨A, hA, hclosed⟩ := exists_consistent_of_finished ht
      (numbered_of_readClauses hread limit) (ownsVars_of_readClauses hread) hadmits
    exact absurd hyields
      (not_yields_of_consistent (s := .ofRead cs (.below n)) hn rfl hA hclosed)

/-- **Raising the limit never hides a refutation.**  Clauses that are refuted below a limit are
refuted below any higher one and without a limit, whenever the run ends with an answer. -/
theorem eq_unsatisfiable_of_below {source : List Char} {cs : List Clause}
    (hread : readClauses 0 source = .ok cs) (hn : 1 ≤ n)
    (hyields : (start (.ofRead cs (.below n))).Yields .unsatisfiable) :
    (∀ m, n ≤ m → ∀ o, (start (.ofRead cs (.below m))).Yields o → o = .unsatisfiable) ∧
      ∀ o, (start (.ofRead cs .unlimited)).Yields o → o = .unsatisfiable := by
  constructor
  · intro m hnm o ho
    rcases hnm.eq_or_lt with rfl | hlt
    · exact ho.unique hyields
    · have hadmits : ∀ k ≤ n, (Limit.below m).admits k = true :=
        fun k hk => decide_eq_true (hk.trans_lt hlt)
      exact eq_unsatisfiable_of_admits hread hn hyields hadmits ho
  · intro o ho
    exact eq_unsatisfiable_of_admits hread hn hyields (fun _ _ => rfl) ho

/-- The empty clause comes of two unit clauses, which are kept below the limit two already. -/
theorem eq_unsatisfiable_of_below_two :
    ∃ cs, readClauses 0 "p(a)|q(b)\n-p(X)\n-q(Y)".toList = .ok cs ∧
      (start (.ofRead cs (.below 2))).Yields .unsatisfiable ∧
      (∀ m, 2 ≤ m → ∀ o, (start (.ofRead cs (.below m))).Yields o → o = .unsatisfiable) ∧
      ∀ o, (start (.ofRead cs .unlimited)).Yields o → o = .unsatisfiable := by
  have hread : readClauses 0 "p(a)|q(b)\n-p(X)\n-q(Y)".toList =
      .ok [⟨1, [⟨true, "p", [.const "a"]⟩, ⟨true, "q", [.const "b"]⟩]⟩,
        ⟨2, [⟨false, "p", [.var ⟨"X", 2⟩]⟩]⟩, ⟨3, [⟨false, "q", [.var ⟨"Y", 3⟩]⟩]⟩] :=
    eq_ok_of_toOption (by decide +kernel)
  have hyields : (start (.ofRead [⟨1, [⟨true, "p", [.const "a"]⟩, ⟨true, "q", [.const "b"]⟩]⟩,
      ⟨2, [⟨false, "p", [.var ⟨"X", 2⟩]⟩]⟩, ⟨3, [⟨false, "q", [.var ⟨"Y", 3⟩]⟩]⟩]
      (.below 2))).Yields .unsatisfiable := ⟨20, by decide +kernel⟩
  exact ⟨_, hread, hyields, eq_unsatisfiable_of_below hread (by decide) hyields⟩

end Run
end Refutation
