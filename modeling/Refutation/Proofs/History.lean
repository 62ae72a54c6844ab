import Mathlib.Data.Set.Finite.Lemmas
import Refutation.Proofs.Links

/-!
# Clauses that have been worked off

Clauses are resolved two at a time, every two of them at least once, and what they give is among
them again, except for a clause that comes last and is left alone.  No factors are ever formed, so
the usual completeness of resolution says nothing about clauses with which this has come to an end.
What matters here is that each of them has been made only once.

Take a least set of atoms in which the positive clauses are true.  Let a clause be false there,
under some instance.  For each of its negative literals there are clauses with an instance in which
only the complement of that literal is true, for the atom would not be needed otherwise.  The
youngest of them and the false clause give a clause which is false again, or the last one of all.
Going on like this one always comes to the last clause, along the parents on whose negative literal
it was made.  There is only one such way, so a false clause has one negative literal.

## Main definitions

* `History` — how clauses have come about, and that they have been worked off.
* `History.NegParent` — a clause was made on a negative literal of another one.
* `History.Minimal` — a least set of atoms in which the positive clauses are true.

## Main results

* `reflTransGen_of_forall_exists` — clauses that are all next of one another are on one way back.
* `History.exists_link` — a false clause and one that makes a single literal true are resolved.
* `History.Minimal.negatives_of_fails` — a false clause has one negative literal.
-/

namespace Refutation

/-- How clauses have come about, up to the point where all that two of them give is among them, but
for a single clause. -/
structure History where
  /-- The clauses that have been worked off. -/
  clauses : Set Clause
  /-- The clauses that were there from the start. -/
  first : Set Clause
  /-- The clause that was made last. -/
  last : Clause
  /-- A clause is resolved with another when it is its turn. -/
  Meets : Clause → Clause → Prop
  /-- A clause is made on a link, in the turn of the given clause. -/
  Made : Clause → Link → Clause → Prop
  finite : clauses.Finite
  ownsVars {c : Clause} : c ∈ clauses → c.OwnsVars
  eq_of_id_eq {c d : Clause} : c ∈ clauses → d ∈ clauses → c.id = d.id → c = d
  ne_nil {c : Clause} : c ∈ clauses → c.literals ≠ []
  /-- Two clauses are resolved in the turn of one of them. -/
  meets {c d : Clause} : c ∈ clauses → d ∈ clauses → c ≠ d → Meets c d ∨ Meets d c
  /-- A clause has its turn when the first ones are already there. -/
  meets_first {c d : Clause} : c ∈ clauses → c ≠ last → d ∈ first → c ≠ d → Meets c d
  /-- What is made in the turn of a clause is resolved with it. -/
  meets_made {c x : Clause} {k : Link} : Made c k x → x ∈ clauses → Meets c x
  exists_made_pos {k : Link} : k.pos ∈ clauses → k.neg ∈ clauses → k.Unifiable →
    Meets k.pos k.neg → ∃ x, Made k.pos k x
  exists_made_neg {k : Link} : k.pos ∈ clauses → k.neg ∈ clauses → k.Unifiable →
    Meets k.neg k.pos → ∃ x, Made k.neg k x
  mem_or_eq_last {c x : Clause} {k : Link} : Made c k x → x ∈ clauses ∨ x = last
  resolvent {c x : Clause} {k : Link} : Made c k x → k.Resolvent x
  mem_pos {c x : Clause} {k : Link} : Made c k x → k.pos ∈ clauses
  mem_neg {c x : Clause} {k : Link} : Made c k x → k.neg ∈ clauses
  pos_lt {c x : Clause} {k : Link} : Made c k x → k.pos.id < x.id
  neg_lt {c x : Clause} {k : Link} : Made c k x → k.neg.id < x.id
  /-- A clause is made once. -/
  made_inj {c d x : Clause} {k k' : Link} : Made c k x → Made d k' x → c = d ∧ k = k'
  /-- A clause is there from the start or has been made. -/
  exists_made {x : Clause} : x ∈ clauses → x ∉ first → ∃ c k, Made c k x

/-! ### Ways back through parents -/

section Ways

variable {r : Clause → Clause → Prop} {a x y z : Clause}

/-- Going back, one comes to lower numbers. -/
theorem id_le_of_reflTransGen (hlt : ∀ {x y}, r x y → y.id < x.id)
    (h : Relation.ReflTransGen r x y) : y.id ≤ x.id := by
  induction h with
  | refl => exact Nat.le_refl _
  | tail _ hstep ih => exact (hlt hstep).le.trans ih

/-- There is one way back, so two clauses on it that have the same next are the same. -/
theorem eq_of_reflTransGen (hr : Relator.RightUnique r) (hlt : ∀ {x y}, r x y → y.id < x.id)
    (hx : Relation.ReflTransGen r a x) (hy : Relation.ReflTransGen r a y) (hxz : r x z)
    (hyz : r y z) : x = y := by
  have hone : ∀ {x y}, Relation.ReflTransGen r x y → r x z → r y z → x = y := by
    intro x y h hxz hyz
    rcases h.cases_head with heq | ⟨w, hxw, hwy⟩
    · exact heq
    · obtain rfl := hr hxz hxw
      have hle := id_le_of_reflTransGen hlt hwy
      have hback := hlt hyz
      omega
  rcases Relation.ReflTransGen.total_of_right_unique hr hx hy with h | h
  · exact hone h hxz hyz
  · exact (hone h hyz hxz).symm

/-- If each clause of a set is the next of another one, or of `a`, then all are on the way back from
`a`. -/
theorem reflTransGen_of_forall_exists {T : Set Clause} (hfinite : T.Finite)
    (hlt : ∀ {x y}, r x y → y.id < x.id) (h : ∀ y ∈ T, ∃ x, r x y ∧ (x = a ∨ x ∈ T)) :
    ∀ y ∈ T, Relation.ReflTransGen r a y := by
  by_contra hnone
  push Not at hnone
  -- take the youngest that is not on the way
  obtain ⟨y, ⟨hy, hfar⟩, hmax⟩ := Set.exists_max_image
    { y | y ∈ T ∧ ¬ Relation.ReflTransGen r a y } Clause.id (hfinite.subset fun y hy => hy.1)
    hnone
  obtain ⟨x, hxy, rfl | hx⟩ := h y hy
  · exact hfar (Relation.ReflTransGen.single hxy)
  · by_cases hway : Relation.ReflTransGen r a x
    · exact hfar (hway.tail hxy)
    · exact Nat.not_le.2 (hlt hxy) (hmax x ⟨hx, hway⟩)

end Ways

namespace History

variable (h : History) {H : Set Atom} {K : Clause} {l : Literal}

theorem id_ne {c d : Clause} (hc : c ∈ h.clauses) (hd : d ∈ h.clauses) (hne : c ≠ d) :
    c.id ≠ d.id :=
  fun hid => hne (h.eq_of_id_eq hc hd hid)

/-- Two clauses give a clause on every link that is unifiable. -/
theorem exists_made_of_unifiable {k : Link} (hpos : k.pos ∈ h.clauses) (hneg : k.neg ∈ h.clauses)
    (hne : k.pos ≠ k.neg) (hk : k.Unifiable) : ∃ c x, h.Made c k x := by
  rcases h.meets hpos hneg hne with hmeets | hmeets
  · exact ⟨_, h.exists_made_pos hpos hneg hk hmeets⟩
  · exact ⟨_, h.exists_made_neg hpos hneg hk hmeets⟩

/-- A clause was made on a negative literal of another one. -/
def NegParent (x K : Clause) : Prop := ∃ c k, h.Made c k x ∧ k.neg = K

theorem negParent_rightUnique : Relator.RightUnique h.NegParent := by
  rintro x _ _ ⟨c, k, hmade, rfl⟩ ⟨d, k', hmade', rfl⟩
  rw [(h.made_inj hmade hmade').2]

theorem id_lt_of_negParent {x K : Clause} (hx : h.NegParent x K) : K.id < x.id := by
  obtain ⟨c, k, hmade, rfl⟩ := hx
  exact h.neg_lt hmade

/-! ### Clauses that are false -/

/-- A clause is false if all literals of one of its instances are. -/
theorem not_models_iff {c : Clause} :
    ¬ (herbrand H).Models c ↔ ∃ θ, ∀ l ∈ c.inst θ, ¬ l.IsTrue H := by
  rw [models_herbrand_iff]
  push Not
  rfl

/-- Let a clause `K` have a false instance, and a negative literal there.  Of the clauses with an
instance in which only the complement of that literal is true, one gives a false clause with it, or
the last. -/
theorem exists_link {p : Clause → Prop} {j : Nat} {θ : Var → Term} (hK : K ∈ h.clauses)
    (hfalse : ∀ l ∈ K.inst θ, ¬ l.IsTrue H) (hl : l.positive = true)
    (hj : (K.inst θ)[j]? = some l.compl)
    (hp : ∀ {c E x : Clause} {i : Nat}, p E → h.Made c ⟨E, i, K, j⟩ x → p x)
    (hex : ∃ E ∈ h.clauses, p E ∧ E ≠ K ∧ ∃ ζ, OnlyTrue H l (E.inst ζ)) :
    ∃ E ∈ h.clauses, p E ∧ E ≠ K ∧ ∃ i, (Link.mk E i K j).Unifiable ∧
      ∀ c x, h.Made c ⟨E, i, K, j⟩ x →
        x = h.last ∨ x ∈ h.clauses ∧ p x ∧ ¬ (herbrand H).Models x := by
  -- take the youngest of these clauses
  obtain ⟨E, ⟨hE, hpE, hEK, ζ, honly⟩, hmax⟩ := Set.exists_max_image
    { E | E ∈ h.clauses ∧ p E ∧ E ≠ K ∧ ∃ ζ, OnlyTrue H l (E.inst ζ) } Clause.id
    (h.finite.subset fun E hE => hE.1) hex
  obtain ⟨i, hi⟩ := List.mem_iff_getElem?.1 honly.mem
  refine ⟨E, hE, hpE, hEK, i, ⟨ζ, θ, l, hi, hl, hj⟩, ?_⟩
  intro c x hmade
  rcases h.mem_or_eq_last hmade with hx | hx
  · refine Or.inr ⟨hx, hp hpE hmade, ?_⟩
    obtain ⟨η, hη⟩ := (h.resolvent hmade).exists_perm_erase (h.ownsVars hE) (h.ownsVars hK)
      (h.id_ne hE hK hEK) hi hj (honly.eq_of_compl_mem hfalse hl)
    have htrue : ∀ y ∈ x.inst η, y.IsTrue H → y = l := by
      intro y hy
      refine honly.eq_of_mem_append hfalse y (List.mem_append.2 ?_)
      exact (List.mem_append.1 (hη.mem_iff.1 hy)).imp List.mem_of_mem_erase List.mem_of_mem_erase
    intro hmodels
    -- otherwise the clause made were younger and had an instance of the same sort
    obtain ⟨y, hy, hytrue⟩ := models_herbrand_iff.1 hmodels η
    obtain rfl := htrue y hy hytrue
    have hxK : x ≠ K := by
      rintro rfl
      exact Nat.lt_irrefl _ (h.neg_lt hmade)
    exact Nat.not_le.2 (h.pos_lt hmade)
      (hmax x ⟨hx, hp hpE hmade, hxK, η, hy, hytrue, htrue⟩)
  · exact Or.inl hx

/-- A least set of atoms in which the positive clauses are true. -/
structure Minimal (H : Set Atom) : Prop where
  models {c : Clause} : c ∈ h.clauses → c.Positive → (herbrand H).Models c
  /-- Each atom is needed for an instance of a positive clause. -/
  exists_onlyTrue {l : Literal} : l.positive = true → l.IsTrue H →
    ∃ c ∈ h.clauses, c.Positive ∧ ∃ θ, OnlyTrue H l (c.inst θ)

namespace Minimal

variable {h}

/-- A false clause has a negative literal. -/
theorem exists_negative (hH : h.Minimal H) (hK : K ∈ h.clauses)
    (hfails : ¬ (herbrand H).Models K) : ∃ n ∈ K.literals, n.positive = false := by
  by_contra hnone
  refine hfails (hH.models hK ?_)
  intro l hl
  cases hpos : l.positive with
  | true => rfl
  | false => exact absurd ⟨l, hl, hpos⟩ hnone

/-- A false clause gives another one, or the last, by each of its negative literals. -/
theorem exists_link (hH : h.Minimal H) {p : Clause → Prop} {j : Nat} {n : Literal}
    (hK : K ∈ h.clauses) (hfails : ¬ (herbrand H).Models K) (hj : K.literals[j]? = some n)
    (hn : n.positive = false) (hpos : ∀ E, E.Positive → p E)
    (hp : ∀ {c E x : Clause} {i : Nat}, p E → h.Made c ⟨E, i, K, j⟩ x → p x) :
    ∃ E ∈ h.clauses, p E ∧ E ≠ K ∧ ∃ i, (Link.mk E i K j).Unifiable ∧
      ∀ c x, h.Made c ⟨E, i, K, j⟩ x →
        x = h.last ∨ x ∈ h.clauses ∧ p x ∧ ¬ (herbrand H).Models x := by
  obtain ⟨θ, hfalse⟩ := not_models_iff.1 hfails
  have hinst : (K.inst θ)[j]? = some (n.mapArgs (Term.subst θ)) :=
    Clause.getElem?_inst.2 ⟨n, hj, rfl⟩
  -- the complement is true, so some positive clause needs it
  have htrue : (n.mapArgs (Term.subst θ)).compl.IsTrue H :=
    Literal.isTrue_compl_iff.2 (hfalse _ (List.mem_of_getElem? hinst))
  have hsign : (n.mapArgs (Term.subst θ)).compl.positive = true :=
    Literal.positive_compl_of_negative hn
  obtain ⟨E, hE, hEpos, hζ⟩ := hH.exists_onlyTrue hsign htrue
  refine h.exists_link hK hfalse hsign ?_ hp ⟨E, hE, hpos E hEpos, ?_, hζ⟩
  · rwa [Literal.compl_compl]
  · rintro rfl
    exact hfails (hH.models hE hEpos)

/-- A clause has been made on each negative literal of a false one.  It is false too, or the
last. -/
theorem exists_made (hH : h.Minimal H) {j : Nat} {n : Literal} (hK : K ∈ h.clauses)
    (hfails : ¬ (herbrand H).Models K) (hj : K.literals[j]? = some n) (hn : n.positive = false) :
    ∃ c E i x, h.Made c ⟨E, i, K, j⟩ x ∧
      (x = h.last ∨ x ∈ h.clauses ∧ ¬ (herbrand H).Models x) := by
  obtain ⟨E, hE, -, hEK, i, hk, hmade⟩ := hH.exists_link (p := fun _ => True) hK hfails hj hn
    (fun _ _ => trivial) (fun _ _ => trivial)
  obtain ⟨c, x, hx⟩ := h.exists_made_of_unifiable hE hK hEK hk
  exact ⟨c, E, i, x, hx, (hmade c x hx).imp id fun hx => ⟨hx.1, hx.2.2⟩⟩

/-- All false clauses are on the way back from the last one. -/
theorem reflTransGen_of_fails (hH : h.Minimal H) (hK : K ∈ h.clauses)
    (hfails : ¬ (herbrand H).Models K) : Relation.ReflTransGen h.NegParent h.last K := by
  refine reflTransGen_of_forall_exists (T := { K | K ∈ h.clauses ∧ ¬ (herbrand H).Models K })
    (h.finite.subset fun K hK => hK.1) h.id_lt_of_negParent ?_ K ⟨hK, hfails⟩
  rintro K ⟨hK, hfails⟩
  obtain ⟨n, hn, hneg⟩ := hH.exists_negative hK hfails
  obtain ⟨j, hj⟩ := List.mem_iff_getElem?.1 hn
  obtain ⟨c, E, i, x, hmade, hx⟩ := hH.exists_made hK hfails hj hneg
  exact ⟨x, ⟨c, _, hmade, rfl⟩, hx⟩

/-- A false clause has one negative literal. -/
theorem negatives_of_fails (hH : h.Minimal H) (hK : K ∈ h.clauses)
    (hfails : ¬ (herbrand H).Models K) : negatives K.literals = 1 := by
  have hback : ∀ {x : Clause}, (x = h.last ∨ x ∈ h.clauses ∧ ¬ (herbrand H).Models x) →
      Relation.ReflTransGen h.NegParent h.last x := by
    rintro x (rfl | ⟨hx, hxfails⟩)
    · exact Relation.ReflTransGen.refl
    · exact hH.reflTransGen_of_fails hx hxfails
  obtain ⟨n, hn, hneg⟩ := hH.exists_negative hK hfails
  obtain ⟨j, hj⟩ := List.mem_iff_getElem?.1 hn
  refine negatives_eq_one hj hneg ?_
  -- two negative literals would give two clauses, each of which goes back to `K` at once
  intro j' n' hj' hn'
  obtain ⟨c, E, i, x, hmade, hx⟩ := hH.exists_made hK hfails hj hneg
  obtain ⟨d, E', i', x', hmade', hx'⟩ := hH.exists_made hK hfails hj' hn'
  obtain rfl := eq_of_reflTransGen h.negParent_rightUnique h.id_lt_of_negParent (hback hx)
    (hback hx') ⟨c, _, hmade, rfl⟩ ⟨d, _, hmade', rfl⟩
  exact congrArg Link.j (h.made_inj hmade' hmade).2

end Minimal
end History
end Refutation
