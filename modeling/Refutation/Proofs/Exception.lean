import Refutation.Proofs.History

/-!
# Clauses that have been worked off are satisfiable

Let a clause be false in a least set of atoms in which the positive clauses are true.  It has one
negative literal, so with some positive clause it gives one that is positive.  As this is false too,
it can only be the last one of all.  The last one has been made only once, so there is one false
clause at most.  It is there from the start, or a parent of it would be false.

The positive literals that go away when one resolves with it, again and again, or are false anyway,
make up whole clauses, such as those that need the atom which is missing.  Each of these clauses
gives another one with it, or the last; so again there is only one way along which they come.  But
where the first of them comes from, the same resolutions done in another order make one that is not
on this way.

## Main definitions

* `History.Exception` — the one clause that may be false, and the last clause made with it.
* `History.Exception.MadeWith` — a clause was made on the negative literal of that clause.
* `History.Removable` — a literal that is false or goes away by resolving with a clause.
* `History.Vanishes` — a clause with an instance of which all literals go away.

## Main results

* `History.Minimal.exists_exception` — what is known of a false clause.
* `History.Exception.exists_link` — a clause that vanishes gives another one, or the last.
* `History.Exception.eq_of_not_madeWith` — one clause that vanishes is not made by such a step.
* `History.Minimal.not_exception` — no clause is false.
* `History.exists_models` — **clauses that have been worked off are satisfiable**.
-/

namespace Refutation
namespace History

variable {h : History} {H : Set Atom} {K : Clause} {l : Literal}

/-! ### The exception -/

/-- The clause `Q` is false, and no other one is.  It has been there from the start, and the last
clause was made in the turn of a positive clause `P` that was resolved with it. -/
structure Exception (h : History) (H : Set Atom) (P Q : Clause) : Prop where
  mem : Q ∈ h.clauses
  mem_first : Q ∈ h.first
  one_negative : negatives Q.literals = 1
  fails : ¬ (herbrand H).Models Q
  models {c : Clause} : c ∈ h.clauses → c ≠ Q → (herbrand H).Models c
  not_made (c : Clause) (k : Link) : ¬ h.Made c k Q
  positive : P.Positive
  made_last : ∃ i j, h.Made P ⟨P, i, Q, j⟩ h.last

namespace Minimal

/-- A false clause and some positive clause give the last one, whenever they are resolved. -/
theorem exists_link_last (hH : h.Minimal H) (hK : K ∈ h.clauses)
    (hfails : ¬ (herbrand H).Models K) :
    ∃ E ∈ h.clauses, E.Positive ∧ E ≠ K ∧ ∃ i j, (Link.mk E i K j).Unifiable ∧
      ∀ c x, h.Made c ⟨E, i, K, j⟩ x → x = h.last := by
  obtain ⟨n, hn, hneg⟩ := hH.exists_negative hK hfails
  obtain ⟨j, hj⟩ := List.mem_iff_getElem?.1 hn
  -- what a positive clause and the false one give is positive
  have hpositive : ∀ {c E x : Clause} {i : Nat}, E.Positive → h.Made c ⟨E, i, K, j⟩ x →
      x.Positive := by
    intro c E x i hpos hmade
    have hcount := (h.resolvent hmade).negatives_eq
    rw [negatives_eq_zero_iff.2 hpos, hH.negatives_of_fails hK hfails] at hcount
    exact negatives_eq_zero_iff.1 (by omega)
  obtain ⟨E, hE, hEpos, hEK, i, hk, hmade⟩ :=
    hH.exists_link hK hfails hj hneg (fun _ hpos => hpos) hpositive
  refine ⟨E, hE, hEpos, hEK, i, j, hk, ?_⟩
  intro c x hx
  rcases hmade c x hx with hlast | ⟨hmem, hpos, hxfails⟩
  · exact hlast
  · exact absurd (hH.models hmem hpos) hxfails

/-- There are no two false clauses. -/
theorem eq_of_fails {c : Clause} (hH : h.Minimal H) (hK : K ∈ h.clauses)
    (hfails : ¬ (herbrand H).Models K) (hc : c ∈ h.clauses) (hcfails : ¬ (herbrand H).Models c) :
    c = K := by
  have hlast : ∀ {K : Clause}, K ∈ h.clauses → ¬ (herbrand H).Models K →
      h.NegParent h.last K := by
    intro K hK hfails
    obtain ⟨E, hE, -, hEK, i, j, hk, hmade⟩ := hH.exists_link_last hK hfails
    obtain ⟨c, x, hx⟩ := h.exists_made_of_unifiable hE hK hEK hk
    exact ⟨c, _, hmade c x hx ▸ hx, rfl⟩
  exact h.negParent_rightUnique (hlast hc hcfails) (hlast hK hfails)

/-- What is known of a false clause. -/
theorem exists_exception (hH : h.Minimal H) (hK : K ∈ h.clauses)
    (hfails : ¬ (herbrand H).Models K) : ∃ P, h.Exception H P K := by
  have honly : ∀ {c : Clause}, c ∈ h.clauses → c ≠ K → (herbrand H).Models c := by
    intro c hc hcK
    by_contra hcfails
    exact hcK (hH.eq_of_fails hK hfails hc hcfails)
  have hnot : ∀ c k, ¬ h.Made c k K := by
    intro c k hmade
    refine hfails ((h.resolvent hmade).models (honly (h.mem_pos hmade) ?_)
      (honly (h.mem_neg hmade) ?_))
    · exact fun heq => Nat.ne_of_lt (h.pos_lt hmade) (congrArg Clause.id heq)
    · exact fun heq => Nat.ne_of_lt (h.neg_lt hmade) (congrArg Clause.id heq)
  have hfirst : K ∈ h.first := by
    by_contra hfirst
    obtain ⟨c, k, hmade⟩ := h.exists_made hK hfirst
    exact hnot c k hmade
  obtain ⟨P, hP, hPpos, hPK, i, j, hk, hmade⟩ := hH.exists_link_last hK hfails
  have hPlast : P ≠ h.last := by
    obtain ⟨c, x, hx⟩ := h.exists_made_of_unifiable hP hK hPK hk
    have hlt := h.pos_lt hx
    rw [hmade c x hx] at hlt
    exact fun heq => Nat.ne_of_lt hlt (congrArg Clause.id heq)
  -- `K` is there from the start, so it is resolved with `P` in the turn of `P`
  obtain ⟨x, hx⟩ := h.exists_made_pos hP hK hk (h.meets_first hP hPlast hfirst hPK)
  exact ⟨P, hK, hfirst, hH.negatives_of_fails hK hfails, hfails, honly, hnot, hPpos, i, j,
    hmade P x hx ▸ hx⟩

end Minimal

/-! ### Literals that go away -/

/-- A positive literal is false, or it goes away by resolving with an instance of `Q` that leaves
such literals only. -/
inductive Removable (H : Set Atom) (Q : Clause) : Literal → Prop where
  /-- The literal is false. -/
  | untrue {l : Literal} (hpos : l.positive = true) (hl : ¬ l.IsTrue H) : Removable H Q l
  /-- The literal is resolved away. -/
  | resolve {l : Literal} {θ : Var → Term} (hpos : l.positive = true)
      (hmem : l.compl ∈ Q.inst θ) (hrest : ∀ m ∈ (Q.inst θ).erase l.compl, Removable H Q m) :
      Removable H Q l

theorem Removable.positive {Q : Clause} (hl : Removable H Q l) : l.positive = true := by
  cases hl with
  | untrue hpos => exact hpos
  | resolve hpos => exact hpos

/-- All literals of an instance go away. -/
def Vanishes (h : History) (H : Set Atom) (Q E : Clause) : Prop :=
  E ∈ h.clauses ∧ ∃ θ, ∀ l ∈ E.inst θ, Removable H Q l

namespace Exception

variable {P Q E : Clause}

theorem positive_of_vanishes (hE : h.Vanishes H Q E) : E.Positive := by
  obtain ⟨-, θ, hθ⟩ := hE
  exact Clause.positive_of_inst fun l hl => (hθ l hl).positive

theorem ne_of_positive (e : h.Exception H P Q) (hE : E.Positive) : E ≠ Q := by
  rintro rfl
  have hzero := negatives_eq_zero_iff.2 hE
  rw [e.one_negative] at hzero
  cases hzero

theorem ne_last (e : h.Exception H P Q) : Q ≠ h.last := by
  obtain ⟨i, j, hmade⟩ := e.made_last
  intro heq
  exact Nat.ne_of_lt (h.neg_lt hmade) (congrArg Clause.id heq)

/-- Some clause vanishes: one that needs the atom that makes `Q` false. -/
theorem exists_vanishes (e : h.Exception H P Q) (hH : h.Minimal H) : ∃ E, h.Vanishes H Q E := by
  obtain ⟨θ, hfalse⟩ := not_models_iff.1 e.fails
  obtain ⟨n₀, hn₀, hneg₀⟩ := hH.exists_negative e.mem e.fails
  have hn : n₀.mapArgs (Term.subst θ) ∈ Q.inst θ := List.mem_map_of_mem hn₀
  have hneg : (n₀.mapArgs (Term.subst θ)).positive = false := hneg₀
  generalize n₀.mapArgs (Term.subst θ) = n at hn hneg
  have hsign := Literal.positive_compl_of_negative hneg
  obtain ⟨E, hE, hEpos, ζ, honly⟩ :=
    hH.exists_onlyTrue hsign (Literal.isTrue_compl_iff.2 (hfalse n hn))
  refine ⟨E, hE, ζ, ?_⟩
  intro l hl
  by_cases htrue : l.IsTrue H
  · obtain rfl := honly.eq l hl htrue
    rw [← Literal.compl_compl n] at hn
    refine Removable.resolve hsign hn ?_
    intro m hm
    rw [Literal.compl_compl] at hm hn
    have hcount := negatives_erase hn hneg
    rw [negatives_inst, e.one_negative] at hcount
    exact Removable.untrue (negatives_eq_zero_iff.1 (by omega) m hm)
      (hfalse m (List.mem_of_mem_erase hm))
  · exact Removable.untrue (hEpos.inst ζ l hl) htrue

/-- Two clauses with one complementary pair of literals, of which all others go away, give a clause
that vanishes, or the last. -/
theorem eq_last_or_vanishes {X Y c x : Clause} {i j : Nat} {τ η : Var → Term}
    (hX : X ∈ h.clauses) (hY : Y ∈ h.clauses) (hXpos : X.Positive)
    (hYneg : negatives Y.literals = 1) (hl : l.positive = true)
    (hi : (X.inst τ)[i]? = some l) (hj : (Y.inst η)[j]? = some l.compl)
    (hXrest : ∀ m ∈ (X.inst τ).erase l, Removable H Q m)
    (hYrest : ∀ m ∈ (Y.inst η).erase l.compl, Removable H Q m)
    (hmade : h.Made c ⟨X, i, Y, j⟩ x) : x = h.last ∨ h.Vanishes H Q x := by
  have hzero := negatives_eq_zero_iff.2 hXpos
  have hXY : X ≠ Y := by
    rintro rfl
    omega
  have hone : negatives (X.inst τ ++ Y.inst η) ≤ 1 := by
    rw [negatives_append, negatives_inst, negatives_inst]
    omega
  obtain ⟨ζ, hζ⟩ := (h.resolvent hmade).exists_perm_erase (h.ownsVars hX) (h.ownsVars hY)
    (h.id_ne hX hY hXY) hi hj fun y _ hy hyc =>
      eq_of_compl_mem hone hl (List.mem_append_right _ (List.mem_of_getElem? hj)) hy hyc
  rcases h.mem_or_eq_last hmade with hx | hx
  · refine Or.inr ⟨hx, ζ, ?_⟩
    intro m hm
    rcases List.mem_append.1 (hζ.mem_iff.1 hm) with hm | hm
    · exact hXrest m hm
    · exact hYrest m hm
  · exact Or.inl hx

/-- A clause that vanishes gives another one with `Q`, or the last. -/
theorem exists_link (e : h.Exception H P Q) (hE : h.Vanishes H Q E) :
    ∃ i j, (Link.mk E i Q j).Unifiable ∧
      ∀ c x, h.Made c ⟨E, i, Q, j⟩ x → x = h.last ∨ h.Vanishes H Q x := by
  have hpos := positive_of_vanishes hE
  obtain ⟨hmem, θ, hθ⟩ := hE
  -- a literal that is true can only be resolved away
  obtain ⟨l, hl, htrue⟩ := models_herbrand_iff.1 (e.models hmem (e.ne_of_positive hpos)) θ
  cases hθ l hl with
  | untrue _ hfalse => exact absurd htrue hfalse
  | @resolve _ ζ hlpos hlc hrest =>
    obtain ⟨i, hi⟩ := List.mem_iff_getElem?.1 hl
    obtain ⟨j, hj⟩ := List.mem_iff_getElem?.1 hlc
    refine ⟨i, j, ⟨θ, ζ, l, hi, hlpos, hj⟩, ?_⟩
    intro c x hmade
    exact eq_last_or_vanishes hmem e.mem hpos e.one_negative hlpos hi hj
      (fun m hm => hθ m (List.mem_of_mem_erase hm)) hrest hmade

/-- Clauses that vanish are not there in the turn of `Q`: they would give one another without
end. -/
theorem not_meets (e : h.Exception H P Q) (hE : h.Vanishes H Q E) : ¬ h.Meets Q E := by
  intro hmeets
  obtain ⟨E, ⟨hE, hmeets⟩, hmax⟩ := Set.exists_max_image
    { E | h.Vanishes H Q E ∧ h.Meets Q E } Clause.id (h.finite.subset fun E hE => hE.1.1)
    ⟨E, hE, hmeets⟩
  obtain ⟨i, j, hk, hchild⟩ := e.exists_link hE
  obtain ⟨x, hx⟩ := h.exists_made_neg hE.1 e.mem hk hmeets
  rcases hchild Q x hx with rfl | hvanishes
  · obtain ⟨i', j', hlast⟩ := e.made_last
    exact e.ne_of_positive e.positive (h.made_inj hlast hx).1
  · exact Nat.not_le.2 (h.pos_lt hx) (hmax x ⟨hvanishes, h.meets_made hx hvanishes.1⟩)

/-- So they have been made. -/
theorem exists_made (e : h.Exception H P Q) (hE : h.Vanishes H Q E) : ∃ c k, h.Made c k E := by
  refine h.exists_made hE.1 ?_
  intro hfirst
  exact e.not_meets hE
    (h.meets_first e.mem e.ne_last hfirst (e.ne_of_positive (positive_of_vanishes hE)).symm)

/-- Where a clause that vanishes comes from: a positive clause and one with a single negative
literal, in which all but the two literals resolved on go away. -/
theorem exists_parents_of_vanishes {c X : Clause} {k : Link} (hX : h.Vanishes H Q X)
    (hmade : h.Made c k X) :
    k.pos.Positive ∧ negatives k.neg.literals = 1 ∧
      ∃ τ l, (k.pos.inst τ)[k.i]? = some l ∧ l.positive = true ∧
        (k.neg.inst τ)[k.j]? = some l.compl ∧
        (∀ m ∈ (k.pos.inst τ).erase l, Removable H Q m) ∧
        ∀ m ∈ (k.neg.inst τ).erase l.compl, Removable H Q m := by
  have hzero := negatives_eq_zero_iff.2 (positive_of_vanishes hX)
  have hcount := (h.resolvent hmade).negatives_eq
  obtain ⟨-, ζ, hζ⟩ := hX
  obtain ⟨τ, l, y, hi, hl, hj, hperm⟩ := (h.resolvent hmade).exists_parents ζ
  have hlc := List.mem_of_getElem? hj
  have herase := negatives_erase hlc (Literal.negative_compl_of_positive hl)
  rw [negatives_inst] at herase
  have hone : negatives (k.pos.inst τ ++ k.neg.inst τ) ≤ 1 := by
    rw [negatives_append, negatives_inst, negatives_inst]
    omega
  have hleft := perm_erase_of_perm (List.mem_of_getElem? hi) hlc
    (fun y _ hy hyc => eq_of_compl_mem hone hl (List.mem_append_right _ hlc) hy hyc) hperm
  refine ⟨negatives_eq_zero_iff.1 (by omega), by omega, τ, l, hi, hl, hj, ?_, ?_⟩
  · exact fun m hm => hζ m (hleft.mem_iff.2 (List.mem_append_left _ hm))
  · exact fun m hm => hζ m (hleft.mem_iff.2 (List.mem_append_right _ hm))

/-- A positive literal that stays is true. -/
theorem isTrue_of_not_removable (hl : l.positive = true) (hstays : ¬ Removable H Q l) :
    l.IsTrue H := by
  by_contra hfalse
  exact hstays (Removable.untrue hl hfalse)

/-- Let all literals of two lists go away but `l.compl` and `m.compl`, and let `l` stay.  Then `l` is
not among them, so only `m` and `m.compl` are complementary. -/
theorem eq_of_stays {ls ms : List Literal} {m : Literal} (hls : negatives ls ≤ 1)
    (hms : negatives ms ≤ 1) (hl : l.positive = true) (hstays : ¬ Removable H Q l)
    (hlc : l.compl ∈ ls) (hlrest : ∀ y ∈ ls.erase l.compl, Removable H Q y)
    (hm : m.positive = true) (hmc : m.compl ∈ ms)
    (hmrest : ∀ y ∈ ms.erase m.compl, Removable H Q y) :
    ∀ y ∈ ls ++ ms, y.positive = true → y.compl ∈ ls ++ ms → y = m := by
  intro y hy hypos hyc
  have hne : ∀ {l : Literal}, l.positive = true → y ≠ l.compl := fun hl =>
    Literal.ne_of_positive_of_negative hypos (Literal.negative_compl_of_positive hl)
  have hgoes : Removable H Q y := by
    rcases List.mem_append.1 hy with hy | hy
    · exact hlrest y ((List.mem_erase_of_ne (hne hl)).2 hy)
    · exact hmrest y ((List.mem_erase_of_ne (hne hm)).2 hy)
  rcases List.mem_append.1 hyc with hyc | hyc
  · have heq : y = l := eq_of_compl_mem hls hl hlc hypos hyc
    exact absurd (heq ▸ hgoes) hstays
  · exact eq_of_compl_mem hms hm hmc hypos hyc

/-- Let `l.compl` be in an instance of `Y` of which all else goes away, and let `l` stay.  Then one
of the literals that go away is resolved with `Q`. -/
theorem exists_resolve_of_stays (e : h.Exception H P Q) {Y : Clause} {τ : Var → Term}
    (hY : Y ∈ h.clauses) (hYQ : Y ≠ Q) (hl : l.positive = true) (hstays : ¬ Removable H Q l)
    (hrest : ∀ m ∈ (Y.inst τ).erase l.compl, Removable H Q m) :
    ∃ y ∈ (Y.inst τ).erase l.compl, y.positive = true ∧ ∃ ζ, y.compl ∈ Q.inst ζ ∧
      ∀ m ∈ (Q.inst ζ).erase y.compl, Removable H Q m := by
  -- a literal of the instance is true, and it is not `l.compl`
  obtain ⟨y, hy, hytrue⟩ := models_herbrand_iff.1 (e.models hY hYQ) τ
  have hyl : y ≠ l.compl := by
    rintro rfl
    exact Literal.isTrue_compl_iff.1 hytrue (isTrue_of_not_removable hl hstays)
  have hmem := (List.mem_erase_of_ne hyl).2 hy
  cases hrest y hmem with
  | untrue _ hfalse => exact absurd hytrue hfalse
  | @resolve _ ζ hypos hyc hQrest => exact ⟨y, hmem, hypos, ζ, hyc, hQrest⟩

/-- Such a clause gives another one of the same sort with `Q`. -/
theorem exists_made_of_stays (e : h.Exception H P Q) {Y : Clause} {τ : Var → Term}
    (hY : Y ∈ h.clauses) (hYQ : Y ≠ Q) (hYneg : negatives Y.literals = 1) (hl : l.positive = true)
    (hstays : ¬ Removable H Q l) (hlc : l.compl ∈ Y.inst τ)
    (hrest : ∀ m ∈ (Y.inst τ).erase l.compl, Removable H Q m) :
    ∃ c k F η, h.Made c k F ∧ k.pos = Y ∧ F ∈ h.clauses ∧ negatives F.literals = 1 ∧
      l.compl ∈ F.inst η ∧ ∀ m ∈ (F.inst η).erase l.compl, Removable H Q m := by
  obtain ⟨y, hyrest, hypos, ζ, hyc, hQrest⟩ := e.exists_resolve_of_stays hY hYQ hl hstays hrest
  have hy := List.mem_of_mem_erase hyrest
  obtain ⟨i, hi⟩ := List.mem_iff_getElem?.1 hy
  obtain ⟨j, hj⟩ := List.mem_iff_getElem?.1 hyc
  obtain ⟨c, F, hF⟩ := h.exists_made_of_unifiable (k := ⟨Y, i, Q, j⟩) hY e.mem hYQ
    ⟨τ, ζ, y, hi, hypos, hj⟩
  have hcount := (h.resolvent hF).negatives_eq
  rw [hYneg, e.one_negative] at hcount
  have hmem : F ∈ h.clauses := by
    refine (h.mem_or_eq_last hF).resolve_right ?_
    rintro rfl
    -- the last clause was made from `P`, which has no negative literal
    obtain ⟨i', j', hlast⟩ := e.made_last
    have hPY : P = Y := congrArg Link.pos (h.made_inj hlast hF).2
    rw [← hPY, negatives_eq_zero_iff.2 e.positive] at hYneg
    cases hYneg
  obtain ⟨η, hη⟩ := (h.resolvent hF).exists_perm_erase (h.ownsVars hY) (h.ownsVars e.mem)
    (h.id_ne hY e.mem hYQ) hi hj
    (eq_of_stays (by rw [negatives_inst, hYneg]) (by rw [negatives_inst, e.one_negative]) hl hstays
      hlc hrest hypos hyc hQrest)
  have hin : l.compl ∈ (Y.inst τ).erase y :=
    (List.mem_erase_of_ne (Literal.ne_of_positive_of_negative hypos
      (Literal.negative_compl_of_positive hl)).symm).2 hlc
  refine ⟨c, _, F, η, hF, rfl, hmem, by omega, ?_, ?_⟩
  · exact hη.mem_iff.2 (List.mem_append_left _ hin)
  · intro m hm
    have hm := (hη.erase l.compl).mem_iff.1 hm
    rw [List.erase_append_left _ hin, List.erase_comm] at hm
    rcases List.mem_append.1 hm with hm | hm
    · exact hrest m (List.mem_of_mem_erase hm)
    · exact hQrest m hm

/-! ### Two ways to make a clause that vanishes -/

/-- A clause was made by resolving with `Q`. -/
def MadeWith (h : History) (Q x E : Clause) : Prop := ∃ c k, h.Made c k x ∧ k.pos = E ∧ k.neg = Q

theorem madeWith_rightUnique : Relator.RightUnique (MadeWith h Q) := by
  rintro x _ _ ⟨c, k, hmade, rfl, -⟩ ⟨d, k', hmade', rfl, -⟩
  rw [(h.made_inj hmade hmade').2]

theorem id_lt_of_madeWith {x : Clause} (hx : MadeWith h Q x E) : E.id < x.id := by
  obtain ⟨c, k, hmade, rfl, -⟩ := hx
  exact h.pos_lt hmade

theorem not_madeWith {c x : Clause} {k : Link} (hmade : h.Made c k x) (hQ : k.neg ≠ Q)
    (E : Clause) : ¬ MadeWith h Q x E := by
  rintro ⟨d, k', hmade', -, hneg⟩
  exact hQ ((congrArg Link.neg (h.made_inj hmade hmade').2).trans hneg)

/-- All clauses that vanish are on the way back from the last one by steps with `Q`. -/
theorem reflTransGen_of_vanishes (e : h.Exception H P Q) (hE : h.Vanishes H Q E) :
    Relation.ReflTransGen (MadeWith h Q) h.last E := by
  refine reflTransGen_of_forall_exists (T := { E | h.Vanishes H Q E })
    (h.finite.subset fun E hE => hE.1) id_lt_of_madeWith ?_ E hE
  intro E hE
  obtain ⟨i, j, hk, hchild⟩ := e.exists_link hE
  obtain ⟨c, x, hx⟩ := h.exists_made_of_unifiable hE.1 e.mem
    (e.ne_of_positive (positive_of_vanishes hE)) hk
  exact ⟨x, ⟨c, _, hx, rfl, rfl⟩, hchild c x hx⟩

/-- So there is one clause that vanishes, at most, which is not made by a step with `Q`. -/
theorem eq_of_not_madeWith {X G : Clause} (e : h.Exception H P Q) (hX : h.Vanishes H Q X)
    (hG : h.Vanishes H Q G) (hXnot : ∀ E, ¬ MadeWith h Q X E) (hGnot : ∀ E, ¬ MadeWith h Q G E) :
    X = G := by
  rcases Relation.ReflTransGen.total_of_right_unique madeWith_rightUnique
    (e.reflTransGen_of_vanishes hX) (e.reflTransGen_of_vanishes hG) with hway | hway
  · rcases hway.cases_head with heq | ⟨E, hmade, -⟩
    · exact heq
    · exact absurd hmade (hXnot E)
  · rcases hway.cases_head with heq | ⟨E, hmade, -⟩
    · exact heq.symm
    · exact absurd hmade (hGnot E)

/-- Where the first clause that vanishes comes from: the literal resolved on stays, for a parent
would vanish otherwise. -/
theorem exists_parents_of_first (e : h.Exception H P Q) (hH : h.Minimal H) :
    ∃ X, h.Vanishes H Q X ∧ ∃ c k, h.Made c k X ∧ k.pos.Positive ∧
      negatives k.neg.literals = 1 ∧ ∃ τ l, (k.pos.inst τ)[k.i]? = some l ∧ l.positive = true ∧
        (k.neg.inst τ)[k.j]? = some l.compl ∧ ¬ Removable H Q l ∧
        (∀ m ∈ (k.pos.inst τ).erase l, Removable H Q m) ∧
        ∀ m ∈ (k.neg.inst τ).erase l.compl, Removable H Q m := by
  obtain ⟨X, hX, hmin⟩ := Set.exists_min_image { E | h.Vanishes H Q E } Clause.id
    (h.finite.subset fun E hE => hE.1) (e.exists_vanishes hH)
  obtain ⟨c, k, hmade⟩ := e.exists_made hX
  obtain ⟨hpos, hneg, τ, l, hi, hl, hj, hUrest, hVrest⟩ := exists_parents_of_vanishes hX hmade
  refine ⟨X, hX, c, k, hmade, hpos, hneg, τ, l, hi, hl, hj, ?_, hUrest, hVrest⟩
  intro hremovable
  refine Nat.not_le.2 (h.pos_lt hmade) (hmin k.pos ⟨h.mem_pos hmade, τ, ?_⟩)
  intro m hm
  by_cases hml : m = l
  · exact hml ▸ hremovable
  · exact hUrest m ((List.mem_erase_of_ne hml).2 hm)

end Exception

/-- There is no exception. -/
theorem Minimal.not_exception {P Q : Clause} (hH : h.Minimal H) : ¬ h.Exception H P Q := by
  intro e
  obtain ⟨X, hX, c, k, hmade, hpos, hneg, τ, l, hi, hl, hj, hstays, hUrest, hVrest⟩ :=
    e.exists_parents_of_first hH
  have hmem := h.mem_pos hmade
  have hlc := List.mem_of_getElem? hj
  have hkQ : k.neg ≠ Q := by
    intro heq
    rw [heq] at hlc hVrest
    exact hstays (Removable.resolve hl hlc hVrest)
  -- resolving with `Q` before and not after gives another clause that vanishes
  obtain ⟨c₁, k₁, F, η, hF, hk₁, hFmem, hFneg, hFl, hFrest⟩ :=
    e.exists_made_of_stays (h.mem_neg hmade) hkQ hneg hl hstays hlc hVrest
  obtain ⟨j', hj'⟩ := List.mem_iff_getElem?.1 hFl
  have hXF : k.pos ≠ F := by
    rintro rfl
    rw [negatives_eq_zero_iff.2 hpos] at hFneg
    cases hFneg
  have hFQ : F ≠ Q := by
    rintro rfl
    exact e.not_made c₁ k₁ hF
  obtain ⟨c₂, G, hG⟩ := h.exists_made_of_unifiable (k := ⟨k.pos, k.i, F, j'⟩) hmem hFmem hXF
    ⟨τ, η, l, hi, hl, hj'⟩
  have hGvanishes : h.Vanishes H Q G := by
    refine (Exception.eq_last_or_vanishes hmem hFmem hpos hFneg hl hi hj' hUrest hFrest
      hG).resolve_left ?_
    rintro rfl
    obtain ⟨i', j'', hlast⟩ := e.made_last
    exact hFQ (congrArg Link.neg (h.made_inj hG hlast).2)
  -- none of the two is made with `Q`, so they are one; but they have different parents
  obtain rfl := e.eq_of_not_madeWith hX hGvanishes (Exception.not_madeWith hmade hkQ)
    (Exception.not_madeWith hG hFQ)
  have hkF : k.neg = F := congrArg Link.neg (h.made_inj hmade hG).2
  have hlt := h.pos_lt hF
  rw [hk₁, hkF] at hlt
  exact Nat.lt_irrefl _ hlt

/-- **Clauses that have been worked off are satisfiable**: a least set of atoms in which the
positive ones are true makes all of them true. -/
theorem exists_models (h : History) :
    ∃ H : Set Atom, ∀ c ∈ h.clauses, (herbrand H).Models c := by
  obtain ⟨H, hmodels, hneed⟩ := exists_minimal_atoms h.clauses fun c hc => h.ne_nil hc
  have hH : h.Minimal H := ⟨fun hc => hmodels _ hc, fun hl => hneed _ hl⟩
  refine ⟨H, ?_⟩
  intro c hc
  by_contra hfails
  obtain ⟨P, e⟩ := hH.exists_exception hc hfails
  exact hH.not_exception e

end History
end Refutation
