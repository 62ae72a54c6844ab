import Mathlib.Order.Zorn
import Refutation.Proofs.Soundness

/-!
# Sets of atoms as interpretations

An interpretation in which every term stands for itself is given by the atoms that are true.  A
clause is true in it if each of its instances has a literal that is.  Among the sets of atoms in
which the positive clauses are true there is one that cannot be made smaller.  Each of its atoms is
needed by an instance of some positive clause, in which nothing else is true.

## Main definitions

* `Atom`, `Literal.atom`, `Literal.compl` — literals without a sign, and with the other sign.
* `Literal.IsTrue` — truth in a set of atoms.
* `herbrand` — the interpretation given by a set of atoms.
* `Clause.inst` — the literals of an instance of a clause.
* `OnlyTrue` — a literal is true in a list, and no other is.

## Main results

* `models_herbrand_iff` — truth of a clause in a set of atoms.
* `exists_minimal_hitting` — a smallest choice of members from lists.
* `exists_minimal_atoms` — a set of atoms in which positive clauses are true and need each atom.
-/

namespace Refutation

/-! ### Literals -/

/-- A predicate and its arguments. -/
abbrev Atom := String × List Term

namespace Literal

variable {H : Set Atom} {l m : Literal}

/-- A literal without its sign. -/
def atom (l : Literal) : Atom := (l.predicate, l.args)

/-- A literal is known by its sign and its atom. -/
theorem eq_of_atom_eq (hsign : l.positive = m.positive) (hatom : l.atom = m.atom) : l = m := by
  obtain ⟨hpred, hargs⟩ := Prod.mk.inj hatom
  cases l
  cases m
  dsimp only at hsign hpred hargs
  rw [hsign, hpred, hargs]

/-- A literal with the other sign. -/
def compl (l : Literal) : Literal := { l with positive := !l.positive }

@[simp] theorem positive_compl (l : Literal) : l.compl.positive = !l.positive := rfl

theorem positive_compl_of_negative (h : l.positive = false) : l.compl.positive = true := by
  rw [positive_compl, h]
  rfl

theorem negative_compl_of_positive (h : l.positive = true) : l.compl.positive = false := by
  rw [positive_compl, h]
  rfl

theorem ne_of_positive_of_negative (hl : l.positive = true) (hm : m.positive = false) :
    l ≠ m := by
  rintro rfl
  rw [hl] at hm
  cases hm

@[simp] theorem compl_compl (l : Literal) : l.compl.compl = l := by
  rw [compl, compl, Bool.not_not]

theorem compl_ne (l : Literal) : l.compl ≠ l := by
  intro heq
  have hsign := congrArg Literal.positive heq
  rw [positive_compl] at hsign
  exact Bool.not_ne_self _ hsign

theorem complements_iff_eq_compl : l.complements m = true ↔ m = l.compl := by
  rw [complements_eq_true_iff]
  constructor
  · rintro ⟨hsign, hpred, hargs⟩
    rw [compl, Literal.mk.injEq, hsign, Bool.not_not]
    exact ⟨rfl, hpred.symm, hargs.symm⟩
  · rintro rfl
    exact ⟨(Bool.not_not _).symm, rfl, rfl⟩

/-- A literal is true in a set of atoms if its atom is there, or is not if the literal is
negative. -/
def IsTrue (H : Set Atom) (l : Literal) : Prop := l.atom ∈ H ↔ l.positive = true

theorem isTrue_iff_mem (hpos : l.positive = true) : l.IsTrue H ↔ l.atom ∈ H := by
  rw [IsTrue, hpos]
  exact iff_true_right rfl

theorem isTrue_compl_iff : l.compl.IsTrue H ↔ ¬ l.IsTrue H := by
  show (l.atom ∈ H ↔ (!l.positive) = true) ↔ ¬ (l.atom ∈ H ↔ l.positive = true)
  cases l.positive with
  | false => simp
  | true => simp

end Literal

/-! ### Clauses -/

/-- The interpretation in which every term stands for itself and the given atoms are true. -/
def herbrand (H : Set Atom) : Interpretation Term where
  const := .const
  func := .app
  pred := fun name ts => (name, ts) ∈ H

variable {H : Set Atom} {c : Clause} {l : Literal}

theorem Term.value_herbrand (H : Set Atom) (θ : Var → Term) (t : Term) :
    t.value (herbrand H) θ = t.subst θ := by
  induction t using induction with
  | var v => rfl
  | const a => rfl
  | app f ts ih =>
    rw [value_app, subst_app, List.map_congr_left ih]
    rfl

theorem Literal.holds_herbrand_iff (θ : Var → Term) :
    l.Holds (herbrand H) θ ↔ (l.mapArgs (Term.subst θ)).IsTrue H := by
  rw [Holds, List.map_congr_left fun t _ => Term.value_herbrand H θ t]
  rfl

namespace Clause

/-- The literals of an instance of a clause. -/
def inst (c : Clause) (θ : Var → Term) : List Literal :=
  c.literals.map (·.mapArgs (Term.subst θ))

/-- A clause is positive if all its literals are. -/
def Positive (c : Clause) : Prop := ∀ l ∈ c.literals, l.positive = true

theorem Positive.inst (h : c.Positive) (θ : Var → Term) : ∀ l ∈ c.inst θ, l.positive = true := by
  intro l hl
  obtain ⟨l, hmem, rfl⟩ := List.mem_map.1 hl
  exact h l hmem

theorem positive_of_inst {θ : Var → Term} (h : ∀ l ∈ c.inst θ, l.positive = true) :
    c.Positive := by
  intro l hl
  exact h (l.mapArgs (Term.subst θ)) (List.mem_map_of_mem hl)

end Clause

/-- A clause is true in a set of atoms if each of its instances has a true literal. -/
theorem models_herbrand_iff :
    (herbrand H).Models c ↔ ∀ θ, ∃ l ∈ c.inst θ, l.IsTrue H := by
  refine forall_congr' fun θ => ?_
  constructor
  · rintro ⟨l, hl, hholds⟩
    exact ⟨_, List.mem_map_of_mem hl, (Literal.holds_herbrand_iff θ).1 hholds⟩
  · rintro ⟨l, hl, htrue⟩
    obtain ⟨l, hmem, rfl⟩ := List.mem_map.1 hl
    exact ⟨l, hmem, (Literal.holds_herbrand_iff θ).2 htrue⟩

/-! ### No atom without need -/

/-- A list has members from a chain of sets, all taken together, if it has some from each. -/
theorem exists_mem_sInter {α : Type} {𝒞 : Set (Set α)} (hchain : IsChain (· ⊆ ·) 𝒞)
    {as : List α} (h : ∀ s ∈ 𝒞, ∃ a ∈ as, a ∈ s) (hne : 𝒞.Nonempty) : ∃ a ∈ as, a ∈ ⋂₀ 𝒞 := by
  by_contra hnone
  -- otherwise some set of the chain has none of the members
  have hmiss : ∀ bs : List α, (∀ b ∈ bs, b ∉ ⋂₀ 𝒞) → ∃ s ∈ 𝒞, ∀ b ∈ bs, b ∉ s := by
    intro bs hbs
    induction bs with
    | nil =>
      obtain ⟨s, hs⟩ := hne
      exact ⟨s, hs, fun b hb => by cases hb⟩
    | cons b bs ih =>
      obtain ⟨s, hs, hmiss⟩ := ih fun b hb => hbs b (List.mem_cons_of_mem _ hb)
      have hb := hbs b List.mem_cons_self
      rw [Set.mem_sInter] at hb
      push Not at hb
      obtain ⟨t, ht, hbt⟩ := hb
      rcases hchain.total hs ht with hst | hts
      · refine ⟨s, hs, List.forall_mem_cons.2 ⟨fun hbs => hbt (hst hbs), hmiss⟩⟩
      · refine ⟨t, ht, List.forall_mem_cons.2 ⟨hbt, fun a ha hat => hmiss a ha (hts hat)⟩⟩
  obtain ⟨s, hs, hmiss⟩ := hmiss as fun a ha hmem => hnone ⟨a, ha, hmem⟩
  obtain ⟨a, ha, hmem⟩ := h s hs
  exact hmiss a ha hmem

/-- From lists that are not empty one can choose members so that each of them is needed: it is the
only one chosen from some list. -/
theorem exists_minimal_hitting {α : Type} (𝓛 : Set (List α)) (hne : ∀ as ∈ 𝓛, as ≠ []) :
    ∃ H : Set α, (∀ as ∈ 𝓛, ∃ a ∈ as, a ∈ H) ∧
      ∀ a ∈ H, ∃ as ∈ 𝓛, a ∈ as ∧ ∀ b ∈ as, b ∈ H → b = a := by
  obtain ⟨H, hH⟩ := zorn_superset { H : Set α | ∀ as ∈ 𝓛, ∃ a ∈ as, a ∈ H } (by
    intro 𝒞 h𝒞 hchain
    rcases 𝒞.eq_empty_or_nonempty with rfl | hnonempty
    · refine ⟨Set.univ, fun as has => ?_, fun s hs => absurd hs (Set.notMem_empty s)⟩
      obtain ⟨a, ha⟩ := List.exists_mem_of_ne_nil as (hne as has)
      exact ⟨a, ha, Set.mem_univ a⟩
    · refine ⟨⋂₀ 𝒞, fun as has => ?_, fun s hs => Set.sInter_subset_of_mem hs⟩
      exact exists_mem_sInter hchain (fun s hs => h𝒞 hs as has) hnonempty)
  refine ⟨H, hH.prop, ?_⟩
  intro a ha
  by_contra hnone
  -- otherwise the member could be left out
  have hsmaller : H \ {a} ∈ { H : Set α | ∀ as ∈ 𝓛, ∃ a ∈ as, a ∈ H } := by
    intro as has
    obtain ⟨b, hb, hbH⟩ := hH.prop as has
    by_cases hba : b = a
    · subst hba
      by_contra hleft
      refine hnone ⟨as, has, hb, fun d hd hdH => ?_⟩
      by_contra hdb
      exact hleft ⟨d, hd, hdH, hdb⟩
    · exact ⟨b, hb, hbH, hba⟩
  exact (hH.le_of_le hsmaller Set.sdiff_subset ha).2 rfl

/-- Among the literals, `l` is true and no other one is. -/
structure OnlyTrue (H : Set Atom) (l : Literal) (ls : List Literal) : Prop where
  mem : l ∈ ls
  isTrue : l.IsTrue H
  eq : ∀ m ∈ ls, m.IsTrue H → m = l

namespace OnlyTrue

variable {ls ms : List Literal}

/-- Literals that are false can be added. -/
theorem eq_of_mem_append (h : OnlyTrue H l ls) (hms : ∀ m ∈ ms, ¬ m.IsTrue H) :
    ∀ m ∈ ls ++ ms, m.IsTrue H → m = l := by
  intro m hm htrue
  rcases List.mem_append.1 hm with hm | hm
  · exact h.eq m hm htrue
  · exact absurd htrue (hms m hm)

/-- One of two complementary literals is true, so no other pair is complementary. -/
theorem eq_of_compl_mem (h : OnlyTrue H l ls) (hms : ∀ m ∈ ms, ¬ m.IsTrue H)
    (hl : l.positive = true) :
    ∀ m ∈ ls ++ ms, m.positive = true → m.compl ∈ ls ++ ms → m = l := by
  intro m hm hpos hmc
  by_cases htrue : m.IsTrue H
  · exact h.eq_of_mem_append hms m hm htrue
  · have heq := h.eq_of_mem_append hms _ hmc (Literal.isTrue_compl_iff.2 htrue)
    exact absurd heq.symm
      (Literal.ne_of_positive_of_negative hl (Literal.negative_compl_of_positive hpos))

end OnlyTrue

/-- There is a set of atoms in which positive clauses are true, and which has no atom but those that
alone make an instance of one of them true. -/
theorem exists_minimal_atoms (cs : Set Clause) (hne : ∀ c ∈ cs, c.literals ≠ []) :
    ∃ H : Set Atom, (∀ c ∈ cs, c.Positive → (herbrand H).Models c) ∧
      ∀ l : Literal, l.positive = true → l.IsTrue H →
        ∃ c ∈ cs, c.Positive ∧ ∃ θ, OnlyTrue H l (c.inst θ) := by
  obtain ⟨H, hhit, hneed⟩ := exists_minimal_hitting
    { as | ∃ c ∈ cs, c.Positive ∧ ∃ θ, as = (c.inst θ).map Literal.atom } (by
      rintro _ ⟨c, hc, -, θ, rfl⟩ hnil
      exact hne c hc (List.map_eq_nil_iff.1 (List.map_eq_nil_iff.1 hnil)))
  refine ⟨H, ?_, ?_⟩
  · intro c hc hpos
    refine models_herbrand_iff.2 fun θ => ?_
    obtain ⟨_, ha, haH⟩ := hhit _ ⟨c, hc, hpos, θ, rfl⟩
    obtain ⟨l, hl, rfl⟩ := List.mem_map.1 ha
    exact ⟨l, hl, (Literal.isTrue_iff_mem (hpos.inst θ l hl)).2 haH⟩
  · intro l hl htrue
    obtain ⟨_, ⟨c, hc, hpos, θ, rfl⟩, hmem, honly⟩ :=
      hneed l.atom ((Literal.isTrue_iff_mem hl).1 htrue)
    have heq : ∀ m ∈ c.inst θ, m.atom = l.atom → m = l := by
      intro m hm hatom
      exact Literal.eq_of_atom_eq ((hpos.inst θ m hm).trans hl.symm) hatom
    obtain ⟨m, hm, hatom⟩ := List.mem_map.1 hmem
    refine ⟨c, hc, hpos, θ, ?_, htrue, ?_⟩
    · rwa [← heq m hm hatom]
    · intro m hm hmtrue
      have hmH := (Literal.isTrue_iff_mem (hpos.inst θ m hm)).1 hmtrue
      exact heq m hm (honly m.atom (List.mem_map_of_mem hm) hmH)

end Refutation
