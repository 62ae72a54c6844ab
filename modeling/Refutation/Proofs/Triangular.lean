import Refutation.Proofs.Unifier

/-!
# The shape of a unifier

A substitution has two readings.  It is applied from its first binding to its last, and a variable
is looked up in the first binding that it has.  The readings go together because the bindings that
unification makes are triangular: once a variable is bound, it is neither bound again nor
mentioned by any later term.

Each binding takes its variable out of the equations that remain, and everything that is bound
afterwards comes out of these.

## Main definitions

* `Substitution.Triangular` — no variable occurs in its own binding or in one after it.
* `Substitution.Resolved` — the two readings of a substitution agree, and one reading is enough.

## Main results

* `Equation.triangular_of_solve` — solving makes triangular bindings over its variables.
* `Substitution.Triangular.resolved` — triangular bindings are resolved.
* `Term.unify_triangular` — **a unifier is triangular over the variables of its inputs**.
-/

namespace Refutation

namespace Substitution

variable {σ : Substitution} {b : Binding} {s t : Term} {v : Var} {vs ws : List Var}

/-! ### Application and its variables -/

/-- A binding takes its variable away, if its term does not bring it back. -/
theorem notMem_replace (h : v ∉ s.occurrences) (t : Term) :
    v ∉ (t.replace v s).occurrences := by
  simp [Term.mem_occurrences_replace, h]

/-- Application brings in no variables but those of the terms that are bound. -/
theorem notMem_apply (ht : v ∉ t.occurrences) (hσ : ∀ b ∈ σ, v ∉ b.term.occurrences) :
    v ∉ (σ.apply t).occurrences := by
  induction σ generalizing t with
  | nil => simpa using ht
  | cons b σ ih =>
    rw [List.forall_mem_cons] at hσ
    show v ∉ (apply σ (t.replace b.var b.term)).occurrences
    refine ih ?_ hσ.2
    simp [Term.mem_occurrences_replace, ht, hσ.1]

/-- A term without bound variables is left alone. -/
theorem apply_eq_self (h : ∀ b ∈ σ, b.var ∉ t.occurrences) : σ.apply t = t := by
  induction σ with
  | nil => simp
  | cons b σ ih =>
    rw [List.forall_mem_cons] at h
    rw [apply_cons, Term.replace_of_notMem h.1]
    exact ih h.2

/-! ### Looking up -/

/-- The first binding of a variable is the one that counts. -/
theorem lookup?_cons : lookup? (b :: σ) v = if b.var = v then some b.term else lookup? σ v := by
  by_cases h : b.var = v
  · simp [lookup?, h]
  · simp [lookup?, h]

/-- What is looked up has been bound. -/
theorem exists_mem_of_lookup? (h : σ.lookup? v = some t) : ∃ b ∈ σ, b.var = v ∧ b.term = t := by
  obtain ⟨b, hb, rfl⟩ := Option.map_eq_some_iff.1 h
  exact ⟨b, List.mem_of_find?_eq_some hb, by simpa using List.find?_some hb, rfl⟩

theorem lookup?_eq_none_iff : σ.lookup? v = none ↔ ∀ b ∈ σ, b.var ≠ v := by
  simp [lookup?]

/-! ### Triangular bindings -/

/-- Bindings over the variables `vs` are triangular if no variable occurs in its own term, and none
is bound or mentioned again after it is bound. -/
structure Triangular (vs : List Var) (σ : Substitution) : Prop where
  /-- Only variables of `vs` are bound. -/
  var_mem : ∀ b ∈ σ, b.var ∈ vs
  /-- Only variables of `vs` are mentioned. -/
  term_subset : ∀ b ∈ σ, b.term.occurrences ⊆ vs
  /-- No variable occurs in its own term. -/
  notMem_term : ∀ b ∈ σ, b.var ∉ b.term.occurrences
  /-- No variable is bound again, and none is mentioned after it is bound. -/
  pairwise : σ.Pairwise fun b c => b.var ≠ c.var ∧ b.var ∉ c.term.occurrences

/-- The two readings of a substitution agree, and one reading is enough. -/
structure Resolved (σ : Substitution) : Prop where
  /-- No bound variable is left. -/
  notMem_apply : ∀ b ∈ σ, ∀ t, b.var ∉ (σ.apply t).occurrences
  /-- Nothing is left to be replaced. -/
  apply_apply : ∀ t, σ.apply (σ.apply t) = σ.apply t
  /-- A variable becomes what the term becomes that is found for it. -/
  apply_of_lookup? : ∀ v t, σ.lookup? v = some t → σ.apply (.var v) = σ.apply t
  /-- A variable that nothing is found for is left alone. -/
  apply_of_lookup?_eq_none : ∀ v, σ.lookup? v = none → σ.apply (.var v) = .var v

namespace Triangular

theorem nil : Triangular vs [] := ⟨by simp, by simp, by simp, by simp⟩

theorem cons_iff : Triangular vs (b :: σ) ↔
    (b.var ∈ vs ∧ b.term.occurrences ⊆ vs ∧ b.var ∉ b.term.occurrences) ∧
    (∀ c ∈ σ, b.var ≠ c.var ∧ b.var ∉ c.term.occurrences) ∧ Triangular vs σ := by
  constructor
  · rintro ⟨hvar, hterm, hself, hlater⟩
    rw [List.forall_mem_cons] at hvar hterm hself
    rw [List.pairwise_cons] at hlater
    exact ⟨⟨hvar.1, hterm.1, hself.1⟩, hlater.1, ⟨hvar.2, hterm.2, hself.2, hlater.2⟩⟩
  · rintro ⟨⟨hvar, hterm, hself⟩, hlater, h⟩
    exact ⟨List.forall_mem_cons.2 ⟨hvar, h.var_mem⟩, List.forall_mem_cons.2 ⟨hterm, h.term_subset⟩,
      List.forall_mem_cons.2 ⟨hself, h.notMem_term⟩, List.pairwise_cons.2 ⟨hlater, h.pairwise⟩⟩

/-- Triangular bindings over some variables are triangular over more. -/
theorem mono (h : Triangular vs σ) (hsub : vs ⊆ ws) : Triangular ws σ where
  var_mem b hb := hsub (h.var_mem b hb)
  term_subset b hb _ hw := hsub (h.term_subset b hb hw)
  notMem_term := h.notMem_term
  pairwise := h.pairwise

/-- A bound variable is gone once the bindings are applied. -/
theorem notMem_apply (h : Triangular vs σ) (hb : b ∈ σ) (t : Term) :
    b.var ∉ (σ.apply t).occurrences := by
  induction σ generalizing t with
  | nil => cases hb
  | cons c σ ih =>
    obtain ⟨⟨-, -, hself⟩, hlater, h'⟩ := cons_iff.1 h
    rw [apply_cons]
    rcases List.mem_cons.1 hb with rfl | hb'
    · exact Substitution.notMem_apply (notMem_replace hself t) fun c hc => (hlater c hc).2
    · exact ih h' hb' _

/-- Applying the bindings again changes nothing. -/
theorem apply_apply (h : Triangular vs σ) (t : Term) : σ.apply (σ.apply t) = σ.apply t :=
  apply_eq_self fun _ hb => h.notMem_apply hb t

/-- The bindings before that of a variable neither replace it nor anything in its term. -/
theorem apply_of_lookup? (h : Triangular vs σ) (hv : σ.lookup? v = some t) :
    σ.apply (.var v) = σ.apply t := by
  induction σ with
  | nil => cases hv
  | cons b σ ih =>
    obtain ⟨⟨-, -, hself⟩, hlater, h'⟩ := cons_iff.1 h
    rw [lookup?_cons] at hv
    show apply σ ((Term.var v).replace b.var b.term) = apply σ (t.replace b.var b.term)
    split at hv
    · next hbv =>
      cases hv
      rw [Term.replace_of_notMem hself]
      simp [Term.replace, hbv]
    · next hbv =>
      obtain ⟨c, hc, rfl, rfl⟩ := exists_mem_of_lookup? hv
      rw [Term.replace_of_notMem (hlater c hc).2, Term.replace_of_notMem (by simpa using hbv)]
      exact ih h' hv

/-- Triangular bindings are resolved. -/
theorem resolved (h : Triangular vs σ) : Resolved σ where
  notMem_apply _ hb t := h.notMem_apply hb t
  apply_apply := h.apply_apply
  apply_of_lookup? _ _ hv := h.apply_of_lookup? hv
  apply_of_lookup?_eq_none v hv := by
    refine apply_eq_self fun b hb => ?_
    simpa using lookup?_eq_none_iff.1 hv b hb

end Triangular

end Substitution

open Substitution

/-! ### Solving -/

/-- Solving makes triangular bindings over the variables of the equations. -/
theorem Equation.triangular_of_solve {es : List Equation} {σ : Substitution}
    (h : solve es = .ok σ) : Triangular (vars es) σ := by
  induction es using solve_induction generalizing σ with
  | nil =>
    rw [solve_nil] at h
    cases h
    exact .nil
  | error e es err he => cases (solve_error he es).symm.trans h
  | split e es parts he ih =>
    rw [solve_split he] at h
    refine (ih h).mono fun w hw => ?_
    rw [mem_vars_append] at hw
    exact mem_vars_cons.2 (hw.imp_left (occurs_of_move_split he))
  | bind e es b he ih =>
    obtain ⟨τ, hτ, rfl⟩ := eq_cons_of_solve he h
    have hτ := ih hτ
    obtain ⟨heq, hfree⟩ := move_eq_bind he
    have hb : b.var ∈ vars (e :: es) ∧ b.term.occurrences ⊆ vars (e :: es) := by
      rcases heq with rfl | rfl
      · exact ⟨by simp, fun w hw => by simp [hw]⟩
      · exact ⟨by simp, fun w hw => by simp [hw]⟩
    -- the equations that remain are over the variables that there were, less the bound one
    have hrest : ∀ w ∈ vars (replaceAll b es), w ∈ vars (e :: es) ∧ w ≠ b.var := by
      intro w hw
      rcases mem_vars_map_replace hw with ⟨hw, hne⟩ | hw
      · exact ⟨by simp [hw], hne⟩
      · exact ⟨hb.2 hw, fun heq => hfree (heq ▸ hw)⟩
    refine Triangular.cons_iff.2 ⟨⟨hb.1, hb.2, hfree⟩, ?_, hτ.mono fun w hw => (hrest w hw).1⟩
    intro c hc
    refine ⟨(hrest c.var (hτ.var_mem c hc)).2.symm, fun hmem => ?_⟩
    exact (hrest b.var (hτ.term_subset c hc hmem)).2 rfl

namespace Term

/-- A unifier of two lists is triangular over the variables of both. -/
theorem triangular_of_unifyAll {ss ts : List Term} {σ : Substitution}
    (h : unifyAll ss ts = .ok σ) : Triangular ((ss ++ ts).flatMap occurrences) σ := by
  unfold unifyAll at h
  split at h
  · refine (Equation.triangular_of_solve h).mono fun w hw => ?_
    simpa [or_and_right, exists_or] using Equation.mem_of_mem_vars_zip hw
  · cases h

/-- **A unifier is triangular over the variables of its inputs.**  Its variables are distinct
variables of the inputs, and its terms mention variables of the inputs that are not bound up to
there.  So no bound variable is left when it is applied, applying it again changes nothing, and
looking up a variable goes together with applying the bindings in order. -/
theorem unify_triangular :
    (∀ (s t : Term) (σ : Substitution), s.unify t = .ok σ →
      Triangular (s.occurrences ++ t.occurrences) σ ∧ Resolved σ) ∧
    ∀ (ss ts : List Term) (σ : Substitution), unifyAll ss ts = .ok σ →
      Triangular ((ss ++ ts).flatMap occurrences) σ ∧ Resolved σ := by
  have hall : ∀ (ss ts : List Term) (σ : Substitution), unifyAll ss ts = .ok σ →
      Triangular ((ss ++ ts).flatMap occurrences) σ ∧ Resolved σ := by
    intro ss ts σ h
    have htriangular := triangular_of_unifyAll h
    exact ⟨htriangular, htriangular.resolved⟩
  refine ⟨fun s t σ h => ?_, hall⟩
  rw [unify_eq_unifyAll] at h
  simpa using hall [s] [t] σ h

/-- The first binding mentions `Z`, which the second one binds. -/
theorem unify_triangular_chain :
    let x : Term := .var ⟨"X", 1⟩
    let z : Term := .var ⟨"Z", 2⟩
    let t : Term := .app "f" [.var ⟨"Y", 2⟩]
    let σ : Substitution := [⟨⟨"X", 1⟩, t⟩]
    let τ : Substitution := [⟨⟨"X", 1⟩, z⟩, ⟨⟨"Z", 2⟩, t⟩]
    (x.unify t = .ok σ ∧ Triangular [⟨"X", 1⟩, ⟨"Y", 2⟩] σ ∧ Resolved σ) ∧
      unifyAll [x, x] [z, t] = .ok τ ∧
        Triangular [⟨"X", 1⟩, ⟨"X", 1⟩, ⟨"Z", 2⟩, ⟨"Y", 2⟩] τ ∧ Resolved τ := by
  intro x z t σ τ
  have hσ : x.unify t = .ok σ := eq_ok_of_toOption (by decide +kernel)
  have hτ : unifyAll [x, x] [z, t] = .ok τ := eq_ok_of_toOption (by decide +kernel)
  exact ⟨⟨hσ, unify_triangular.1 x t σ hσ⟩, hτ, unify_triangular.2 [x, x] [z, t] τ hτ⟩

end Term

end Refutation
