import Refutation.Unification.Stages

/-!
# Most general unifiers

Every move keeps the replacements that solve the equations: splitting an equation asks for as much
as the equation did, a binding asks of a replacement that it treats the variable and the term
alike, and where no move is possible there is no solution.  So solving fails only if there is no
solution, and the bindings it makes ask nothing that some solution does not have.

## Main definitions

* `Equation.SolvesAll` — a replacement solves all equations of a list.
* `Binding.AgreesWith` — a replacement treats a bound variable and its term alike.
* `Substitution.Factors` — a replacement gives the same after the bindings as without them.

## Main results

* `Equation.solvesAll_of_solve`, `Equation.factors_of_solve`, `Equation.not_solvesAll_of_solve` —
  the bindings solve the equations, every solution factors through them, and there is none if
  solving fails.
* `Term.unifyAll_eq_ok_iff` — two lists have a unifier found exactly if they have one.
* `Term.unify_mostGeneral` — unification gives a most general unifier.
-/

namespace Refutation

theorem eq_ok_of_toOption {ε α : Type} {x : Except ε α} {a : α} (h : x.toOption = some a) :
    x = .ok a := by
  cases x with
  | error e => cases h
  | ok b =>
    cases h
    rfl

/-! ### Size and replacement -/

namespace Term

theorem size_le_sizeList {t : Term} {ts : List Term} (h : t ∈ ts) : t.size ≤ sizeList ts := by
  induction ts with
  | nil => cases h
  | cons u us ih =>
    rw [sizeList_cons]
    rcases List.mem_cons.1 h with rfl | h
    · omega
    · have := ih h
      omega

/-- What replaces a variable of a term is no larger than the term after the replacement. -/
theorem size_le_size_subst {θ : Var → Term} {t : Term} {v : Var} (h : v ∈ t.occurrences) :
    (θ v).size ≤ (t.subst θ).size := by
  induction t using induction with
  | var w =>
    rw [occurrences_var, List.mem_singleton] at h
    subst h
    exact Nat.le_refl _
  | const a => cases h
  | app f ts ih =>
    rw [occurrences_app, List.mem_flatMap] at h
    obtain ⟨t, ht, hv⟩ := h
    have hle := ih t ht hv
    have hmem := size_le_sizeList (List.mem_map_of_mem (f := subst θ) ht)
    rw [subst_app, size_app]
    omega

/-- No replacement makes a variable equal to a term it is a proper part of. -/
theorem ne_subst_of_occurs {θ : Var → Term} {t : Term} {v : Var} (h : v ∈ t.occurrences)
    (hne : t ≠ var v) : θ v ≠ t.subst θ := by
  intro heq
  cases t with
  | var w =>
    rw [occurrences_var, List.mem_singleton] at h
    exact hne (by rw [h])
  | const a => cases h
  | app f ts =>
    rw [occurrences_app, List.mem_flatMap] at h
    obtain ⟨t, ht, hv⟩ := h
    have hle := size_le_size_subst (θ := θ) hv
    have hmem := size_le_sizeList (List.mem_map_of_mem (f := subst θ) ht)
    have hsize := congrArg size heq
    rw [subst_app, size_app] at hsize
    omega

end Term

/-- A replacement agrees with a binding if it makes the variable and the term equal. -/
def Binding.AgreesWith (b : Binding) (θ : Var → Term) : Prop := θ b.var = b.term.subst θ

/-- To a replacement that agrees with it, a binding makes no difference. -/
theorem Binding.AgreesWith.subst_replace {b : Binding} {θ : Var → Term} (h : b.AgreesWith θ)
    (t : Term) : (t.replace b.var b.term).subst θ = t.subst θ := by
  rw [Term.replace, Term.subst_subst]
  refine Term.subst_congr ?_
  intro v _
  split
  · next hv => rw [hv, h]
  · rfl

/-- The term of a binding is left alone by it, if the variable does not occur there. -/
theorem Term.replace_of_notMem {t r : Term} {v : Var} (h : v ∉ t.occurrences) :
    t.replace v r = t := by
  rw [replace]
  refine (subst_congr ?_).trans (subst_self t)
  intro w hw
  have hne : w ≠ v := fun hwv => h (hwv ▸ hw)
  exact if_neg hne

namespace Equation

/-! ### Solutions of equations -/

/-- A replacement solves equations if it solves each of them. -/
def SolvesAll (θ : Var → Term) (es : List Equation) : Prop := ∀ e ∈ es, e.SolvedBy θ

variable {θ : Var → Term} {es : List Equation}

@[simp] theorem solvesAll_nil : SolvesAll θ [] := fun _ h => by cases h

@[simp] theorem solvesAll_cons {e : Equation} :
    SolvesAll θ (e :: es) ↔ e.SolvedBy θ ∧ SolvesAll θ es := List.forall_mem_cons

@[simp] theorem solvesAll_append {fs : List Equation} :
    SolvesAll θ (es ++ fs) ↔ SolvesAll θ es ∧ SolvesAll θ fs := List.forall_mem_append

/-- Two lists paired up are solved by what makes the lists equal. -/
theorem solvesAll_zip {ss ts : List Term} (hlen : ss.length = ts.length) :
    SolvesAll θ (zip ss ts) ↔ ss.map (Term.subst θ) = ts.map (Term.subst θ) := by
  induction ss generalizing ts with
  | nil =>
    rw [List.length_nil, eq_comm, List.length_eq_zero_iff] at hlen
    simp [hlen, zip]
  | cons s ss ih =>
    cases ts with
    | nil => cases hlen
    | cons t ts =>
      rw [List.length_cons, List.length_cons, Nat.add_right_cancel_iff] at hlen
      have htail := ih hlen
      rw [zip] at htail ⊢
      rw [List.zipWith_cons_cons, solvesAll_cons, htail, List.map_cons, List.map_cons,
        List.cons.injEq]
      rfl

/-- Bindings solve an equation if they make its sides equal. -/
theorem solvedBy_apply_iff {e : Equation} {σ : Substitution} :
    e.SolvedBy (fun v => σ.apply (.var v)) ↔ σ.apply e.left = σ.apply e.right := by
  rw [SolvedBy, ← Substitution.apply_eq_subst, ← Substitution.apply_eq_subst]

/-- A replacement that agrees with a binding solves what it solves after the binding. -/
theorem solvesAll_replaceAll_iff {b : Binding} (h : b.AgreesWith θ) :
    SolvesAll θ (replaceAll b es) ↔ SolvesAll θ es := by
  have hone : ∀ e : Equation, (e.replace b).SolvedBy θ ↔ e.SolvedBy θ := by
    intro e
    rw [SolvedBy, SolvedBy, replace, h.subst_replace, h.subst_replace]
  rw [replaceAll, SolvesAll, List.forall_mem_map]
  exact forall₂_congr fun e _ => hone e

/-! ### Moves -/

/-- The parts of an equation are solved by what solves the equation. -/
theorem solvedBy_iff_of_split {e : Equation} {parts : List Equation}
    (h : e.move = .ok (.split parts)) : e.SolvedBy θ ↔ SolvesAll θ parts := by
  rcases move_eq_split h with ⟨rfl, heq⟩ | ⟨f, ss, ts, rfl, hlen, rfl⟩
  · simp [SolvedBy, heq]
  · rw [solvesAll_zip hlen, SolvedBy, Term.subst_app, Term.subst_app, Term.app.injEq]
    exact and_iff_right rfl

/-- An equation that binds a variable is solved by what agrees with the binding. -/
theorem solvedBy_iff_of_bind {e : Equation} {b : Binding} (h : e.move = .ok (.bind b)) :
    e.SolvedBy θ ↔ b.AgreesWith θ := by
  rcases (move_eq_bind h).1 with rfl | rfl
  · exact Iff.rfl
  · exact eq_comm

theorem Move.bindVar_eq_error {v : Var} {t : Term} {err : UnifyError}
    (h : Move.bindVar v t = .error err) : v ∈ t.occurrences := by
  unfold Move.bindVar at h
  split at h
  · next hv => exact Term.occurs_eq_true_iff.1 hv
  · cases h

/-- An equation without a move has no solution. -/
theorem not_solvedBy_of_error {e : Equation} {err : UnifyError} (h : e.move = .error err) :
    ¬ e.SolvedBy θ := by
  unfold move at h
  split at h
  · next v t =>
    split at h
    · cases h
    · next hne => exact Term.ne_subst_of_occurs (Move.bindVar_eq_error h) hne
  · next a v => exact absurd (Move.bindVar_eq_error h) (by simp)
  · next f ss v =>
    exact (Term.ne_subst_of_occurs (Move.bindVar_eq_error h) (by simp)).symm
  · next a b =>
    split at h
    · cases h
    · next hab => simpa [SolvedBy] using hab
  · simp [SolvedBy]
  · simp [SolvedBy]
  · next f ss g ts =>
    rw [SolvedBy, Term.subst_app, Term.subst_app, Term.app.injEq]
    split at h
    · split at h
      · cases h
      · next hlen =>
        rintro ⟨-, hmap⟩
        exact hlen (by simpa using congrArg List.length hmap)
    · next hfg => exact fun hand => hfg hand.1

end Equation

/-! ### Solving -/

/-- A replacement factors through bindings if it gives the same after them as without them. -/
def Substitution.Factors (σ : Substitution) (θ : Var → Term) : Prop :=
  ∀ t : Term, (σ.apply t).subst θ = t.subst θ

/-- Bindings are factored through one by one. -/
theorem Substitution.Factors.cons {b : Binding} {σ : Substitution} {θ : Var → Term}
    (hb : b.AgreesWith θ) (h : σ.Factors θ) : Substitution.Factors (b :: σ) θ := by
  intro t
  rw [apply_cons, h, hb.subst_replace]

namespace Equation

/-- A binding comes first among the bindings made. -/
theorem eq_cons_of_solve {e : Equation} {es : List Equation} {b : Binding} {σ : Substitution}
    (he : e.move = .ok (.bind b)) (h : solve (e :: es) = .ok σ) :
    ∃ τ, solve (replaceAll b es) = .ok τ ∧ σ = b :: τ := by
  rw [solve_bind he, ← replaceAll] at h
  cases hτ : solve (replaceAll b es) with
  | error err =>
    rw [hτ] at h
    cases h
  | ok τ =>
    rw [hτ] at h
    cases h
    exact ⟨τ, rfl, rfl⟩

/-- The bindings that solving makes solve the equations. -/
theorem solvesAll_of_solve {es : List Equation} {σ : Substitution} (h : solve es = .ok σ) :
    SolvesAll (fun v => σ.apply (.var v)) es := by
  induction es using solve_induction generalizing σ with
  | nil => exact solvesAll_nil
  | error e es err he => cases (solve_error he es).symm.trans h
  | split e es parts he ih =>
    rw [solve_split he] at h
    rw [solvesAll_cons, solvedBy_iff_of_split he, ← solvesAll_append]
    exact ih h
  | bind e es b he ih =>
    obtain ⟨τ, hτ, rfl⟩ := eq_cons_of_solve he h
    have hfree := (move_eq_bind he).2
    -- the first binding acts on its own term like the identity
    have hagrees : b.AgreesWith fun v => Substitution.apply (b :: τ) (.var v) := by
      rw [Binding.AgreesWith, ← Substitution.apply_eq_subst, Substitution.apply_cons,
        Substitution.apply_cons, Term.replace_of_notMem hfree, Term.replace, Term.subst_var,
        if_pos rfl]
    refine solvesAll_cons.2 ⟨(solvedBy_iff_of_bind he).2 hagrees, ?_⟩
    intro d hd
    have hd' := ih hτ (d.replace b) (List.mem_map_of_mem hd)
    rw [solvedBy_apply_iff] at hd' ⊢
    exact hd'

/-- Every solution factors through the bindings that solving makes. -/
theorem factors_of_solve {es : List Equation} {σ : Substitution} {θ : Var → Term}
    (h : solve es = .ok σ) (hθ : SolvesAll θ es) : σ.Factors θ := by
  induction es using solve_induction generalizing σ with
  | nil =>
    rw [solve_nil] at h
    cases h
    exact fun t => rfl
  | error e es err he => cases (solve_error he es).symm.trans h
  | split e es parts he ih =>
    rw [solve_split he] at h
    rw [solvesAll_cons, solvedBy_iff_of_split he, ← solvesAll_append] at hθ
    exact ih h hθ
  | bind e es b he ih =>
    obtain ⟨τ, hτ, rfl⟩ := eq_cons_of_solve he h
    rw [solvesAll_cons, solvedBy_iff_of_bind he] at hθ
    exact .cons hθ.1 (ih hτ ((solvesAll_replaceAll_iff hθ.1).2 hθ.2))

/-- Equations that cannot be solved have no solution. -/
theorem not_solvesAll_of_solve {es : List Equation} {err : UnifyError} {θ : Var → Term}
    (h : solve es = .error err) : ¬ SolvesAll θ es := by
  intro hθ
  induction es using solve_induction generalizing err with
  | nil =>
    rw [solve_nil] at h
    cases h
  | error e es err' he => exact not_solvedBy_of_error he (solvesAll_cons.1 hθ).1
  | split e es parts he ih =>
    rw [solve_split he] at h
    rw [solvesAll_cons, solvedBy_iff_of_split he, ← solvesAll_append] at hθ
    exact ih h hθ
  | bind e es b he ih =>
    rw [solve_bind he, ← replaceAll] at h
    rw [solvesAll_cons, solvedBy_iff_of_bind he] at hθ
    cases hτ : solve (replaceAll b es) with
    | ok τ =>
      rw [hτ] at h
      cases h
    | error err' => exact ih hτ ((solvesAll_replaceAll_iff hθ.1).2 hθ.2)

end Equation

/-! ### Unifiers of terms and lists -/

namespace Term

variable {ss ts : List Term} {σ : Substitution}

/-- Two terms are unified as two lists of one member. -/
theorem unify_eq_unifyAll (s t : Term) : s.unify t = unifyAll [s] [t] := rfl

/-- A unifier found for two lists makes them equal. -/
theorem map_apply_of_unifyAll (h : unifyAll ss ts = .ok σ) :
    ss.map σ.apply = ts.map σ.apply := by
  unfold unifyAll at h
  split at h
  · next hlen =>
    have hall := (Equation.solvesAll_zip hlen).1 (Equation.solvesAll_of_solve h)
    have hfun : subst (fun v => σ.apply (.var v)) = σ.apply :=
      funext fun t => (σ.apply_eq_subst t).symm
    rwa [hfun] at hall
  · cases h

/-- Whatever makes two lists equal factors through the unifier found for them. -/
theorem factors_of_unifyAll {θ : Var → Term} (h : unifyAll ss ts = .ok σ)
    (hθ : ss.map (subst θ) = ts.map (subst θ)) : σ.Factors θ := by
  unfold unifyAll at h
  split at h
  · next hlen => exact Equation.factors_of_solve h ((Equation.solvesAll_zip hlen).2 hθ)
  · cases h

/-- A unifier is found for two lists exactly if something makes them equal. -/
theorem unifyAll_eq_ok_iff :
    (∃ σ, unifyAll ss ts = .ok σ) ↔ ∃ θ : Var → Term, ss.map (subst θ) = ts.map (subst θ) := by
  constructor
  · rintro ⟨σ, h⟩
    refine ⟨fun v => σ.apply (.var v), ?_⟩
    have hfun : subst (fun v => σ.apply (.var v)) = σ.apply :=
      funext fun t => (σ.apply_eq_subst t).symm
    rw [hfun]
    exact map_apply_of_unifyAll h
  · rintro ⟨θ, hθ⟩
    have hlen : ss.length = ts.length := by simpa using congrArg List.length hθ
    cases h : Equation.solve (Equation.zip ss ts) with
    | ok σ => exact ⟨σ, by rw [unifyAll, if_pos hlen, h]⟩
    | error err =>
      exact absurd ((Equation.solvesAll_zip hlen).2 hθ) (Equation.not_solvesAll_of_solve h)

/-- The order of two lists has no bearing on whether they have a unifier. -/
theorem exists_unifyAll_comm (h : unifyAll ss ts = .ok σ) : ∃ τ, unifyAll ts ss = .ok τ := by
  obtain ⟨θ, hθ⟩ := unifyAll_eq_ok_iff.1 ⟨σ, h⟩
  exact unifyAll_eq_ok_iff.2 ⟨θ, hθ.symm⟩

/-- Two members of one length each are made equal as the lists of them are. -/
theorem map_singleton_eq_iff {α β : Type} {f : α → β} {a b : α} :
    [a].map f = [b].map f ↔ f a = f b := by
  rw [List.map_singleton, List.map_singleton, List.singleton_inj]

/-- **Unification gives a most general unifier.**  One is found exactly if the two terms, or the
two lists, can be made equal at all; applied in order its bindings make them equal; and every
replacement that makes them equal factors through it. -/
theorem unify_mostGeneral :
    (∀ s t : Term,
      ((∃ σ, s.unify t = .ok σ) ↔ ∃ θ : Var → Term, s.subst θ = t.subst θ) ∧
      ∀ σ, s.unify t = .ok σ → σ.apply s = σ.apply t ∧
        ∀ θ : Var → Term, s.subst θ = t.subst θ →
          ∀ u : Term, (σ.apply u).subst θ = u.subst θ) ∧
    ∀ ss ts : List Term,
      ((∃ σ, unifyAll ss ts = .ok σ) ↔
        ∃ θ : Var → Term, ss.map (subst θ) = ts.map (subst θ)) ∧
      (ss.length ≠ ts.length → ∀ σ, unifyAll ss ts ≠ .ok σ) ∧
      ∀ σ, unifyAll ss ts = .ok σ → ss.map σ.apply = ts.map σ.apply ∧
        ∀ θ : Var → Term, ss.map (subst θ) = ts.map (subst θ) →
          ∀ u : Term, (σ.apply u).subst θ = u.subst θ := by
  refine ⟨fun s t => ?_, fun ss ts => ⟨unifyAll_eq_ok_iff, ?_, ?_⟩⟩
  · simp only [unify_eq_unifyAll, unifyAll_eq_ok_iff, map_singleton_eq_iff, true_and]
    intro σ h
    refine ⟨map_singleton_eq_iff.1 (map_apply_of_unifyAll h), fun θ hθ => ?_⟩
    exact factors_of_unifyAll h (map_singleton_eq_iff.2 hθ)
  · intro hlen σ h
    have hmap := congrArg List.length (map_apply_of_unifyAll h)
    rw [List.length_map, List.length_map] at hmap
    exact hlen hmap
  · intro σ h
    exact ⟨map_apply_of_unifyAll h, fun θ hθ => factors_of_unifyAll h hθ⟩

/-- A variable that is bound to another passes its second equation on to that one. -/
theorem unify_mostGeneral_chain :
    let x : Term := .var ⟨"X", 1⟩
    let z : Term := .var ⟨"Z", 2⟩
    let t : Term := .app "f" [.var ⟨"Y", 2⟩]
    let σ : Substitution := [⟨⟨"X", 1⟩, t⟩]
    let τ : Substitution := [⟨⟨"X", 1⟩, z⟩, ⟨⟨"Z", 2⟩, t⟩]
    let θ : Var → Term := fun v => if v.name = "Y" then .const "a" else .app "f" [.const "a"]
    (x.unify t = .ok σ ∧ σ.apply x = σ.apply t ∧ (σ.apply x).subst θ = x.subst θ) ∧
      (unifyAll [x, x] [z, t] = .ok τ ∧ [x, x].map τ.apply = [z, t].map τ.apply ∧
        (τ.apply x).subst θ = x.subst θ) ∧
      ∀ υ, unifyAll [x] [z, t] ≠ .ok υ := by
  intro x z t σ τ θ
  have hσ : x.unify t = .ok σ := eq_ok_of_toOption (by decide +kernel)
  have hτ : unifyAll [x, x] [z, t] = .ok τ := eq_ok_of_toOption (by decide +kernel)
  obtain ⟨hone, hgeneral⟩ := (unify_mostGeneral.1 x t).2 σ hσ
  obtain ⟨hall, hgenerals⟩ := (unify_mostGeneral.2 [x, x] [z, t]).2.2 τ hτ
  refine ⟨⟨hσ, hone, hgeneral θ (by decide) x⟩, ⟨hτ, hall, hgenerals θ (by decide) x⟩, ?_⟩
  exact (unify_mostGeneral.2 [x] [z, t]).2.1 (by decide)

end Term

end Refutation
