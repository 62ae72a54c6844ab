import Mathlib.Logic.Equiv.Basic
import Refutation.Proofs.Variants

/-!
# Unification the other way round

With the sides of an equation exchanged a variable that meets a variable is bound the other way
round, and from there on the one stands where the other would.  All else is as before: the same
equations are split, and where there was a failure there is one of the same kind.  So the two
results are mirror images, up to a renaming that is put together from these bindings.

## Main definitions

* `Equation.exchange`, `Move.exchange`, `UnifyError.exchange` — the sides exchanged.
* `Binding.turn` — the renaming by which a binding and its mirror image differ.
* `Mirrored` — two results of unification are mirror images under a renaming.

## Main results

* `Equation.move_exchange` — the move for an equation with its sides exchanged.
* `Equation.exists_mirrored` — solving equations, and solving them with their sides exchanged.
* `Term.unify_mirrored` — **to exchange the sides mirrors the result of unification**.
-/

namespace Refutation

variable {b : Binding} {r r' : Except UnifyError Substitution}

/-! ### Exchanging sides -/

/-- The failure that is met with the sides exchanged. -/
def UnifyError.exchange : UnifyError → UnifyError
  | .occursCheck v t => .occursCheck v t
  | .symbolClash a b => .symbolClash b a
  | .kindMismatch s t => .kindMismatch t s
  | .arityMismatch m n => .arityMismatch n m

/-- The equation read from right to left. -/
def Equation.exchange (e : Equation) : Equation := ⟨e.right, e.left⟩

/-- The binding made with the sides exchanged: of two variables the other one is bound. -/
def Binding.exchange : Binding → Binding
  | ⟨v, .var w⟩ => ⟨w, .var v⟩
  | b => b

/-- The move made with the sides exchanged. -/
def Move.exchange : Move → Move
  | .split parts => .split (parts.map Equation.exchange)
  | .bind b => .bind b.exchange

/-- The renaming that leads from a binding to its mirror image: of two variables, each gets the
other's name. -/
def Binding.turn : Binding → Equiv.Perm Var
  | ⟨v, .var w⟩ => Equiv.swap v w
  | _ => Equiv.refl Var

namespace Binding

/-- What is left by a binding and by its mirror image differs by the renaming. -/
theorem replace_exchange (b : Binding) (t : Term) :
    t.replace b.exchange.var b.exchange.term = (t.replace b.var b.term).rename b.turn := by
  obtain ⟨v, s⟩ := b
  cases s with
  | var w =>
    show t.replace w (.var v) = (t.replace v (.var w)).rename (Equiv.swap v w)
    rw [Term.replace, Term.replace, Term.rename, Term.subst_subst]
    refine Term.subst_congr ?_
    intro u _
    by_cases huv : u = v
    · simp [huv]
    · by_cases huw : u = w
      · simp [huw]
      · simp [huv, huw, Equiv.swap_apply_of_ne_of_ne huv huw]
  | const a => exact (Term.subst_self _).symm
  | app f ts => exact (Term.subst_self _).symm

/-- Only the variable that is bound and those of its term are renamed. -/
theorem turn_eq_self {v : Var} (hv : v ≠ b.var) (ht : v ∉ b.term.occurrences) : b.turn v = v := by
  obtain ⟨w, s⟩ := b
  cases s with
  | var u => exact Equiv.swap_apply_of_ne_of_ne hv (by simpa using ht)
  | const a => rfl
  | app f ts => rfl

end Binding

namespace Equation

theorem zip_exchange (ss ts : List Term) : (zip ss ts).map exchange = zip ts ss := by
  rw [zip, zip, List.map_zipWith, List.zipWith_comm]
  rfl

theorem replaceAll_exchange (b : Binding) (es : List Equation) :
    replaceAll b.exchange (es.map exchange) =
      ((replaceAll b es).map exchange).map (rename b.turn) := by
  rw [replaceAll, replaceAll, List.map_map, List.map_map, List.map_map]
  refine List.map_congr_left ?_
  intro e _
  exact congrArg₂ mk (b.replace_exchange e.right) (b.replace_exchange e.left)

/-- It makes no difference on which side a variable meets a term that is none. -/
theorem bindVar_exchange (v : Var) {t : Term} (ht : ∀ w, t ≠ .var w) :
    ((Move.bindVar v t).map Move.exchange).mapError UnifyError.exchange = Move.bindVar v t := by
  unfold Move.bindVar
  split
  · rfl
  · cases t with
    | var w => exact absurd rfl (ht w)
    | const a => rfl
    | app f ts => rfl

/-- The move for an equation with its sides exchanged is the move with the sides exchanged. -/
theorem move_exchange (e : Equation) :
    e.exchange.move = (e.move.map Move.exchange).mapError UnifyError.exchange := by
  have hconst : ∀ (a : String) (w : Var), Term.const a ≠ .var w := by simp
  have happ : ∀ (f : String) (ss : List Term) (w : Var), Term.app f ss ≠ .var w := by simp
  obtain ⟨s, t⟩ := e
  cases s with
  | var v =>
    cases t with
    | var w =>
      by_cases hvw : v = w
      · simp [exchange, move, hvw, Except.map, Except.mapError, Move.exchange]
      · simp [exchange, move, hvw, Ne.symm hvw, Move.bindVar, Except.map, Except.mapError,
          Move.exchange, Binding.exchange]
    | const a => exact (bindVar_exchange v (hconst a)).symm
    | app g ts => exact (bindVar_exchange v (happ g ts)).symm
  | const a =>
    cases t with
    | var w => exact (bindVar_exchange w (hconst a)).symm
    | const b =>
      by_cases hab : a = b
      · simp [exchange, move, hab, Except.map, Except.mapError, Move.exchange]
      · simp [exchange, move, hab, Ne.symm hab, Except.map, Except.mapError, UnifyError.exchange]
    | app g ts => rfl
  | app f ss =>
    cases t with
    | var w => exact (bindVar_exchange w (happ f ss)).symm
    | const b => rfl
    | app g ts =>
      rw [exchange, move, move]
      by_cases hfg : f = g
      · by_cases hlen : ss.length = ts.length
        · rw [if_pos hfg, if_pos hlen, if_pos hfg.symm, if_pos hlen.symm, ← zip_exchange]
          rfl
        · rw [if_pos hfg, if_neg hlen, if_pos hfg.symm, if_neg (Ne.symm hlen)]
          rfl
      · rw [if_neg hfg, if_neg (Ne.symm hfg)]
        rfl

end Equation

/-! ### Mirror images -/

/-- Two results of unification are mirror images under a renaming of variables. -/
inductive Mirrored (ρ : Equiv.Perm Var) :
    Except UnifyError Substitution → Except UnifyError Substitution → Prop where
  /-- Both succeed, and what becomes of a term is the same but for the renaming. -/
  | ok {σ τ : Substitution} :
    (∀ t, (σ.apply t).rename ρ = τ.apply t) → Mirrored ρ (.ok σ) (.ok τ)
  /-- Both fail, with the sides exchanged and the variables renamed in the second failure. -/
  | error (err : UnifyError) : Mirrored ρ (.error err) (.error (err.exchange.rename ρ))

/-- A renaming leaves all variables alone that are not in `vs`. -/
def FixesOutside (ρ : Equiv.Perm Var) (vs : List Var) : Prop := ∀ v, v ∉ vs → ρ v = v

namespace UnifyError

theorem rename_id (err : UnifyError) : err.rename id = err := by
  cases err with
  | occursCheck v t => exact congrArg (occursCheck v) t.subst_self
  | symbolClash a b => rfl
  | kindMismatch s t => exact congrArg₂ kindMismatch s.subst_self t.subst_self
  | arityMismatch m n => rfl

theorem rename_rename (f g : Var → Var) (err : UnifyError) :
    (err.rename f).rename g = err.rename (g ∘ f) := by
  cases err with
  | occursCheck v t => exact congrArg (occursCheck _) (t.rename_rename f g)
  | symbolClash a b => rfl
  | kindMismatch s t => exact congrArg₂ kindMismatch (s.rename_rename f g) (t.rename_rename f g)
  | arityMismatch m n => rfl

end UnifyError

namespace Mirrored

/-- Failures with the sides exchanged, and no renaming. -/
theorem error_refl (err : UnifyError) :
    Mirrored (Equiv.refl Var) (.error err) (.error err.exchange) := by
  have herr := error (ρ := Equiv.refl Var) err
  rwa [Equiv.coe_refl, UnifyError.rename_id] at herr

/-- A binding made before by the one, and its mirror image by the other. -/
theorem cons {ρ : Equiv.Perm Var} (h : Mirrored ρ r r') (b : Binding) :
    Mirrored (b.turn * ρ) (r.map (b :: ·))
      ((renameResult b.turn (List.map (Binding.rename b.turn)) r').map (b.exchange :: ·)) := by
  cases h with
  | error err =>
    have herr := err.exchange.rename_rename ρ b.turn
    show Mirrored _ (.error err) (.error ((err.exchange.rename ρ).rename b.turn))
    rw [herr]
    exact .error err
  | @ok σ τ h =>
    refine .ok fun t => ?_
    rw [Substitution.apply_cons, Substitution.apply_cons, b.replace_exchange,
      Substitution.apply_rename b.turn.injective, ← h, Term.rename_rename]
    rfl

end Mirrored

/-! ### Solving -/

namespace Equation

/-- Where one move leads, its mirror image leads with the sides exchanged. -/
theorem move_exchange_of {e : Equation} {m : Except UnifyError Move} (h : e.move = m) :
    e.exchange.move = (m.map Move.exchange).mapError UnifyError.exchange :=
  h ▸ e.move_exchange

/-- Solving equations with their sides exchanged gives the mirror image. -/
theorem exists_mirrored (es : List Equation) :
    ∃ ρ : Equiv.Perm Var, FixesOutside ρ (vars es) ∧
      Mirrored ρ (solve es) (solve (es.map exchange)) := by
  induction es using solve_induction with
  | nil =>
    rw [List.map_nil, solve_nil]
    exact ⟨Equiv.refl Var, fun v _ => rfl, .ok fun t => t.subst_self⟩
  | error e es err he =>
    rw [List.map_cons, solve_error he, solve_error (move_exchange_of he)]
    exact ⟨Equiv.refl Var, fun v _ => rfl, .error_refl err⟩
  | split e es parts he ih =>
    obtain ⟨ρ, hfixes, hρ⟩ := ih
    rw [List.map_append] at hρ
    rw [List.map_cons, solve_split he, solve_split (move_exchange_of he)]
    refine ⟨ρ, fun v hv => hfixes v fun hmem => hv ?_, hρ⟩
    rw [mem_vars_append] at hmem
    exact mem_vars_cons.2 (hmem.imp_left (occurs_of_move_split he))
  | bind e es b he ih =>
    obtain ⟨ρ, hfixes, hρ⟩ := ih
    have hvars := nextBinding_vars (nextBinding_bind he es)
    -- the run with the sides exchanged goes on with the renamed equations
    rw [List.map_cons, solve_bind he, solve_bind (move_exchange_of he), ← replaceAll, ← replaceAll,
      replaceAll_exchange, solve_rename b.turn.injective]
    refine ⟨b.turn * ρ, fun v hv => ?_, hρ.cons b⟩
    have hρv : ρ v = v := hfixes v fun hmem => hv (by
      rcases mem_vars_map_replace hmem with ⟨hmem, -⟩ | hmem
      · exact hvars.2.2.2 v hmem
      · exact hvars.2.2.1 v hmem)
    show b.turn (ρ v) = v
    rw [hρv]
    exact b.turn_eq_self (fun heq => hv (heq ▸ hvars.1)) fun hmem => hv (hvars.2.2.1 v hmem)

end Equation

namespace Term

/-- Unifying two lists with their sides exchanged gives the mirror image. -/
theorem exists_mirrored_unifyAll (ss ts : List Term) :
    ∃ ρ : Equiv.Perm Var, FixesOutside ρ ((ss ++ ts).flatMap occurrences) ∧
      Mirrored ρ (unifyAll ss ts) (unifyAll ts ss) := by
  unfold unifyAll
  by_cases hlen : ss.length = ts.length
  · obtain ⟨ρ, hfixes, hρ⟩ := Equation.exists_mirrored (Equation.zip ss ts)
    rw [Equation.zip_exchange] at hρ
    rw [if_pos hlen, if_pos hlen.symm]
    refine ⟨ρ, fun v hv => hfixes v fun hmem => hv ?_, hρ⟩
    simpa [or_and_right, exists_or] using Equation.mem_of_mem_vars_zip hmem
  · rw [if_neg hlen, if_neg (Ne.symm hlen)]
    exact ⟨Equiv.refl Var, fun v _ => rfl, .error_refl _⟩

/-- **To exchange the sides mirrors the result of unification.**  Either both orders succeed, and
one renaming leads from what becomes of any term by the one unifier to what becomes of it by the
other.  Or both fail for the same reason, with what was expected and what was found exchanged, and
the variables of the second failure renamed.  The renaming is a permutation of the variables of the
two sides. -/
theorem unify_mirrored :
    (∀ s t : Term, ∃ ρ : Equiv.Perm Var, FixesOutside ρ (s.occurrences ++ t.occurrences) ∧
      Mirrored ρ (s.unify t) (t.unify s)) ∧
    ∀ ss ts : List Term, ∃ ρ : Equiv.Perm Var,
      FixesOutside ρ ((ss ++ ts).flatMap occurrences) ∧
        Mirrored ρ (unifyAll ss ts) (unifyAll ts ss) := by
  refine ⟨fun s t => ?_, exists_mirrored_unifyAll⟩
  have h := exists_mirrored_unifyAll [s] [t]
  simpa [unify_eq_unifyAll] using h

end Term

end Refutation
