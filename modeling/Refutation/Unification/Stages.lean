import Refutation.Term.Stages
import Refutation.Unification

/-!
# Unification in stages

Solving the parts of an equation first, and only then the equations beside it, comes to the same
as solving them all from the front.  What differs is the work: the bindings that the parts make
are replaced in the other equations only once all of the parts are solved.  If they have no
solution, the other equations are never touched, however large their terms would become.

Unification is carried out in this way here, divided into stages.  A stage ends with every move
and with every binding that is replaced.

## Main definitions

* `Equation.applyAll` — apply bindings to the terms of all equations.
* `Equation.solveThen` — solve equations in stages, parts first.
* `Term.unifyThen`, `Term.unifyAllThen`, `Literal.unifyThen` — unification in stages.

## Main results

* `Equation.solve_append` — some equations may be solved first, and their bindings applied to the
  others after that.
* `Equation.value_solveThen` — carried out to the end, the stages give the bindings of
  `Equation.solve`.
-/

namespace Refutation

variable {γ : Type}

namespace Equation

/-! ### Moves -/

/-- Replace a bound variable in all equations. -/
def replaceAll (b : Binding) (es : List Equation) : List Equation := es.map (·.replace b)

theorem replaceAll_append (b : Binding) (es fs : List Equation) :
    replaceAll b (es ++ fs) = replaceAll b es ++ replaceAll b fs := List.map_append

/-- Splitting leaves no more variables than there were. -/
theorem length_vars_split_le {e : Equation} {parts : List Equation}
    (h : e.move = .ok (.split parts)) (rest : List Equation) :
    (vars (parts ++ rest)).length ≤ (vars (e :: rest)).length := by
  refine (nodup_vars _).length_le_of_subset fun w hw => ?_
  rw [mem_vars_append] at hw
  exact mem_vars_cons.2 (hw.imp (occurs_of_move_split h) id)

/-- A binding leaves fewer variables than there were. -/
theorem length_vars_replaceAll_lt {e : Equation} {b : Binding}
    (h : e.move = .ok (.bind b)) (rest : List Equation) :
    (vars (replaceAll b rest)).length < (vars (e :: rest)).length :=
  length_vars_replace_lt (nextBinding_bind h rest)

/-- There are no more variables in some of the equations than in all of them. -/
theorem length_vars_le_append (es fs : List Equation) :
    (vars es).length ≤ (vars (es ++ fs)).length :=
  (nodup_vars _).length_le_of_subset fun _ hw => mem_vars_append.2 (Or.inl hw)

theorem length_vars_le_cons (e : Equation) (es : List Equation) :
    (vars es).length ≤ (vars (e :: es)).length :=
  (nodup_vars _).length_le_of_subset fun _ hw => mem_vars_cons.2 (Or.inr hw)

/-- A step of solving leaves fewer variables, or no more of them in smaller equations. -/
theorem lex_of_reduces {es fs : List Equation} (h : Reduces es fs) :
    Prod.Lex (· < ·) (· < ·) ((vars fs).length, totalSize fs) ((vars es).length, totalSize es) := by
  cases h with
  | @split e parts rest he =>
    have hvars := length_vars_split_le he rest
    have hsize := totalSize_lt_of_move he
    rw [Prod.lex_def]
    simp only [totalSize_append, totalSize_cons]
    omega
  | bind he => exact Prod.Lex.left _ _ (length_vars_replaceAll_lt he _)

/-- Induction along solving: a claim holds of all lists of equations if it carries over from what
a move leaves to the list the move was made in. -/
@[elab_as_elim]
theorem solve_induction {motive : List Equation → Prop} (nil : motive [])
    (error : ∀ e rest err, e.move = .error err → motive (e :: rest))
    (split : ∀ e rest parts, e.move = .ok (.split parts) →
      motive (parts ++ rest) → motive (e :: rest))
    (bind : ∀ e rest b, e.move = .ok (.bind b) →
      motive (replaceAll b rest) → motive (e :: rest))
    (es : List Equation) : motive es :=
  match es with
  | [] => nil
  | e :: rest =>
    match h : e.move with
    | .error err => error e rest err h
    | .ok (.split parts) =>
      split e rest parts h (solve_induction nil error split bind (parts ++ rest))
    | .ok (.bind b) =>
      bind e rest b h (solve_induction nil error split bind (replaceAll b rest))
termination_by ((vars es).length, totalSize es)
decreasing_by
  · exact lex_of_reduces (.split h)
  · exact lex_of_reduces (.bind h)

/-! ### Parts first -/

/-- Apply bindings one after another to the terms of all equations. -/
def applyAll (σ : Substitution) (es : List Equation) : List Equation :=
  σ.foldl (fun es b => replaceAll b es) es

@[simp] theorem applyAll_nil (es : List Equation) : applyAll [] es = es := rfl

@[simp] theorem applyAll_cons (b : Binding) (σ : Substitution) (es : List Equation) :
    applyAll (b :: σ) es = applyAll σ (replaceAll b es) := rfl

/-- What solves some of the equations is applied to the others before these are solved. -/
theorem solve_append (es rest : List Equation) :
    solve (es ++ rest) =
      match solve es with
      | .error err => .error err
      | .ok σ => (solve (applyAll σ rest)).map (σ ++ ·) := by
  induction es using solve_induction generalizing rest with
  | nil =>
    rw [List.nil_append, solve_nil]
    dsimp only
    cases h : solve (applyAll [] rest) <;> exact h
  | error e es err h => rw [List.cons_append, solve_error h, solve_error h]
  | split e es parts h ih =>
    rw [List.cons_append, solve_split h, solve_split h, ← List.append_assoc, ih]
  | bind e es b h ih =>
    have hrest := ih (replaceAll b rest)
    rw [← replaceAll_append] at hrest
    rw [List.cons_append, solve_bind h, solve_bind h, ← replaceAll, hrest, ← replaceAll]
    cases solve (replaceAll b es) with
    | error err => rfl
    | ok σ =>
      dsimp only [Except.map, applyAll_cons]
      cases solve (applyAll σ (replaceAll b rest)) <;> rfl

/-- Bindings that solve some of the equations leave fewer variables in the others than there were,
unless nothing had to be bound. -/
theorem length_vars_applyAll_lt {es : List Equation} {σ : Substitution} (h : solve es = .ok σ)
    (rest : List Equation) :
    σ = [] ∨ (vars (applyAll σ rest)).length < (vars (es ++ rest)).length := by
  induction es using solve_induction generalizing σ rest with
  | nil =>
    rw [solve_nil] at h
    cases h
    exact Or.inl rfl
  | error e es err he => cases (solve_error he es).symm.trans h
  | split e es parts he ih =>
    rw [solve_split he] at h
    have hvars := length_vars_split_le he (es ++ rest)
    rw [← List.append_assoc] at hvars
    exact (ih h rest).imp id fun hlt => Nat.lt_of_lt_of_le hlt hvars
  | bind e es b he ih =>
    rw [solve_bind he, ← replaceAll] at h
    cases hτ : solve (replaceAll b es) with
    | error err => rw [hτ] at h; cases h
    | ok τ =>
      rw [hτ] at h
      cases h
      refine Or.inr ?_
      have hvars := length_vars_replaceAll_lt he (es ++ rest)
      rw [replaceAll_append] at hvars
      rw [applyAll_cons]
      rcases ih hτ (replaceAll b rest) with rfl | hlt
      · refine Nat.lt_of_le_of_lt ?_ hvars
        exact (nodup_vars _).length_le_of_subset fun _ hw => mem_vars_append.2 (Or.inr hw)
      · exact Nat.lt_trans hlt hvars

/-- Bindings that solve an equation leave fewer variables in the others, or the others as they
are. -/
theorem lex_applyAll_of_solve {e : Equation} {σ : Substitution} (h : solve [e] = .ok σ)
    (rest : List Equation) :
    Prod.Lex (· < ·) (· < ·) ((vars (applyAll σ rest)).length, totalSize (applyAll σ rest))
      ((vars (e :: rest)).length, totalSize (e :: rest)) := by
  rcases length_vars_applyAll_lt h rest with rfl | hlt
  · have hvars := length_vars_le_cons e rest
    have hsize := e.left.size_pos
    rw [Prod.lex_def]
    simp only [applyAll_nil, totalSize_cons]
    omega
  · exact Prod.Lex.left _ _ hlt

/-- Once its parts are solved, an equation is dealt with: there are fewer variables after that, or
as many in smaller equations. -/
theorem lex_applyAll {e : Equation} {parts : List Equation} {σ : Substitution}
    (he : e.move = .ok (.split parts)) (hσ : solve parts = .ok σ) (rest : List Equation) :
    Prod.Lex (· < ·) (· < ·) ((vars (applyAll σ rest)).length, totalSize (applyAll σ rest))
      ((vars (e :: rest)).length, totalSize (e :: rest)) := by
  have hsolve : solve [e] = .ok σ := by rw [solve_split he, List.append_nil, hσ]
  exact lex_applyAll_of_solve hsolve rest

/-- The parts of an equation have no more variables than all equations, and are smaller. -/
theorem lex_parts {e : Equation} {parts : List Equation} (he : e.move = .ok (.split parts))
    (rest : List Equation) :
    Prod.Lex (· < ·) (· < ·) ((vars parts).length, totalSize parts)
      ((vars (e :: rest)).length, totalSize (e :: rest)) := by
  have hvars := Nat.le_trans (length_vars_le_append parts rest) (length_vars_split_le he rest)
  have hsize := totalSize_lt_of_move he
  rw [Prod.lex_def]
  simp only [totalSize_cons]
  omega

end Equation

/-! ### Stages -/

/-- The work of binding `v` to `t`, unless `v` occurs in `t`. -/
def Move.stagedBindVar (v : Var) (t : Term) : Staged (Except UnifyError Move) :=
  t.occursThen v fun found =>
    .done (if found then .error (.occursCheck v t) else .ok (.bind ⟨v, t⟩))

theorem Move.value_stagedBindVar (v : Var) (t : Term) :
    (stagedBindVar v t).value = bindVar v t :=
  Term.value_occursThen v t _

namespace Equation

/-- The work of finding the move for an equation. -/
def stagedMove : Equation → Staged (Except UnifyError Move)
  | ⟨.var v, t⟩ => if t = .var v then .done (.ok (.split [])) else Move.stagedBindVar v t
  | ⟨.const a, .var v⟩ => Move.stagedBindVar v (.const a)
  | ⟨.app f ss, .var v⟩ => Move.stagedBindVar v (.app f ss)
  | e => .done e.move

theorem value_stagedMove : (e : Equation) → e.stagedMove.value = e.move
  | ⟨.var v, t⟩ => by
    unfold stagedMove move
    dsimp only
    split
    · rfl
    · exact Move.value_stagedBindVar v t
  | ⟨.const a, .var v⟩ => Move.value_stagedBindVar v (.const a)
  | ⟨.app f ss, .var v⟩ => Move.value_stagedBindVar v (.app f ss)
  | ⟨.const _, .const _⟩ => rfl
  | ⟨.const _, .app _ _⟩ => rfl
  | ⟨.app _ _, .const _⟩ => rfl
  | ⟨.app _ _, .app _ _⟩ => rfl

/-- Replace a bound variable in all equations, and go on with the results. -/
def replaceAllThen (b : Binding) (es : List Equation) (next : List Equation → Staged γ) :
    Staged γ :=
  Term.replaceListThen b.var b.term (es.map left) fun ss =>
    Term.replaceListThen b.var b.term (es.map right) fun ts => next (zip ss ts)

theorem value_replaceAllThen (b : Binding) (es : List Equation)
    (next : List Equation → Staged γ) :
    (replaceAllThen b es next).value = (next (replaceAll b es)).value := by
  rw [replaceAllThen, Term.value_replaceListThen, Term.value_replaceListThen, zip, replaceAll,
    List.map_map, List.map_map, List.zipWith_map, List.zipWith_self]
  rfl

/-- Apply bindings one after another to the terms of all equations, and go on with the results. -/
def applyAllThen : Substitution → List Equation → (List Equation → Staged γ) → Staged γ
  | [], es, next => next es
  | b :: σ, es, next => .pause fun _ => replaceAllThen b es fun es => applyAllThen σ es next

theorem value_applyAllThen (σ : Substitution) (es : List Equation)
    (next : List Equation → Staged γ) :
    (applyAllThen σ es next).value = (next (applyAll σ es)).value := by
  induction σ generalizing es with
  | nil => rfl
  | cons b σ ih => rw [applyAllThen, Staged.value_pause, value_replaceAllThen, ih, applyAll_cons]

/-- Solve equations, a move at a time and the parts of an equation before the others, and go on
with the result. -/
def solveThen (es : List Equation)
    (next : (result : Except UnifyError Substitution) → result = solve es → Staged γ) :
    Staged γ :=
  match es with
  | [] => next (.ok []) solve_nil.symm
  | e :: rest =>
    e.stagedMove.andThen fun move hmove =>
      have he : e.move = move := by rw [hmove, value_stagedMove]
      match move, he with
      | .error err, he => next (.error err) (solve_error he rest).symm
      | .ok (.bind b), he =>
        (replaceAllThen b rest .done).andThen fun others hothers => .pause fun _ =>
          solveThen others fun result hresult =>
            next (result.map (b :: ·)) (by
              rw [hresult, hothers, value_replaceAllThen, Staged.value_done, solve_bind he,
                replaceAll])
      | .ok (.split parts), he =>
        .pause fun _ => solveThen parts fun
          | .error err, herr => next (.error err) (by rw [solve_split he, solve_append, ← herr])
          | .ok σ, hσ => (applyAllThen σ rest .done).andThen fun others hothers =>
            solveThen others fun result hresult =>
              next (result.map (σ ++ ·)) (by
                rw [hresult, hothers, value_applyAllThen, Staged.value_done, solve_split he,
                  solve_append, ← hσ])
termination_by ((vars es).length, totalSize es)
decreasing_by
  · rw [hothers, value_replaceAllThen]
    exact Prod.Lex.left _ _ (length_vars_replaceAll_lt he rest)
  · rw [hothers, value_applyAllThen]
    exact lex_applyAll he hσ.symm rest
  · exact lex_parts he rest

/-- The stages give what solving from the front gives. -/
theorem value_solveThen (es : List Equation)
    (next : (result : Except UnifyError Substitution) → result = solve es → Staged γ) :
    (solveThen es next).value = (next (solve es) rfl).value := by
  fun_induction solveThen es next with
  | case1 next => simp only [solve_nil]
  | case2 e rest next ihBind ihRest _ ihParts =>
    rw [Staged.value_andThen]
    dsimp only
    split
    · next err he _ _ _ _ => simp only [solve_error he]
    · next b he _ _ _ _ =>
      rw [Staged.value_andThen, Staged.value_pause, ihBind b he _ rfl]
      simp only [solve_bind he, value_replaceAllThen, Staged.value_done, replaceAll]
    · next parts he _ _ _ _ =>
      rw [Staged.value_pause, ihParts parts he]
      dsimp only
      split
      · next err _ hσ _ => simp only [solve_split he, solve_append, hσ]
      · next σ _ hσ _ =>
        rw [Staged.value_andThen, ihRest parts he σ hσ.symm _ rfl]
        simp only [solve_split he, solve_append, hσ, value_applyAllThen, Staged.value_done]

end Equation

/-! ### Unifiers of terms and literals -/

/-- Unify two terms, and go on with the result. -/
def Term.unifyThen (s t : Term) (next : Except UnifyError Substitution → Staged γ) : Staged γ :=
  Equation.solveThen [⟨s, t⟩] fun result _ => next result

theorem Term.value_unifyThen (s t : Term) (next : Except UnifyError Substitution → Staged γ) :
    (unifyThen s t next).value = (next (unify s t)).value :=
  Equation.value_solveThen [⟨s, t⟩] _

/-- Unify two lists of terms, and go on with the result. -/
def Term.unifyAllThen (ss ts : List Term) (next : Except UnifyError Substitution → Staged γ) :
    Staged γ :=
  if ss.length = ts.length then Equation.solveThen (Equation.zip ss ts) fun result _ => next result
  else next (.error (.arityMismatch ss.length ts.length))

theorem Term.value_unifyAllThen (ss ts : List Term)
    (next : Except UnifyError Substitution → Staged γ) :
    (unifyAllThen ss ts next).value = (next (unifyAll ss ts)).value := by
  unfold unifyAllThen unifyAll
  split
  · exact Equation.value_solveThen _ _
  · rfl

/-- Unify the arguments of two literals, and go on with the result. -/
def Literal.unifyThen (l m : Literal) (next : Except UnifyError Substitution → Staged γ) :
    Staged γ :=
  if l.samePredicate m then Term.unifyAllThen l.args m.args next
  else next (.error (.symbolClash l.predicate m.predicate))

theorem Literal.value_unifyThen (l m : Literal)
    (next : Except UnifyError Substitution → Staged γ) :
    (unifyThen l m next).value = (next (unify l m)).value := by
  unfold unifyThen unify
  split
  · exact Term.value_unifyAllThen _ _ next
  · rfl

end Refutation
