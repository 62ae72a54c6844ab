import Mathlib.SetTheory.Cardinal.Arithmetic
import Refutation.Proofs.Candidate

/-!
# Renamed clauses

Unification and resolution do with renamed variables what they do with the variables themselves, as
long as no two are given the same name: the bindings made, and the failures met, are those of before
under the new names.  The variables of a candidate are named by their order alone, so the candidate
of two renamed clauses is the candidate of the clauses, and so are the resolvents.

## Main definitions

* `Literal.rename`, `Clause.rename`, `Equation.rename`, `Binding.rename` — a change of variables.
* `renameResult` — a change of variables in what unification came to.
* `Clause.Variant` — two clauses differ in the names of their variables only.

## Main results

* `Equation.solve_rename`, `Term.unifyAll_rename` — unification commutes with renaming.
* `Clause.candidate_rename` — a candidate does not depend on names.
* `Clause.resolve_rename` — and neither do the resolvents of two clauses.
* `Clause.Variant.resolve_eq` — variants of two clauses with variables of their own give the same.
-/

namespace Refutation

variable {f : Var → Var}

/-! ### Terms -/

namespace Term

theorem rename_congr {g : Var → Var} {t : Term} (h : ∀ v ∈ t.occurrences, f v = g v) :
    t.rename f = t.rename g :=
  subst_congr fun v hv => congrArg var (h v hv)

theorem rename_rename (f g : Var → Var) (t : Term) :
    (t.rename f).rename g = t.rename (g ∘ f) :=
  subst_subst _ _ t

theorem rename_app (f : Var → Var) (name : String) (ts : List Term) :
    (app name ts).rename f = app name (ts.map (rename f)) :=
  subst_app _ name ts

/-- Different terms stay different, for the renaming can be taken back. -/
theorem rename_injective (hf : Function.Injective f) : Function.Injective (rename f) := by
  refine Function.LeftInverse.injective (g := rename (Function.invFun f)) ?_
  intro t
  rw [rename_rename, Function.invFun_comp hf]
  exact subst_self t

theorem occurs_rename (hf : Function.Injective f) (v : Var) (t : Term) :
    (t.rename f).occurs (f v) = t.occurs v := by
  rw [Bool.eq_iff_iff, occurs_eq_true_iff, occurs_eq_true_iff, occurrences_rename,
    List.mem_map_of_injective hf]

/-- A variable is replaced under its new name by the renamed term. -/
theorem rename_replace (hf : Function.Injective f) (t : Term) (v : Var) (r : Term) :
    (t.replace v r).rename f = (t.rename f).replace (f v) (r.rename f) := by
  rw [replace, replace, rename, rename.eq_1 f t, subst_subst, subst_subst]
  refine subst_congr ?_
  intro w _
  rw [subst_var]
  by_cases hw : w = v
  · rw [if_pos hw, if_pos (congrArg f hw)]
    rfl
  · rw [if_neg hw, if_neg fun h => hw (hf h)]
    rfl

end Term

/-! ### Unification -/

/-- Change the variables of a failure. -/
def UnifyError.rename (f : Var → Var) : UnifyError → UnifyError
  | .occursCheck v t => .occursCheck (f v) (t.rename f)
  | .symbolClash a b => .symbolClash a b
  | .kindMismatch s t => .kindMismatch (s.rename f) (t.rename f)
  | .arityMismatch m n => .arityMismatch m n

/-- Change the variables of a binding. -/
def Binding.rename (f : Var → Var) (b : Binding) : Binding := ⟨f b.var, b.term.rename f⟩

/-- Change the variables of an equation. -/
def Equation.rename (f : Var → Var) (e : Equation) : Equation := ⟨e.left.rename f, e.right.rename f⟩

/-- Change the variables of a move. -/
def Move.rename (f : Var → Var) : Move → Move
  | .split parts => .split (parts.map (Equation.rename f))
  | .bind b => .bind (b.rename f)

/-- Change the variables of a result by `g`, or those of a failure. -/
def renameResult {α : Type} (f : Var → Var) (g : α → α) : Except UnifyError α → Except UnifyError α
  | .error err => .error (err.rename f)
  | .ok a => .ok (g a)

theorem Move.bindVar_rename (hf : Function.Injective f) (v : Var) (t : Term) :
    bindVar (f v) (t.rename f) = renameResult f (Move.rename f) (bindVar v t) := by
  unfold bindVar
  rw [Term.occurs_rename hf]
  split
  · rfl
  · rfl

namespace Equation

theorem zip_rename (f : Var → Var) (ss ts : List Term) :
    zip (ss.map (Term.rename f)) (ts.map (Term.rename f)) = (zip ss ts).map (rename f) :=
  zip_map (Term.rename f) ss ts

theorem replaceAll_rename (hf : Function.Injective f) (b : Binding) (es : List Equation) :
    replaceAll (b.rename f) (es.map (rename f)) = (replaceAll b es).map (rename f) := by
  rw [replaceAll, replaceAll, List.map_map, List.map_map]
  refine List.map_congr_left ?_
  intro e _
  show (⟨_, _⟩ : Equation) = ⟨(e.left.replace b.var b.term).rename f, _⟩
  rw [Term.rename_replace hf]
  show _ = (⟨_, (e.right.replace b.var b.term).rename f⟩ : Equation)
  rw [Term.rename_replace hf]
  rfl

/-- The move for a renamed equation is the renamed move. -/
theorem move_rename (hf : Function.Injective f) (e : Equation) :
    (e.rename f).move = renameResult f (Move.rename f) e.move := by
  obtain ⟨s, t⟩ := e
  cases s with
  | var v =>
    show (if t.rename f = .var (f v) then _ else _) = _
    rw [move]
    have hvar : t.rename f = .var (f v) ↔ t = .var v :=
      (Term.rename_injective hf).eq_iff (b := .var v)
    by_cases h : t = .var v
    · rw [if_pos h, if_pos (hvar.2 h)]
      rfl
    · rw [if_neg h, if_neg fun h' => h (hvar.1 h')]
      exact Move.bindVar_rename hf v t
  | const a =>
    cases t with
    | var w => exact Move.bindVar_rename hf w (.const a)
    | const b =>
      show move ⟨.const a, .const b⟩ = _
      rw [move]
      split
      · rfl
      · rfl
    | app g ts =>
      rw [rename, Term.rename_app, move]
      show _ = Except.error (UnifyError.kindMismatch _ _)
      rw [Term.rename_app]
      rfl
  | app name ss =>
    rw [rename, Term.rename_app]
    cases t with
    | var w =>
      rw [← Term.rename_app]
      exact Move.bindVar_rename hf w (.app name ss)
    | const b =>
      show Except.error (UnifyError.kindMismatch _ _) = _
      rw [← Term.rename_app]
      rfl
    | app g ts =>
      rw [Term.rename_app, move, move, zip_rename, List.length_map, List.length_map]
      split
      · split
        · rfl
        · rfl
      · rfl

/-- **Unification commutes with renaming**: renamed equations are solved by the renamed bindings,
and fail where the equations do. -/
theorem solve_rename (hf : Function.Injective f) (es : List Equation) :
    solve (es.map (rename f)) = renameResult f (List.map (Binding.rename f)) (solve es) := by
  induction es using solve_induction with
  | nil =>
    rw [List.map_nil, solve_nil]
    rfl
  | error e es err he =>
    have hmove := move_rename hf e
    rw [he] at hmove
    rw [List.map_cons, solve_error he, solve_error hmove]
    rfl
  | split e es parts he ih =>
    have hmove := move_rename hf e
    rw [he] at hmove
    rw [List.map_cons, solve_split he, solve_split hmove, ← ih, List.map_append]
  | bind e es b he ih =>
    have hmove := move_rename hf e
    rw [he] at hmove
    rw [List.map_cons, solve_bind he, solve_bind hmove, ← replaceAll, ← replaceAll,
      replaceAll_rename hf, ih]
    cases solve (replaceAll b es) with
    | error err => rfl
    | ok σ => rfl

end Equation

theorem Term.unifyAll_rename (hf : Function.Injective f) (ss ts : List Term) :
    unifyAll (ss.map (rename f)) (ts.map (rename f)) =
      renameResult f (List.map (Binding.rename f)) (unifyAll ss ts) := by
  unfold unifyAll
  rw [List.length_map, List.length_map, Equation.zip_rename, Equation.solve_rename hf]
  split
  · rfl
  · rfl

theorem Substitution.apply_rename (hf : Function.Injective f) (σ : Substitution) (t : Term) :
    apply (σ.map (Binding.rename f)) (t.rename f) = (apply σ t).rename f := by
  induction σ generalizing t with
  | nil => rfl
  | cons b σ ih =>
    rw [List.map_cons, apply_cons, apply_cons, ← ih, Term.rename_replace hf]
    rfl

/-! ### Candidates -/

/-- Erasing repetitions does not depend on what the members are called. -/
theorem eraseDups_map {α β : Type} [DecidableEq α] [DecidableEq β] {g : α → β}
    (hg : Function.Injective g) (l : List α) : (l.map g).eraseDups = l.eraseDups.map g := by
  match l with
  | [] => rfl
  | a :: l =>
    have hfilter : (l.map g).filter (fun b => !b == g a) = (l.filter fun b => !b == a).map g := by
      rw [List.filter_map]
      refine congrArg (List.map g) (List.filter_congr ?_)
      intro b _
      rw [Function.comp_apply, hg.beq_eq]
    rw [List.map_cons, List.eraseDups_cons, List.eraseDups_cons, hfilter, eraseDups_map hg,
      List.map_cons]
termination_by l.length
decreasing_by exact Nat.lt_succ_of_le (List.length_filter_le _ _)

/-- The place of a member does not depend on what the members are called. -/
theorem idxOf_map {α β : Type} [DecidableEq α] [DecidableEq β] {g : α → β}
    (hg : Function.Injective g) (a : α) (l : List α) : (l.map g).idxOf (g a) = l.idxOf a := by
  induction l with
  | nil => rfl
  | cons b l ih =>
    rw [List.map_cons, List.idxOf_cons, List.idxOf_cons, ih, hg.beq_eq]

/-- The new name of a variable does not depend on the old names. -/
theorem Var.canonical_map (hf : Function.Injective f) (id : Nat) (vs : List Var) (v : Var) :
    Var.canonical id (vs.map f) (f v) = Var.canonical id vs v := by
  rw [Var.canonical, Var.canonical, idxOf_map hf]

namespace Literal

/-- Change the variables of a literal. -/
def rename (f : Var → Var) (l : Literal) : Literal := l.mapArgs (Term.rename f)

theorem occurrences_rename (f : Var → Var) (l : Literal) :
    (l.rename f).occurrences = l.occurrences.map f := by
  rw [occurrences, occurrences, rename, mapArgs_args, List.flatMap_map, List.map_flatMap]
  simp only [Term.occurrences_rename]

theorem rename_congr {g : Var → Var} {l : Literal} (h : ∀ v ∈ l.occurrences, f v = g v) :
    l.rename f = l.rename g := by
  rw [rename, rename, mapArgs, mapArgs, Literal.mk.injEq]
  refine ⟨rfl, rfl, List.map_congr_left ?_⟩
  intro t ht
  exact Term.rename_congr fun v hv => h v (List.mem_flatMap.2 ⟨t, ht, hv⟩)

theorem rename_self (l : Literal) : l.rename (fun v => v) = l := by
  rw [rename, mapArgs, List.map_congr_left fun t _ => t.subst_self, List.map_id'' fun _ => rfl]

theorem rename_rename (f g : Var → Var) (l : Literal) :
    (l.rename f).rename g = l.rename (g ∘ f) := by
  rw [rename, rename, mapArgs_mapArgs]
  exact congrArg (l.mapArgs ·) (funext (Term.rename_rename f g))

/-- The canonical names do not depend on the old names. -/
theorem canonicalAll_rename (hf : Function.Injective f) (id : Nat) (ls : List Literal) :
    canonicalAll id (ls.map (rename f)) = canonicalAll id ls := by
  have hvars : (ls.map (rename f)).flatMap occurrences = (ls.flatMap occurrences).map f := by
    rw [List.flatMap_map, List.map_flatMap]
    simp only [occurrences_rename]
  rw [canonicalAll, canonicalAll, hvars, eraseDups_map hf, List.map_map]
  refine List.map_congr_left ?_
  intro l _
  rw [Function.comp_apply, rename, mapArgs_mapArgs]
  refine congrArg (l.mapArgs ·) (funext fun t => ?_)
  rw [Function.comp_apply, Term.rename_rename]
  exact Term.rename_congr fun v _ => Var.canonical_map hf id _ v

end Literal

namespace Clause

/-- Change the variables of a clause. -/
def rename (f : Var → Var) (c : Clause) : Clause := ⟨c.id, c.literals.map (Literal.rename f)⟩

/-- A candidate does not depend on the names of the variables. -/
theorem candidate_rename (hf : Function.Injective f) (id : Nat) (σ : Substitution) (c d : Clause) :
    candidate id (σ.map (Binding.rename f)) (c.rename f) (d.rename f) = candidate id σ c d := by
  have hlits : ((c.rename f).literals ++ (d.rename f).literals).map
      (·.mapArgs (Substitution.apply (σ.map (Binding.rename f)))) =
        ((c.literals ++ d.literals).map (·.mapArgs σ.apply)).map (Literal.rename f) := by
    rw [rename, rename, ← List.map_append, List.map_map, List.map_map]
    refine List.map_congr_left ?_
    intro l _
    rw [Function.comp_apply, Function.comp_apply, Literal.rename, Literal.rename,
      Literal.mapArgs_mapArgs, Literal.mapArgs_mapArgs]
    exact congrArg (l.mapArgs ·) (funext (Substitution.apply_rename hf σ))
  rw [candidate, candidate, hlits, Literal.canonicalAll_rename hf]

/-! ### Resolvents -/

theorem clashingPairs_rename (f : Var → Var) (c d : Clause) :
    clashingPairs (c.rename f) (d.rename f) =
      (clashingPairs c d).map (Prod.map (Literal.rename f) (Literal.rename f)) := by
  rw [clashingPairs, clashingPairs, rename, rename, List.flatMap_map, List.map_flatMap]
  refine congrArg (List.flatMap · c.literals) (funext fun l => ?_)
  rw [List.filter_map, List.map_map, List.map_map]
  rfl

end Clause

/-- Change the variables of the unifications tried.  What is kept does not depend on them. -/
def PairOutcome.rename (f : Var → Var) (o : PairOutcome) : PairOutcome :=
  { o with attempts := o.attempts.map (renameResult f (List.map (Binding.rename f))) }

namespace Clause

theorem resolveOn_rename (hf : Function.Injective f) (limit : Limit) (c d : Clause) (lastId : Nat)
    (pairs : List (Literal × Literal)) :
    resolveOn limit (c.rename f) (d.rename f) lastId
        (pairs.map (Prod.map (Literal.rename f) (Literal.rename f))) =
      (resolveOn limit c d lastId pairs).rename f := by
  induction pairs generalizing lastId with
  | nil => rfl
  | cons p pairs ih =>
    obtain ⟨l, m⟩ := p
    have hunify : Term.unifyAll (l.rename f).args (m.rename f).args =
        renameResult f (List.map (Binding.rename f)) (Term.unifyAll l.args m.args) :=
      Term.unifyAll_rename hf l.args m.args
    rw [List.map_cons, Prod.map_apply, resolveOn, resolveOn, hunify]
    cases Term.unifyAll l.args m.args with
    | error err =>
      show ((resolveOn _ _ _ _ _).attempt _) = _
      rw [ih]
      rfl
    | ok σ =>
      dsimp only [renameResult]
      rw [candidate_rename hf, ih]
      cases (candidate (lastId + 1) σ c d).cancel? with
      | none => rfl
      | some r =>
        dsimp only
        split
        · rfl
        · split
          · rfl
          · rfl

/-- What two clauses give does not depend on the names of their variables. -/
theorem resolve_rename (hf : Function.Injective f) (limit : Limit) (lastId : Nat) (c d : Clause) :
    resolve limit lastId (c.rename f) (d.rename f) = (resolve limit lastId c d).rename f := by
  rw [resolve, resolve, clashingPairs_rename, resolveOn_rename hf]

/-! ### Variants -/

/-- Two clauses of one number differ in the names of their variables only. -/
def Variant (c d : Clause) : Prop :=
  ∃ f : Var → Var, Set.InjOn f { v | v ∈ c.occurrences } ∧ d = c.rename f

theorem occurrences_rename (f : Var → Var) (c : Clause) :
    (c.rename f).occurrences = c.occurrences.map f := by
  rw [occurrences, occurrences, rename, List.flatMap_map, List.map_flatMap]
  simp only [Literal.occurrences_rename]

theorem rename_congr {g : Var → Var} {c : Clause} (h : ∀ v ∈ c.occurrences, f v = g v) :
    c.rename f = c.rename g := by
  rw [rename, rename, Clause.mk.injEq]
  refine ⟨rfl, List.map_congr_left ?_⟩
  intro l hl
  exact Literal.rename_congr fun v hv => h v (List.mem_flatMap.2 ⟨l, hl, hv⟩)

end Clause

/-- A renaming of some variables that keeps them apart can be had from one that keeps all variables
apart. -/
theorem Var.exists_injective_of_injOn {vs : List Var} (h : Set.InjOn f { v | v ∈ vs }) :
    ∃ g : Var → Var, Function.Injective g ∧ ∀ v ∈ vs, g v = f v := by
  have : Infinite Var :=
    Infinite.of_injective (fun n : Nat => (⟨"", n⟩ : Var)) fun m n heq => congrArg Var.clause heq
  have : Finite { v | v ∈ vs } := List.finite_toSet vs
  have hlt := (Cardinal.lt_aleph0_of_finite { v | v ∈ vs }).trans_le (Cardinal.aleph0_le_mk Var)
  obtain ⟨g, hg⟩ := Cardinal.extend_function_of_lt ⟨_, h.injective⟩ hlt ⟨Equiv.refl Var⟩
  exact ⟨g, g.injective, fun v hv => hg ⟨v, hv⟩⟩

/-- Two renamings that keep some variables apart differ by a renaming that keeps all variables
apart. -/
theorem Var.exists_injective_comp {f g : Var → Var} {vs : List Var}
    (hf : Set.InjOn f { v | v ∈ vs }) (hg : Set.InjOn g { v | v ∈ vs }) :
    ∃ φ : Var → Var, Function.Injective φ ∧ ∀ v ∈ vs, φ (f v) = g v := by
  have hinv := hf.leftInvOn_invFunOn
  have hinj : Set.InjOn (fun w => g (Function.invFunOn f { v | v ∈ vs } w))
      { w | w ∈ vs.map f } := by
    intro v' hv' w' hw' heq
    obtain ⟨v, hv, rfl⟩ := List.mem_map.1 hv'
    obtain ⟨w, hw, rfl⟩ := List.mem_map.1 hw'
    dsimp only at heq
    rw [hinv hv, hinv hw] at heq
    rw [hg hv hw heq]
  obtain ⟨φ, hφ, heq⟩ := exists_injective_of_injOn hinj
  refine ⟨φ, hφ, fun v hv => ?_⟩
  rw [heq _ (List.mem_map_of_mem hv), hinv hv]

namespace Clause.Variant

variable {c c' d d' : Clause}

theorem refl (c : Clause) : c.Variant c := by
  refine ⟨fun v => v, fun _ _ _ _ heq => heq, ?_⟩
  rw [rename, List.map_congr_left fun l _ => l.rename_self, List.map_id'' fun _ => rfl]

theorem id_eq (h : c.Variant c') : c'.id = c.id := by
  obtain ⟨f, -, rfl⟩ := h
  rfl

/-- Two clauses with variables of their own are renamed to variants of them by one renaming, which
keeps all variables apart. -/
theorem exists_common_rename (hc : c.OwnsVars) (hd : d.OwnsVars) (hc' : c'.OwnsVars)
    (hd' : d'.OwnsVars) (hid : c.id ≠ d.id) (h : c.Variant c') (k : d.Variant d') :
    ∃ g : Var → Var, Function.Injective g ∧ c' = c.rename g ∧ d' = d.rename g := by
  obtain ⟨f, hf, rfl⟩ := h
  obtain ⟨g, hg, rfl⟩ := k
  -- the owner of a variable tells by which of the two it is renamed
  let both (v : Var) : Var := if v.clause = c.id then f v else g v
  have hleft : ∀ v ∈ c.occurrences, both v = f v := fun v hv => if_pos (hc v hv)
  have hright : ∀ v ∈ d.occurrences, both v = g v := by
    intro v hv
    refine if_neg ?_
    rw [hd v hv]
    exact hid.symm
  -- and the owner is the same after the renaming
  have hleft' : ∀ v ∈ c.occurrences, (f v).clause = c.id := by
    intro v hv
    refine hc' (f v) ?_
    rw [occurrences_rename]
    exact List.mem_map_of_mem hv
  have hright' : ∀ v ∈ d.occurrences, (g v).clause = d.id := by
    intro v hv
    refine hd' (g v) ?_
    rw [occurrences_rename]
    exact List.mem_map_of_mem hv
  have hboth : Set.InjOn both { v | v ∈ c.occurrences ++ d.occurrences } := by
    intro v hv w hw heq
    rcases List.mem_append.1 hv with hv | hv
    · rcases List.mem_append.1 hw with hw | hw
      · rw [hleft v hv, hleft w hw] at heq
        exact hf hv hw heq
      · rw [hleft v hv, hright w hw] at heq
        exact absurd ((hleft' v hv).symm.trans (heq ▸ hright' w hw)) hid
    · rcases List.mem_append.1 hw with hw | hw
      · rw [hright v hv, hleft w hw] at heq
        exact absurd ((hleft' w hw).symm.trans (heq ▸ hright' v hv)) hid
      · rw [hright v hv, hright w hw] at heq
        exact hg hv hw heq
  obtain ⟨e, he, heq⟩ := Var.exists_injective_of_injOn hboth
  refine ⟨e, he, rename_congr ?_, rename_congr ?_⟩
  · intro v hv
    rw [heq v (List.mem_append_left _ hv), hleft v hv]
  · intro v hv
    rw [heq v (List.mem_append_right _ hv), hright v hv]

/-- Variants of two clauses with variables of their own give what the clauses give. -/
theorem resolve_eq (hc : c.OwnsVars) (hd : d.OwnsVars) (hc' : c'.OwnsVars)
    (hd' : d'.OwnsVars) (hid : c.id ≠ d.id) (h : c.Variant c') (k : d.Variant d') (limit : Limit)
    (lastId : Nat) :
    ∃ g, c'.resolve limit lastId d' = (c.resolve limit lastId d).rename g := by
  obtain ⟨g, hg, rfl, rfl⟩ := exists_common_rename hc hd hc' hd' hid h k
  exact ⟨g, resolve_rename hg limit lastId c d⟩

end Clause.Variant
end Refutation
