import Mathlib.Logic.Function.Iterate
import Mathlib.Tactic.Linarith
import Refutation.Unification.Stages

/-!
# Unification, call by call

Unification can be told as two functions that call one another.  The one for terms hands the
arguments of two applications over to the one for lists; the one for lists goes through the members
in pairs, calls the other for each pair, and applies the bindings that come back to all members that
are left.  These may then be larger than anything there was at the start, so no call is for less
than the call that made it.

The two functions are carried out here a step at a time, with the calls that wait for another one
put on a stack.  Every call returns: what comes after a pair of members is about fewer variables, or
nothing was bound and there is less to go through.

## Main definitions

* `Frame`, `Task`, `Calls` — a unification of two lists under way, what is done next, and the calls
  that wait.
* `Calls.step` — one step.
* `Calls.Reaches` — finitely many steps.

## Main results

* `Equation.wellFounded_reduces` — solving from the front cannot go on for ever.
* `Calls.reaches_loop` — a unification of two lists returns, whatever calls wait for it.
* `Term.unify_returns` — **every call returns**.
-/

namespace Refutation

/-! ### Solving from the front -/

namespace Equation

/-- There is no infinite sequence of steps. -/
theorem wellFounded_reduces : WellFounded fun fs es => Reduces es fs :=
  Subrelation.wf (lex_of_reduces ·)
    (InvImage.wf (fun es => ((vars es).length, totalSize es)) (Prod.lex _ _).wf)

/-- To replace a variable in the members of two lists is to replace it in the equations. -/
theorem zip_map_replace (b : Binding) (ss ts : List Term) :
    zip (ss.map (·.replace b.var b.term)) (ts.map (·.replace b.var b.term)) =
      replaceAll b (zip ss ts) :=
  zip_map (·.replace b.var b.term) ss ts

theorem zip_map_apply (σ : Substitution) (ss ts : List Term) :
    zip (ss.map σ.apply) (ts.map σ.apply) = applyAll σ (zip ss ts) := by
  induction σ generalizing ss ts with
  | nil => rw [funext Substitution.apply_nil, List.map_id', List.map_id', applyAll_nil]
  | cons b σ ih =>
    rw [applyAll_cons, ← zip_map_replace, ← ih, List.map_map, List.map_map]
    rfl

end Equation

open Equation

/-! ### Calls -/

/-- A unification of two lists under way. -/
structure Frame where
  /-- The bindings made so far. -/
  bound : Substitution
  /-- What is left of the one list, with the bindings applied. -/
  left : List Term
  /-- What is left of the other. -/
  right : List Term

/-- What is to be done next. -/
inductive Task where
  /-- Two terms are to be unified. -/
  | terms (s t : Term)
  /-- Two lists are to be unified. -/
  | lists (ss ts : List Term)
  /-- The unification of two lists goes on. -/
  | loop (frame : Frame)
  /-- A call has come to its result. -/
  | result (r : Except UnifyError Substitution)

namespace Task

/-- To bind `v` to `t` is all that is to be done, and cannot be done if `v` occurs in `t`. -/
def ofBinding (v : Var) (t : Term) : Task :=
  .result (if t.occurs v then .error (.occursCheck v t) else .ok [⟨v, t⟩])

/-- What a call for two terms does. -/
def ofTerms : Term → Term → Task
  | .var v, t => if t = .var v then .result (.ok []) else ofBinding v t
  | .const a, .var v => ofBinding v (.const a)
  | .app f ss, .var v => ofBinding v (.app f ss)
  | .const a, .const b => .result (if a = b then .ok [] else .error (.symbolClash a b))
  | .const a, .app g ts => .result (.error (.kindMismatch (.const a) (.app g ts)))
  | .app f ss, .const b => .result (.error (.kindMismatch (.app f ss) (.const b)))
  | .app f ss, .app g ts => if f = g then .lists ss ts else .result (.error (.symbolClash f g))

/-- What a call for two lists does, of which different lengths are told apart at once. -/
def ofLists (ss ts : List Term) : Task :=
  if ss.length = ts.length then .loop ⟨[], ss, ts⟩
  else .result (.error (.arityMismatch ss.length ts.length))

end Task

/-- A task, and the calls that wait for its result, the last of which comes first. -/
structure Calls where
  /-- What is to be done next. -/
  task : Task
  /-- The unifications of lists that wait. -/
  waiting : List Frame

namespace Calls

/-- One step.  A failure ends all calls; bindings are applied to what is left in the call that waits
for them, and put after its own. -/
def step : Calls → Calls
  | ⟨.terms s t, waiting⟩ => ⟨.ofTerms s t, waiting⟩
  | ⟨.lists ss ts, waiting⟩ => ⟨.ofLists ss ts, waiting⟩
  | ⟨.loop ⟨σ, s :: ss, t :: ts⟩, waiting⟩ => ⟨.terms s t, ⟨σ, ss, ts⟩ :: waiting⟩
  | ⟨.loop ⟨σ, _, _⟩, waiting⟩ => ⟨.result (.ok σ), waiting⟩
  | ⟨.result (.error err), _ :: waiting⟩ => ⟨.result (.error err), waiting⟩
  | ⟨.result (.ok τ), ⟨σ, ss, ts⟩ :: waiting⟩ =>
    ⟨.loop ⟨σ ++ τ, ss.map τ.apply, ts.map τ.apply⟩, waiting⟩
  | ⟨.result r, []⟩ => ⟨.result r, []⟩

/-- After some number of steps, `c` has become `d`. -/
def Reaches (c d : Calls) : Prop := ∃ n, step^[n] c = d

variable {c d e : Calls} {s t : Term} {ss ts : List Term} {waiting : List Frame}

theorem Reaches.refl (c : Calls) : Reaches c c := ⟨0, rfl⟩

theorem Reaches.head (h : Reaches (step c) d) : Reaches c d := by
  obtain ⟨n, hn⟩ := h
  exact ⟨n + 1, hn⟩

theorem Reaches.trans (h : Reaches c d) (k : Reaches d e) : Reaches c e := by
  obtain ⟨m, rfl⟩ := h
  obtain ⟨n, rfl⟩ := k
  exact ⟨n + m, Function.iterate_add_apply step n m c⟩

/-! ### Every call returns -/

theorem ofBinding_eq (v : Var) (t : Term) :
    Task.ofBinding v t = .result ((Move.bindVar v t).map fun _ => [⟨v, t⟩]) := by
  unfold Task.ofBinding Move.bindVar
  split
  · rfl
  · rfl

/-- A binding is all that an equation with such a move comes to. -/
theorem solve_of_bindVar {e : Equation} {v : Var} (h : e.move = Move.bindVar v t) :
    solve [e] = (Move.bindVar v t).map fun _ => [⟨v, t⟩] := by
  cases hbind : Move.bindVar v t with
  | error err => rw [solve_error (h.trans hbind)]; rfl
  | ok m =>
    obtain ⟨rfl, -⟩ := Move.bindVar_eq_ok hbind
    rw [solve_bind (h.trans hbind), List.map_nil, solve_nil]
    rfl

theorem move_app (f : String) (ss ts : List Term) :
    move ⟨.app f ss, .app f ts⟩ = if ss.length = ts.length then .ok (.split (zip ss ts))
      else .error (.arityMismatch ss.length ts.length) :=
  if_pos rfl

/-- Applications of one function are unified as their arguments are. -/
theorem unify_app (f : String) (ss ts : List Term) :
    (Term.app f ss).unify (.app f ts) = Term.unifyAll ss ts := by
  have hmove := move_app f ss ts
  unfold Term.unify Term.unifyAll
  split
  · next hlen => rw [solve_split (hmove.trans (if_pos hlen)), List.append_nil]
  · next hlen => rw [solve_error (hmove.trans (if_neg hlen))]

/-- An equation without parts comes to nothing. -/
theorem unify_of_split (h : move ⟨s, t⟩ = .ok (.split [])) : s.unify t = .ok [] := by
  rw [Term.unify, solve_split h, List.append_nil, solve_nil]

/-- What a call for two terms does if they are not applications of one function. -/
theorem ofTerms_eq (h : ∀ f ss ts, s = .app f ss → t ≠ .app f ts) :
    Task.ofTerms s t = .result (s.unify t) := by
  unfold Task.ofTerms
  split
  · next v =>
    split
    · next ht =>
      have hmove : move ⟨.var v, t⟩ = .ok (.split []) := if_pos ht
      rw [unify_of_split hmove]
    · next ht =>
      have hmove : move ⟨.var v, t⟩ = Move.bindVar v t := if_neg ht
      rw [ofBinding_eq, Term.unify, solve_of_bindVar hmove]
  · next a v => rw [ofBinding_eq, Term.unify, solve_of_bindVar rfl]
  · next f ss v => rw [ofBinding_eq, Term.unify, solve_of_bindVar rfl]
  · next a b =>
    split
    · next hab =>
      have hmove : move ⟨.const a, .const b⟩ = .ok (.split []) := if_pos hab
      rw [unify_of_split hmove]
    · next hab =>
      have hmove : move ⟨.const a, .const b⟩ = .error (.symbolClash a b) := if_neg hab
      rw [Term.unify, solve_error hmove]
  · rw [Term.unify, solve_error rfl]
  · rw [Term.unify, solve_error rfl]
  · next f ss g ts =>
    split
    · next hfg => exact absurd rfl (hfg ▸ h f ss ts rfl)
    · next hfg =>
      have hmove : move ⟨.app f ss, .app g ts⟩ = .error (.symbolClash f g) := if_neg hfg
      rw [Term.unify, solve_error hmove]

/-- A call for two lists goes through them only if they have the same length. -/
theorem reaches_lists (hloop : ss.length = ts.length →
      Reaches ⟨.loop ⟨[], ss, ts⟩, waiting⟩ ⟨.result (solve (zip ss ts)), waiting⟩) :
    Reaches ⟨.lists ss ts, waiting⟩ ⟨.result (Term.unifyAll ss ts), waiting⟩ := by
  refine .head ?_
  show Reaches ⟨Task.ofLists ss ts, waiting⟩ _
  unfold Task.ofLists Term.unifyAll
  split
  · next hlen => exact hloop hlen
  · exact .refl _

/-- A call for two terms returns, if the call for their arguments does. -/
theorem reaches_terms (hlists : ∀ f ss ts, s = .app f ss → t = .app f ts →
      Reaches ⟨.lists ss ts, waiting⟩ ⟨.result (Term.unifyAll ss ts), waiting⟩) :
    Reaches ⟨.terms s t, waiting⟩ ⟨.result (s.unify t), waiting⟩ := by
  refine .head ?_
  show Reaches ⟨Task.ofTerms s t, waiting⟩ _
  by_cases happ : ∃ f ss ts, s = .app f ss ∧ t = .app f ts
  · obtain ⟨f, ss, ts, rfl, rfl⟩ := happ
    have htask : Task.ofTerms (.app f ss) (.app f ts) = .lists ss ts := if_pos rfl
    rw [htask, unify_app]
    exact hlists f ss ts rfl rfl
  · rw [ofTerms_eq fun f ss ts hs ht => happ ⟨f, ss, ts, hs, ht⟩]
    exact .refl _

theorem map_nil_append (r : Except UnifyError Substitution) : r.map ([] ++ ·) = r := by
  cases r with
  | error err => rfl
  | ok τ => rfl

/-- Bindings are put after those of the call that waits for them. -/
theorem map_append_eq (σ τ : Substitution) (r : Except UnifyError Substitution) :
    (r.map (τ ++ ·)).map (σ ++ ·) = r.map (σ ++ τ ++ ·) := by
  cases r with
  | error err => rfl
  | ok υ => simp [Except.map]

/-- The unification of two lists returns, whatever bindings it has made and whatever calls wait for
it. -/
theorem reaches_loop (σ : Substitution) (ss ts : List Term) (waiting : List Frame) :
    Reaches ⟨.loop ⟨σ, ss, ts⟩, waiting⟩
      ⟨.result ((solve (zip ss ts)).map (σ ++ ·)), waiting⟩ := by
  match ss, ts with
  | [], ts =>
    refine .head ?_
    show Reaches ⟨.result (.ok σ), waiting⟩ _
    simp [zip, Except.map, Reaches.refl]
  | s :: ss, [] =>
    refine .head ?_
    show Reaches ⟨.result (.ok σ), waiting⟩ _
    simp [zip, Except.map, Reaches.refl]
  | s :: ss, t :: ts =>
    have hhead : Reaches ⟨.terms s t, ⟨σ, ss, ts⟩ :: waiting⟩
        ⟨.result (s.unify t), ⟨σ, ss, ts⟩ :: waiting⟩ := by
      refine reaches_terms fun f ss' ts' hs ht => reaches_lists fun hlen => ?_
      have h := reaches_loop [] ss' ts' (⟨σ, ss, ts⟩ :: waiting)
      rwa [map_nil_append] at h
    refine .head (hhead.trans ?_)
    have hsolve : solve (zip (s :: ss) (t :: ts)) = _ := solve_append [⟨s, t⟩] (zip ss ts)
    rw [hsolve, ← Term.unify]
    cases hτ : s.unify t with
    | error err => exact .head (.refl _)
    | ok τ =>
      refine .head ?_
      have h := reaches_loop (σ ++ τ) (ss.map τ.apply) (ts.map τ.apply) waiting
      rwa [zip_map_apply, ← map_append_eq] at h
termination_by ((vars (zip ss ts)).length, totalSize (zip ss ts))
decreasing_by
  · subst hs ht
    exact lex_parts ((move_app f ss' ts').trans (if_pos hlen)) (zip ss ts)
  · rw [zip_map_apply]
    exact lex_applyAll_of_solve hτ (zip ss ts)

theorem reaches_unifyAll (ss ts : List Term) (waiting : List Frame) :
    Reaches ⟨.lists ss ts, waiting⟩ ⟨.result (Term.unifyAll ss ts), waiting⟩ := by
  refine reaches_lists fun _ => ?_
  have h := reaches_loop [] ss ts waiting
  rwa [map_nil_append] at h

theorem reaches_unify (s t : Term) (waiting : List Frame) :
    Reaches ⟨.terms s t, waiting⟩ ⟨.result (s.unify t), waiting⟩ :=
  reaches_terms fun _ ss ts _ _ => reaches_unifyAll ss ts waiting

/-! ### Growth -/

theorem sizeList_replicate (n : Nat) (t : Term) :
    Term.sizeList (List.replicate n t) = n * t.size := by
  induction n with
  | zero => simp
  | succ n ih => rw [List.replicate_succ, Term.sizeList_cons, ih, Nat.succ_mul, Nat.add_comm]

/-- What is left of two lists after their first members are unified can be larger than the lists by
any factor. -/
theorem exists_growth (k : Nat) :
    ∃ (ss ts : List Term) (F : Frame), Reaches ⟨.lists ss ts, []⟩ ⟨.loop F, []⟩ ∧
      k * (Term.sizeList ss + Term.sizeList ts) <
        Term.sizeList F.left + Term.sizeList F.right := by
  -- `n` places of one member are filled with a term of size `n + 1`
  let n := 2 * k + 2
  let v : Var := ⟨"X", 1⟩
  let big : Term := .app "g" (List.replicate n (.const "a"))
  let wide : Term := .app "f" (List.replicate n (.var v))
  let σ : Substitution := [⟨v, big⟩]
  have hbig : Task.ofTerms (.var v) big = .result (.ok σ) := by
    have hfree : big.occurs v = false := by simp [big]
    show Task.ofBinding v big = _
    rw [Task.ofBinding, hfree]
    rfl
  have hwide : σ.apply wide = .app "f" (List.replicate n big) := by
    simp [σ, wide, Term.replace]
  refine ⟨[.var v, wide], [big, .var v], ⟨σ, [σ.apply wide], [σ.apply (.var v)]⟩, ?_, ?_⟩
  · refine .head (.head (.head ?_))
    show Reaches ⟨Task.ofTerms (.var v) big, [⟨[], [wide], [.var v]⟩]⟩ _
    rw [hbig]
    exact .head (.refl _)
  · rw [hwide]
    simp only [big, wide, n, Term.sizeList_cons, Term.sizeList_nil, Term.size_app, Term.size_var,
      Term.size_const, sizeList_replicate]
    nlinarith

end Calls

open Calls

/-- **Every call returns.**  Whatever two terms or two lists are given, after finitely many steps
the call has come to its result, and no call is left that waits.  This is so although the members
that are left in a list may grow by any factor when the bindings are applied that were made for the
members before.  Solving equations from the front comes to an end as well. -/
theorem Term.unify_returns :
    (∀ s t : Term, Reaches ⟨.terms s t, []⟩ ⟨.result (s.unify t), []⟩) ∧
    (∀ ss ts : List Term, Reaches ⟨.lists ss ts, []⟩ ⟨.result (unifyAll ss ts), []⟩) ∧
    (∀ k : Nat, ∃ (ss ts : List Term) (F : Frame), Reaches ⟨.lists ss ts, []⟩ ⟨.loop F, []⟩ ∧
      k * (sizeList ss + sizeList ts) < sizeList F.left + sizeList F.right) ∧
    WellFounded fun fs es => Equation.Reduces es fs :=
  ⟨fun s t => reaches_unify s t [], fun ss ts => reaches_unifyAll ss ts [], exists_growth,
    Equation.wellFounded_reduces⟩

end Refutation
