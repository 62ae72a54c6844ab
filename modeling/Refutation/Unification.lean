import Refutation.Literal
import Refutation.Substitution

/-!
# Unification

Equations between terms are solved from the front.  Equal parts are peeled off, an equation
between applications of one function becomes the equations between their arguments, and as soon as
a variable meets a different term it is bound to it and replaced in all remaining equations.  The
answer lists the bindings in the order they were made; applied in that order they make both sides
of every equation equal.

A failure names its cause.  Lists of different length are told apart before any of their members
is looked at.

## Main definitions

* `Equation`, `Equation.zip` — two terms to be made equal, and two lists member by member.
* `UnifyError` — why there is no unifier.
* `Equation.move` — what is to be done about one equation.
* `Equation.Reduces` — one step of solving.
* `Equation.nextBinding` — split equations until the first binding.
* `Equation.solve` — all bindings.
* `Term.unify`, `Term.unifyAll`, `Literal.unify` — the unifier of two terms, of two lists, and of
  the arguments of two literals.
* `Equation.SolvedBy` — what a replacement of variables must do to be a unifier.

## Main results

* `Equation.nextBinding_vars` — a binding made is over the variables of the equations, and its
  variable does not occur in its term.
* `Equation.length_vars_replace_lt` — so each binding removes a variable for good, and
  `Equation.solve` ends.
-/

namespace Refutation

/-! ### Equations -/

/-- Two terms to be made equal. -/
structure Equation where
  /-- The left side. -/
  left : Term
  /-- The right side. -/
  right : Term
  deriving DecidableEq, Repr

namespace Equation

/-- The equations between two lists, member by member. -/
def zip (ss ts : List Term) : List Equation := List.zipWith Equation.mk ss ts

/-- What is done to the members of both lists is done to both sides of the equations. -/
theorem zip_map (f : Term → Term) (ss ts : List Term) :
    zip (ss.map f) (ts.map f) = (zip ss ts).map fun e => ⟨f e.left, f e.right⟩ := by
  rw [zip, zip, List.zipWith_map, List.map_zipWith]

/-- Replace a bound variable on both sides. -/
def replace (b : Binding) (e : Equation) : Equation :=
  ⟨e.left.replace b.var b.term, e.right.replace b.var b.term⟩

/-- A replacement of variables solves an equation when it makes both sides equal. -/
def SolvedBy (θ : Var → Term) (e : Equation) : Prop := e.left.subst θ = e.right.subst θ

/-- The size of all equations together, both sides counted. -/
def totalSize : List Equation → Nat
  | [] => 0
  | e :: es => e.left.size + e.right.size + totalSize es

@[simp] theorem totalSize_nil : totalSize [] = 0 := rfl

@[simp] theorem totalSize_cons (e : Equation) (es : List Equation) :
    totalSize (e :: es) = e.left.size + e.right.size + totalSize es := rfl

@[simp] theorem totalSize_append (es fs : List Equation) :
    totalSize (es ++ fs) = totalSize es + totalSize fs := by
  induction es with
  | nil => simp
  | cons e es ih => simp [ih, Nat.add_assoc]

/-- Pairing two lists up adds nothing to their size. -/
theorem totalSize_zip_le (ss ts : List Term) :
    totalSize (zip ss ts) ≤ Term.sizeList ss + Term.sizeList ts := by
  induction ss generalizing ts with
  | nil => simp [zip]
  | cons s ss ih =>
    cases ts with
    | nil => simp [zip]
    | cons t ts =>
      have := ih ts
      simp only [zip, List.zipWith_cons_cons, totalSize_cons, Term.sizeList_cons] at this ⊢
      omega

/-- The variables of both sides in the order they are written. -/
def occurrences (e : Equation) : List Var := e.left.occurrences ++ e.right.occurrences

/-- The distinct variables of a list of equations. -/
def vars (es : List Equation) : List Var := (es.flatMap occurrences).eraseDups

theorem mem_vars {es : List Equation} {v : Var} :
    v ∈ vars es ↔ ∃ e ∈ es, v ∈ e.left.occurrences ∨ v ∈ e.right.occurrences := by
  simp [vars, occurrences]

theorem nodup_vars (es : List Equation) : (vars es).Nodup := nodup_eraseDups _

@[simp] theorem vars_nil : vars [] = [] := rfl

@[simp] theorem mem_vars_cons {e : Equation} {es : List Equation} {v : Var} :
    v ∈ vars (e :: es) ↔
      (v ∈ e.left.occurrences ∨ v ∈ e.right.occurrences) ∨ v ∈ vars es := by
  simp [mem_vars]

@[simp] theorem mem_vars_append {es fs : List Equation} {v : Var} :
    v ∈ vars (es ++ fs) ↔ v ∈ vars es ∨ v ∈ vars fs := by
  induction es with
  | nil => simp
  | cons e es ih => simp [ih, or_assoc]

/-- The sides of the equations are members of the lists that are paired up. -/
theorem mem_of_mem_zip {ss ts : List Term} {e : Equation} (h : e ∈ zip ss ts) :
    e.left ∈ ss ∧ e.right ∈ ts := by
  rw [zip, ← List.map_uncurry_zip_eq_zipWith] at h
  obtain ⟨⟨s, t⟩, hst, rfl⟩ := List.mem_map.1 h
  exact List.of_mem_zip hst

/-- Pairing two lists up brings in no variable. -/
theorem mem_of_mem_vars_zip {ss ts : List Term} {v : Var} (h : v ∈ vars (zip ss ts)) :
    (∃ s ∈ ss, v ∈ s.occurrences) ∨ ∃ t ∈ ts, v ∈ t.occurrences := by
  obtain ⟨e, he, h⟩ := mem_vars.1 h
  obtain ⟨hleft, hright⟩ := mem_of_mem_zip he
  exact h.imp (fun h => ⟨e.left, hleft, h⟩) (fun h => ⟨e.right, hright, h⟩)

end Equation

/-! ### Failure -/

/-- Why terms have no unifier. -/
inductive UnifyError where
  /-- A variable meets a term it is a proper part of. -/
  | occursCheck (var : Var) (term : Term)
  /-- Two different constants, function names or predicate names meet. -/
  | symbolClash (expected found : String)
  /-- A constant meets an application. -/
  | kindMismatch (left right : Term)
  /-- Lists of different length meet. -/
  | arityMismatch (expected found : Nat)
  deriving DecidableEq, Repr

/-- The wording of a failure. -/
def UnifyError.message : UnifyError → String
  | .occursCheck v t => v.text ++ " occurs in " ++ t.text
  | .symbolClash a b => "symbol clash: " ++ a ++ " vs " ++ b
  | .kindMismatch s t => "cannot unify constant with function: " ++ s.text ++ " vs " ++ t.text
  | .arityMismatch m n =>
    "arity mismatch: " ++ toString m ++ " vs " ++ toString n ++ " arguments"

/-! ### One equation -/

/-- What is to be done about an equation. -/
inductive Move where
  /-- It says as much as these equations between smaller terms. -/
  | split (parts : List Equation)
  /-- It is met by binding a variable. -/
  | bind (b : Binding)
  deriving DecidableEq, Repr

/-- Bind `v` to `t`, unless `v` occurs in `t`. -/
def Move.bindVar (v : Var) (t : Term) : Except UnifyError Move :=
  if t.occurs v then .error (.occursCheck v t) else .ok (.bind ⟨v, t⟩)

/-- The move for an equation.  A variable on the left is bound to the right side, whatever that
is; otherwise a variable on the right is bound to the left side.  Applications must agree in name
first and in length next. -/
def Equation.move : Equation → Except UnifyError Move
  | ⟨.var v, t⟩ => if t = .var v then .ok (.split []) else Move.bindVar v t
  | ⟨.const a, .var v⟩ => Move.bindVar v (.const a)
  | ⟨.app f ss, .var v⟩ => Move.bindVar v (.app f ss)
  | ⟨.const a, .const b⟩ => if a = b then .ok (.split []) else .error (.symbolClash a b)
  | ⟨.const a, .app g ts⟩ => .error (.kindMismatch (.const a) (.app g ts))
  | ⟨.app f ss, .const b⟩ => .error (.kindMismatch (.app f ss) (.const b))
  | ⟨.app f ss, .app g ts⟩ =>
    if f = g then
      if ss.length = ts.length then .ok (.split (Equation.zip ss ts))
      else .error (.arityMismatch ss.length ts.length)
    else .error (.symbolClash f g)

theorem Move.bindVar_eq_ok {v : Var} {t : Term} {m : Move} (h : bindVar v t = .ok m) :
    m = .bind ⟨v, t⟩ ∧ v ∉ t.occurrences := by
  unfold bindVar at h
  split at h
  · cases h
  · next hv =>
    rw [Term.occurs_eq_true_iff] at hv
    cases h
    exact ⟨rfl, hv⟩

namespace Equation

/-- An equation splits into equal lists of arguments of one function, or into nothing. -/
theorem move_eq_split {e : Equation} {parts : List Equation} (h : e.move = .ok (.split parts)) :
    (parts = [] ∧ e.left = e.right) ∨
      ∃ f ss ts, e = ⟨.app f ss, .app f ts⟩ ∧ ss.length = ts.length ∧ parts = zip ss ts := by
  unfold move at h
  split at h
  · split at h
    · next ht => cases h; exact Or.inl ⟨rfl, ht.symm⟩
    · exact absurd (Move.bindVar_eq_ok h).1 (by simp)
  · exact absurd (Move.bindVar_eq_ok h).1 (by simp)
  · exact absurd (Move.bindVar_eq_ok h).1 (by simp)
  · split at h
    · next hab => cases h; exact Or.inl ⟨rfl, by rw [hab]⟩
    · cases h
  · cases h
  · cases h
  · next f ss g ts =>
    split at h
    · next hfg =>
      split at h
      · next hlen => subst hfg; cases h; exact Or.inr ⟨_, _, _, rfl, hlen, rfl⟩
      · cases h
    · cases h

/-- A binding is made for a side that is a variable, and that variable does not occur in the other
side. -/
theorem move_eq_bind {e : Equation} {b : Binding} (h : e.move = .ok (.bind b)) :
    (e = ⟨.var b.var, b.term⟩ ∨ e = ⟨b.term, .var b.var⟩) ∧ b.var ∉ b.term.occurrences := by
  unfold move at h
  split at h
  · split at h
    · cases h
    · obtain ⟨hb, hv⟩ := Move.bindVar_eq_ok h
      cases hb
      exact ⟨Or.inl rfl, hv⟩
  · obtain ⟨hb, hv⟩ := Move.bindVar_eq_ok h
    cases hb
    exact ⟨Or.inr rfl, hv⟩
  · obtain ⟨hb, hv⟩ := Move.bindVar_eq_ok h
    cases hb
    exact ⟨Or.inr rfl, hv⟩
  · split at h <;> cases h
  · cases h
  · cases h
  · split at h
    · split at h <;> cases h
    · cases h

theorem totalSize_lt_of_move {e : Equation} {parts : List Equation}
    (h : e.move = .ok (.split parts)) : totalSize parts < e.left.size + e.right.size := by
  rcases move_eq_split h with ⟨rfl, -⟩ | ⟨f, ss, ts, rfl, -, rfl⟩
  · have := e.left.size_pos
    simp
    omega
  · have := totalSize_zip_le ss ts
    simp
    omega

/-- Splitting brings in no variable. -/
theorem occurs_of_move_split {e : Equation} {parts : List Equation} {v : Var}
    (h : e.move = .ok (.split parts)) (hv : v ∈ vars parts) :
    v ∈ e.left.occurrences ∨ v ∈ e.right.occurrences := by
  rcases move_eq_split h with ⟨rfl, -⟩ | ⟨f, ss, ts, rfl, -, rfl⟩
  · simp at hv
  · simpa using mem_of_mem_vars_zip hv

/-! ### All equations -/

/-- Split equations until one of them binds a variable; give that binding and the equations after
it, or `none` if nothing is left to bind. -/
def nextBinding : List Equation → Except UnifyError (Option (Binding × List Equation))
  | [] => .ok none
  | e :: rest =>
    match _ : e.move with
    | .error err => .error err
    | .ok (.split parts) => nextBinding (parts ++ rest)
    | .ok (.bind b) => .ok (some (b, rest))
termination_by es => totalSize es
decreasing_by
  next h =>
    have := totalSize_lt_of_move h
    simp
    omega

theorem nextBinding_error {e : Equation} {err : UnifyError} (h : e.move = .error err)
    (rest : List Equation) : nextBinding (e :: rest) = .error err := by
  rw [nextBinding]
  split
  · next h' => cases h.symm.trans h'; rfl
  · next h' => cases h.symm.trans h'
  · next h' => cases h.symm.trans h'

theorem nextBinding_split {e : Equation} {parts : List Equation} (h : e.move = .ok (.split parts))
    (rest : List Equation) : nextBinding (e :: rest) = nextBinding (parts ++ rest) := by
  rw [nextBinding]
  split
  · next h' => cases h.symm.trans h'
  · next h' => cases h.symm.trans h'; rfl
  · next h' => cases h.symm.trans h'

theorem nextBinding_bind {e : Equation} {b : Binding} (h : e.move = .ok (.bind b))
    (rest : List Equation) : nextBinding (e :: rest) = .ok (some (b, rest)) := by
  rw [nextBinding]
  split
  · next h' => cases h.symm.trans h'
  · next h' => cases h.symm.trans h'
  · next h' => cases h.symm.trans h'; rfl

/-- A binding made is over the variables of the equations: its variable is one of them and does
not occur in its term, and neither its term nor the remaining equations hold a new variable. -/
theorem nextBinding_vars {es rest : List Equation} {b : Binding}
    (h : nextBinding es = .ok (some (b, rest))) :
    b.var ∈ vars es ∧ b.var ∉ b.term.occurrences ∧
      (∀ w ∈ b.term.occurrences, w ∈ vars es) ∧
      ∀ w ∈ vars rest, w ∈ vars es := by
  fun_induction nextBinding es with
  | case1 => cases h
  | case2 => cases h
  | case3 e rest' parts he ih =>
    have hsub : ∀ w ∈ vars (parts ++ rest'), w ∈ vars (e :: rest') := by
      intro w hw
      simp only [mem_vars_append, mem_vars_cons] at hw ⊢
      exact hw.imp (occurs_of_move_split he) id
    obtain ⟨h1, h2, h3, h4⟩ := ih h
    exact ⟨hsub _ h1, h2, fun w hw => hsub w (h3 w hw), fun w hw => hsub w (h4 w hw)⟩
  | case4 e rest' b' he =>
    cases h
    obtain ⟨rfl | rfl, hv⟩ := move_eq_bind he <;> simp +contextual [hv]

/-- Replacing a variable leaves the others, and brings in those of the term that replaces it. -/
theorem mem_vars_map_replace {es : List Equation} {b : Binding} {w : Var}
    (h : w ∈ vars (es.map (·.replace b))) :
    (w ∈ vars es ∧ w ≠ b.var) ∨ w ∈ b.term.occurrences := by
  obtain ⟨_, he, hw⟩ := mem_vars.1 h
  obtain ⟨e, hmem, rfl⟩ := List.mem_map.1 he
  rw [mem_vars]
  rcases hw with hw | hw <;>
    rcases Term.mem_occurrences_replace.1 hw with ⟨hw, hne⟩ | ⟨-, hw⟩
  · exact Or.inl ⟨⟨e, hmem, Or.inl hw⟩, hne⟩
  · exact Or.inr hw
  · exact Or.inl ⟨⟨e, hmem, Or.inr hw⟩, hne⟩
  · exact Or.inr hw

/-- Once its variable is replaced, a binding has taken that variable out of the equations. -/
theorem length_vars_replace_lt {es rest : List Equation} {b : Binding}
    (h : nextBinding es = .ok (some (b, rest))) :
    (vars (rest.map (·.replace b))).length < (vars es).length := by
  obtain ⟨hb, hfree, hterm, hrest⟩ := nextBinding_vars h
  -- what is left are old variables, and the bound one is not among them
  have hsub : vars (rest.map (·.replace b)) ⊆ (vars es).erase b.var := by
    intro w hw
    rw [(nodup_vars es).mem_erase_iff]
    rcases mem_vars_map_replace hw with ⟨hw, hne⟩ | hw
    · exact ⟨hne, hrest w hw⟩
    · exact ⟨fun hwb => hfree (hwb ▸ hw), hterm w hw⟩
  have hle := (nodup_vars (rest.map (·.replace b))).length_le_of_subset hsub
  have hpos := List.length_pos_of_mem hb
  rw [List.length_erase_of_mem hb] at hle
  omega

/-- One step of solving: the first equation is split, or its binding is replaced in the others. -/
inductive Reduces : List Equation → List Equation → Prop where
  /-- The first equation is split. -/
  | split {e : Equation} {parts rest : List Equation} :
    e.move = .ok (.split parts) → Reduces (e :: rest) (parts ++ rest)
  /-- The first equation binds a variable. -/
  | bind {e : Equation} {b : Binding} {rest : List Equation} :
    e.move = .ok (.bind b) → Reduces (e :: rest) (rest.map (·.replace b))

/-- Solve equations from the front: the bindings in the order they are made, each replaced in the
equations that remain. -/
def solve (es : List Equation) : Except UnifyError Substitution :=
  match _ : nextBinding es with
  | .error err => .error err
  | .ok none => .ok []
  | .ok (some (b, rest)) =>
    match solve (rest.map (·.replace b)) with
    | .error err => .error err
    | .ok σ => .ok (b :: σ)
termination_by (vars es).length
decreasing_by
  next h => exact length_vars_replace_lt h

@[simp] theorem solve_nil : solve [] = .ok [] := by
  rw [solve, nextBinding]

/-- Solving goes equation by equation: a failure ends it. -/
theorem solve_error {e : Equation} {err : UnifyError} (h : e.move = .error err)
    (rest : List Equation) : solve (e :: rest) = .error err := by
  rw [solve, nextBinding_error h]

/-- The parts of an equation are solved in its place. -/
theorem solve_split {e : Equation} {parts : List Equation} (h : e.move = .ok (.split parts))
    (rest : List Equation) : solve (e :: rest) = solve (parts ++ rest) := by
  rw [solve, nextBinding_split h, ← solve]

/-- A binding comes before those that solve the other equations once it is replaced there. -/
theorem solve_bind {e : Equation} {b : Binding} (h : e.move = .ok (.bind b))
    (rest : List Equation) :
    solve (e :: rest) = (solve (rest.map (·.replace b))).map (b :: ·) := by
  rw [solve, nextBinding_bind h]
  dsimp only
  cases solve (rest.map (·.replace b)) <;> rfl

end Equation

/-! ### Unifiers of terms and literals -/

/-- The unifier of two terms. -/
def Term.unify (s t : Term) : Except UnifyError Substitution := Equation.solve [⟨s, t⟩]

/-- The unifier of two lists of terms, which must have the same length. -/
def Term.unifyAll (ss ts : List Term) : Except UnifyError Substitution :=
  if ss.length = ts.length then Equation.solve (Equation.zip ss ts)
  else .error (.arityMismatch ss.length ts.length)

/-- The unifier of the arguments of two literals, whose predicate names must agree.  Signs do not
matter. -/
def Literal.unify (l m : Literal) : Except UnifyError Substitution :=
  if l.samePredicate m then Term.unifyAll l.args m.args
  else .error (.symbolClash l.predicate m.predicate)

end Refutation
