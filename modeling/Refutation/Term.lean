/-!
# First-order terms

A term is a variable, a constant, or a function name applied to a list of terms.  A variable is
its name together with the number of the clause that owns it, so two clauses may use the same
letter without sharing a variable.

The functions on terms recurse over a term and over its argument lists at once.  Each comes with
simplification lemmas that state it on an application through `List.map`, `List.flatMap` and the
like, after which the list versions are not mentioned again.

## Main definitions

* `Var`, `Term` — variables and terms.
* `Term.occurrences`, `Term.vars` — all variable positions, and the distinct variables.
* `Term.occurs`, `Term.isGround` — the tests for one variable and for none.
* `Term.subst`, `Term.replace` — replacing all variables at once, or a single one.
* `Term.text` — the printed form.

## Main results

* `Term.induction` — induction over a term and its arguments.
* `Term.occurs_eq_true_iff` — the occurs test agrees with the list of positions.
* `Term.mem_occurrences_subst` — where the variables of a substituted term come from.
* `Term.subst_congr`, `Term.subst_subst` — substitutions depend on the variables that occur, and
  compose.
-/

namespace Refutation

/-- A variable: a name, and the number of the clause it belongs to. -/
structure Var where
  /-- The name as written. -/
  name : String
  /-- The number of the owning clause. -/
  clause : Nat
  deriving DecidableEq, Hashable, Repr, Inhabited

/-- The printed form of a variable shows its owner, so that two variables print alike only if
their names and owners run together. -/
def Var.text (v : Var) : String := v.name ++ "_" ++ toString v.clause

/-- A first-order term. -/
inductive Term where
  /-- A variable. -/
  | var (v : Var)
  /-- A constant. -/
  | const (name : String)
  /-- A function name applied to arguments. -/
  | app (name : String) (args : List Term)
  deriving Repr, Inhabited

/-- What sort of expression something is. -/
inductive Kind where
  /-- A variable. -/
  | var
  /-- A constant. -/
  | const
  /-- A function application. -/
  | func
  /-- A predicate application, which is a literal and never a term. -/
  | pred
  deriving DecidableEq, Repr

/-- The word for a kind. -/
def Kind.name : Kind → String
  | .var => "Variable"
  | .const => "Constant"
  | .func => "Function"
  | .pred => "Predicate"

/-! ### Lists without repetitions -/

/-- Erasing repetitions leaves none. -/
theorem nodup_eraseDups {α : Type} [BEq α] [LawfulBEq α] (l : List α) : l.eraseDups.Nodup := by
  match l with
  | [] => simp
  | a :: l =>
    rw [List.eraseDups_cons, List.nodup_cons, List.mem_eraseDups]
    exact ⟨by simp, nodup_eraseDups _⟩
termination_by l.length
decreasing_by exact Nat.lt_succ_of_le (List.length_filter_le _ _)

/-- One more member is kept unless it is there already. -/
theorem eraseDups_concat {α : Type} [DecidableEq α] (l : List α) (a : α) :
    (l ++ [a]).eraseDups = if a ∈ l then l.eraseDups else l.eraseDups ++ [a] := by
  rw [List.eraseDups_append]
  by_cases ha : a ∈ l
  · simp [List.removeAll, ha]
  · simp [List.removeAll, List.eraseDups_cons, ha]

namespace Term

/-! ### Induction and equality -/

/-- Induction over terms: an application may assume the claim for each of its arguments. -/
@[elab_as_elim]
theorem induction {motive : Term → Prop} (var : ∀ v, motive (.var v))
    (const : ∀ name, motive (.const name))
    (app : ∀ name args, (∀ t ∈ args, motive t) → motive (.app name args)) (t : Term) :
    motive t := by
  refine Term.rec (motive_1 := motive) (motive_2 := fun ts => ∀ t ∈ ts, motive t)
    var const app (fun _ h => by cases h) (fun t ts ht hts u hu => ?_) t
  rcases List.mem_cons.1 hu with rfl | hu
  · exact ht
  · exact hts u hu

mutual

/-- Equality of terms can be decided. -/
def decEq : (s t : Term) → Decidable (s = t)
  | .var v, .var w => decidable_of_iff (v = w) (by simp)
  | .const a, .const b => decidable_of_iff (a = b) (by simp)
  | .app f ss, .app g ts =>
    if hfg : f = g then
      match decEqList ss ts with
      | isTrue h => isTrue (by rw [hfg, h])
      | isFalse h => isFalse (by simp [h])
    else isFalse (by simp [hfg])
  | .var _, .const _ | .var _, .app _ _ | .const _, .var _ | .const _, .app _ _
  | .app _ _, .var _ | .app _ _, .const _ => isFalse (by simp)

/-- Equality of argument lists can be decided. -/
def decEqList : (ss ts : List Term) → Decidable (ss = ts)
  | [], [] => isTrue rfl
  | s :: ss, t :: ts =>
    match decEq s t with
    | isTrue h =>
      match decEqList ss ts with
      | isTrue hs => isTrue (by rw [h, hs])
      | isFalse hs => isFalse (by simp [hs])
    | isFalse h => isFalse (by simp [h])
  | [], _ :: _ | _ :: _, [] => isFalse (by simp)

end

instance : DecidableEq Term := decEq

/-- The kind of a term. -/
def kind : Term → Kind
  | .var _ => .var
  | .const _ => .const
  | .app _ _ => .func

/-! ### Size -/

mutual

/-- The number of variables, constants and function names in a term. -/
def size : Term → Nat
  | .var _ => 1
  | .const _ => 1
  | .app _ ts => 1 + sizeList ts

/-- The total size of an argument list. -/
def sizeList : List Term → Nat
  | [] => 0
  | t :: ts => t.size + sizeList ts

end

@[simp] theorem size_var (v : Var) : (var v).size = 1 := rfl

@[simp] theorem size_const (a : String) : (const a).size = 1 := rfl

@[simp] theorem size_app (f : String) (ts : List Term) :
    (app f ts).size = 1 + sizeList ts := by
  rw [size]

@[simp] theorem sizeList_nil : sizeList [] = 0 := rfl

@[simp] theorem sizeList_cons (t : Term) (ts : List Term) :
    sizeList (t :: ts) = t.size + sizeList ts := rfl

theorem size_pos (t : Term) : 0 < t.size := by
  cases t with
  | var v => simp
  | const a => simp
  | app f ts => rw [size_app]; omega

/-! ### Variables -/

mutual

/-- The variables of a term in the order they are written, repetitions included. -/
def occurrences : Term → List Var
  | .var v => [v]
  | .const _ => []
  | .app _ ts => occurrencesList ts

/-- The variables of an argument list in the order they are written. -/
def occurrencesList : List Term → List Var
  | [] => []
  | t :: ts => t.occurrences ++ occurrencesList ts

end

@[simp] theorem occurrences_var (v : Var) : (var v).occurrences = [v] := rfl

@[simp] theorem occurrences_const (a : String) : (const a).occurrences = [] := rfl

theorem occurrencesList_eq (ts : List Term) :
    occurrencesList ts = ts.flatMap occurrences := by
  induction ts with
  | nil => rfl
  | cons t ts ih => simp [occurrencesList, ih]

@[simp] theorem occurrences_app (f : String) (ts : List Term) :
    (app f ts).occurrences = ts.flatMap occurrences := by
  rw [occurrences, occurrencesList_eq]

/-- The distinct variables of a term, in order of first occurrence. -/
def vars (t : Term) : List Var := t.occurrences.eraseDups

@[simp] theorem mem_vars {t : Term} {v : Var} : v ∈ t.vars ↔ v ∈ t.occurrences :=
  List.mem_eraseDups

theorem nodup_vars (t : Term) : t.vars.Nodup := nodup_eraseDups _

mutual

/-- Whether the variable `v` occurs in a term. -/
def occurs (v : Var) : Term → Bool
  | .var w => w == v
  | .const _ => false
  | .app _ ts => occursList v ts

/-- Whether the variable `v` occurs in an argument list. -/
def occursList (v : Var) : List Term → Bool
  | [] => false
  | t :: ts => t.occurs v || occursList v ts

end

@[simp] theorem occurs_var (v w : Var) : (var w).occurs v = (w == v) := rfl

@[simp] theorem occurs_const (v : Var) (a : String) : (const a).occurs v = false := rfl

theorem occursList_eq (v : Var) (ts : List Term) : occursList v ts = ts.any (occurs v) := by
  induction ts with
  | nil => rfl
  | cons t ts ih => simp [occursList, ih]

@[simp] theorem occurs_app (v : Var) (f : String) (ts : List Term) :
    (app f ts).occurs v = ts.any (occurs v) := by
  rw [occurs, occursList_eq]

/-- The test finds exactly the variables that are listed. -/
theorem occurs_eq_true_iff {t : Term} {v : Var} : t.occurs v = true ↔ v ∈ t.occurrences := by
  induction t using induction with
  | var w => simpa using eq_comm
  | const a => simp
  | app f ts ih =>
    simp only [occurs_app, List.any_eq_true, occurrences_app, List.mem_flatMap]
    exact ⟨fun ⟨t, ht, h⟩ => ⟨t, ht, (ih t ht).1 h⟩, fun ⟨t, ht, h⟩ => ⟨t, ht, (ih t ht).2 h⟩⟩

mutual

/-- Whether a term holds no variable. -/
def isGround : Term → Bool
  | .var _ => false
  | .const _ => true
  | .app _ ts => isGroundList ts

/-- Whether an argument list holds no variable. -/
def isGroundList : List Term → Bool
  | [] => true
  | t :: ts => t.isGround && isGroundList ts

end

@[simp] theorem isGround_var (v : Var) : (var v).isGround = false := rfl

@[simp] theorem isGround_const (a : String) : (const a).isGround = true := rfl

theorem isGroundList_eq (ts : List Term) : isGroundList ts = ts.all isGround := by
  induction ts with
  | nil => rfl
  | cons t ts ih => simp [isGroundList, ih]

@[simp] theorem isGround_app (f : String) (ts : List Term) :
    (app f ts).isGround = ts.all isGround := by
  rw [isGround, isGroundList_eq]

/-! ### Substitution -/

mutual

/-- Replace every variable by its image under `θ`, all at once. -/
def subst (θ : Var → Term) : Term → Term
  | .var v => θ v
  | .const a => .const a
  | .app f ts => .app f (substList θ ts)

/-- Replace every variable of an argument list. -/
def substList (θ : Var → Term) : List Term → List Term
  | [] => []
  | t :: ts => t.subst θ :: substList θ ts

end

@[simp] theorem subst_var (θ : Var → Term) (v : Var) : (var v).subst θ = θ v := rfl

@[simp] theorem subst_const (θ : Var → Term) (a : String) : (const a).subst θ = const a := rfl

theorem substList_eq (θ : Var → Term) (ts : List Term) : substList θ ts = ts.map (subst θ) := by
  induction ts with
  | nil => rfl
  | cons t ts ih => simp [substList, ih]

@[simp] theorem subst_app (θ : Var → Term) (f : String) (ts : List Term) :
    (app f ts).subst θ = app f (ts.map (subst θ)) := by
  rw [subst, substList_eq]

/-- The variables of a substituted term are the variables of the images. -/
theorem mem_occurrences_subst {θ : Var → Term} {t : Term} {w : Var} :
    w ∈ (t.subst θ).occurrences ↔ ∃ v ∈ t.occurrences, w ∈ (θ v).occurrences := by
  induction t using induction with
  | var v => simp
  | const a => simp
  | app f ts ih =>
    simp only [subst_app, occurrences_app, List.mem_flatMap, List.mem_map]
    constructor
    · rintro ⟨_, ⟨t, ht, rfl⟩, hw⟩
      obtain ⟨v, hv, hw⟩ := (ih t ht).1 hw
      exact ⟨v, ⟨t, ht, hv⟩, hw⟩
    · rintro ⟨v, ⟨t, ht, hv⟩, hw⟩
      exact ⟨_, ⟨t, ht, rfl⟩, (ih t ht).2 ⟨v, hv, hw⟩⟩

/-- A substitution acts on a term only through the variables that occur there. -/
theorem subst_congr {θ η : Var → Term} {t : Term} (h : ∀ v ∈ t.occurrences, θ v = η v) :
    t.subst θ = t.subst η := by
  induction t using induction with
  | var v => simpa using h
  | const a => rfl
  | app f ts ih =>
    simp only [subst_app, app.injEq, true_and]
    refine List.map_congr_left fun t ht => ih t ht fun v hv => h v ?_
    simpa using ⟨t, ht, hv⟩

/-- Sending every variable to itself changes nothing. -/
@[simp] theorem subst_self (t : Term) : t.subst var = t := by
  induction t using induction with
  | var v => rfl
  | const a => rfl
  | app f ts ih => simp [List.map_congr_left ih]

/-- Two substitutions in a row are one. -/
theorem subst_subst (θ η : Var → Term) (t : Term) :
    (t.subst θ).subst η = t.subst fun v => (θ v).subst η := by
  induction t using induction with
  | var v => rfl
  | const a => rfl
  | app f ts ih => simpa using ih

/-- Replace the single variable `v` by the term `r`. -/
def replace (t : Term) (v : Var) (r : Term) : Term :=
  t.subst fun w => if w = v then r else var w

/-- After a replacement, a variable is an old one other than `v`, or comes with `r`. -/
theorem mem_occurrences_replace {t r : Term} {v w : Var} :
    w ∈ (t.replace v r).occurrences ↔
      (w ∈ t.occurrences ∧ w ≠ v) ∨ (v ∈ t.occurrences ∧ w ∈ r.occurrences) := by
  rw [replace, mem_occurrences_subst]
  constructor
  · rintro ⟨u, hu, hw⟩
    split at hw
    · next h => subst h; exact Or.inr ⟨hu, hw⟩
    · next h =>
      simp only [occurrences_var, List.mem_singleton] at hw
      subst hw
      exact Or.inl ⟨hu, h⟩
  · rintro (⟨hw, hne⟩ | ⟨hv, hw⟩)
    · exact ⟨w, hw, by simp [hne]⟩
    · exact ⟨v, hv, by simpa using hw⟩

/-! ### Printed form -/

mutual

/-- The printed form: arguments stand in parentheses, separated by a comma and a space. -/
def text : Term → String
  | .var v => v.text
  | .const a => a
  | .app f ts => f ++ "(" ++ ", ".intercalate (textList ts) ++ ")"

/-- The printed forms of an argument list. -/
def textList : List Term → List String
  | [] => []
  | t :: ts => t.text :: textList ts

end

@[simp] theorem text_var (v : Var) : (var v).text = v.text := rfl

@[simp] theorem text_const (a : String) : (const a).text = a := rfl

theorem textList_eq (ts : List Term) : textList ts = ts.map text := by
  induction ts with
  | nil => rfl
  | cons t ts ih => simp [textList, ih]

@[simp] theorem text_app (f : String) (ts : List Term) :
    (app f ts).text = f ++ "(" ++ ", ".intercalate (ts.map text) ++ ")" := by
  rw [text, textList_eq]

end Term

/-- The distinct variables of a list of terms, in order of first occurrence. -/
def Term.varsOf (ts : List Term) : List Var := (ts.flatMap occurrences).eraseDups

@[simp] theorem Term.mem_varsOf {ts : List Term} {v : Var} :
    v ∈ varsOf ts ↔ ∃ t ∈ ts, v ∈ t.occurrences := by
  simp [varsOf]

end Refutation
