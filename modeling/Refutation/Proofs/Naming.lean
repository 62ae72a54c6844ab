import Refutation.Proofs.Reading

/-!
# The names that are read

No test is made of a variable or constant for commas and parentheses, nor of its own for blanks and
underscores.  That no name has any of them comes from how the text around it was taken apart, and
holds at every depth.  What can be said of the names of a literal that is read is all that can be
said: any literal of which it is true is read from some text.

## Main definitions

* `Term.subterms` — a term and all terms inside it.
* `Term.WellNamed` — what a term is that has been read, leaving its arguments aside.

## Main results

* `Term.legible_iff_forall_subterms` — a term is legible if all terms inside it are well named.
* `Literal.exists_read_iff` — **the literals that are read are those with well-formed names**.
-/

namespace Refutation

open Text

namespace Term

variable {clause : Nat} {t : Term}

/-! ### Terms inside a term -/

mutual

/-- A term and all terms inside it, at any depth. -/
def subterms : Term → List Term
  | .var v => [.var v]
  | .const a => [.const a]
  | .app f ts => .app f ts :: subtermsList ts

/-- The terms of an argument list and all terms inside them. -/
def subtermsList : List Term → List Term
  | [] => []
  | t :: ts => t.subterms ++ subtermsList ts

end

@[simp] theorem subterms_var (v : Var) : (var v).subterms = [var v] := rfl

@[simp] theorem subterms_const (a : String) : (const a).subterms = [const a] := rfl

theorem subtermsList_eq (ts : List Term) : subtermsList ts = ts.flatMap subterms := by
  induction ts with
  | nil => rfl
  | cons t ts ih => simp [subtermsList, ih]

@[simp] theorem subterms_app (f : String) (ts : List Term) :
    (app f ts).subterms = app f ts :: ts.flatMap subterms := by
  rw [subterms, subtermsList_eq]

/-- A term is one of the terms inside it. -/
theorem self_mem_subterms (t : Term) : t ∈ t.subterms := by
  cases t with
  | var v => simp
  | const a => simp
  | app f ts => simp

/-! ### Well-formed names -/

/-- A variable of the clause has a name without lower case letters, a constant one with a lower case
and without upper case letters, and a function one without upper case letters and at least one
argument. -/
def WellNamed (clause : Nat) : Term → Prop
  | .var v => IsName v.name.toList ∧ (∀ c ∈ v.name.toList, isLower c = false) ∧ v.clause = clause
  | .const a => IsName a.toList ∧ (∃ c ∈ a.toList, isLower c = true) ∧
    ∀ c ∈ a.toList, isUpper c = false
  | .app f ts => IsName f.toList ∧ (∀ c ∈ f.toList, isUpper c = false) ∧ ts ≠ []

/-- A term is legible if all terms inside it are well named. -/
theorem legible_iff_forall_subterms :
    t.Legible clause ↔ ∀ s ∈ t.subterms, s.WellNamed clause := by
  constructor
  · intro h
    induction h with
    | var hname hlower => exact List.forall_mem_singleton.2 ⟨hname, hlower, rfl⟩
    | const hname hlower hupper => exact List.forall_mem_singleton.2 ⟨hname, hlower, hupper⟩
    | app hname hupper hne _ ih =>
      rw [subterms_app]
      refine List.forall_mem_cons.2 ⟨⟨hname, hupper, hne⟩, fun s hs => ?_⟩
      obtain ⟨t, ht, hs⟩ := List.mem_flatMap.1 hs
      exact ih t ht s hs
  · intro h
    induction t using induction with
    | var v =>
      obtain ⟨hname, hlower, rfl⟩ := h _ (self_mem_subterms _)
      exact .var hname hlower
    | const a =>
      obtain ⟨hname, hlower, hupper⟩ := h _ (self_mem_subterms _)
      exact .const hname hlower hupper
    | app f ts ih =>
      obtain ⟨hname, hupper, hne⟩ := h _ (self_mem_subterms _)
      refine .app hname hupper hne fun t ht => ih t ht fun s hs => h s ?_
      rw [subterms_app]
      exact List.mem_cons_of_mem _ (List.mem_flatMap_of_mem ht hs)

end Term

/-- **The literals that are read are those with well-formed names.**  The predicate has a name,
without an opening parenthesis and without blanks around it, and without a minus sign at the front
if the literal is positive.  All terms in the arguments, at any depth, are well named, and their
variables belong to the clause being read. -/
theorem Literal.exists_read_iff (clause : Nat) (l : Literal) :
    (∃ raw, read clause raw = .ok l) ↔
      l.predicate.toList ≠ [] ∧ '(' ∉ l.predicate.toList ∧ Trimmed l.predicate.toList ∧
        (l.positive = true → l.predicate.toList.head? ≠ some '-') ∧
        ∀ t ∈ l.args, ∀ s ∈ t.subterms, s.WellNamed clause := by
  constructor
  · rintro ⟨raw, hread⟩
    have h := legible_of_read hread
    exact ⟨h.ne_nil, h.no_parenthesis, h.trimmed, h.no_minus,
      fun t ht => Term.legible_iff_forall_subterms.1 (h.args t ht)⟩
  · rintro ⟨hne, hopen, htrimmed, hminus, hargs⟩
    -- without blanks, the literal is read from its own symbols
    have h : l.Legible clause := ⟨hne, htrimmed, hopen, hminus,
      fun t ht => Term.legible_iff_forall_subterms.2 (hargs t ht)⟩
    exact ⟨l.symbols.flatten, read_of_spaced h (.flatten l.symbols)⟩

end Refutation
