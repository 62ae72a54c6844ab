import Refutation.Proofs.Course
import Refutation.Proofs.Printed
import Refutation.Proofs.Reading

/-!
# Printed clauses are unambiguous

Names in terms come from two places.  The reader lets no mark into them, for it splits the text at
those marks, deletes blanks, and refuses underscores.  The canonical renaming makes names of a
letter and digits.  Resolving brings in no other: what a unifier binds is built of the terms of the
parents.  So every clause that is read or kept by a run can be found again from its printed form.

## Main definitions

* `Clause.IsRead`, `Clause.Arises` — a clause comes from a source text, or from a run on such
  clauses.

## Main results

* `isBareName_freshName` — new variables have bare names.
* `Equation.printable_of_solve` — a unifier of printable terms binds printable terms.
* `Clause.ResolventOn.printable` — literals of resolvents are printable.
* `Run.Next.printable`, `Saturation.Reaches.printable` — so is all that is stored.
* `Clause.unambiguous_of_arises` — **the printed form of a clause is unambiguous**.
-/

namespace Refutation

open Text

/-! ### New names -/

theorem isBareName_freshName (i : Nat) : IsBareName (freshName i) := by
  have hletter : ∀ k < 26, IsNameChar (Char.ofNat ('A'.toNat + k)) := by decide
  constructor
  · simp [toList_freshName]
  · intro c hc
    rw [toList_freshName] at hc
    rcases List.mem_cons.1 hc with rfl | hc
    · exact hletter (i % 26) (Nat.mod_lt i (by decide))
    · split at hc
      · cases hc
      · exact isNameChar_of_mem_toDigits hc

/-! ### Substitution -/

namespace Term.Printable

variable {t r : Term} {σ : Substitution}

/-- Printable terms are put into a term. -/
theorem subst {θ : Var → Term} (h : t.Printable)
    (hθ : ∀ v : Var, IsBareName v.name → (θ v).Printable) : (t.subst θ).Printable := by
  induction h with
  | @var v hname => exact hθ v hname
  | const hname => exact .const hname
  | app hname _ ih =>
    rw [subst_app]
    exact .app hname (by simpa using ih)

theorem replace (h : t.Printable) (hr : r.Printable) (v : Var) : (t.replace v r).Printable := by
  refine h.subst fun w hw => ?_
  split
  · exact hr
  · exact .var hw

theorem apply (h : t.Printable) (hσ : ∀ b ∈ σ, b.term.Printable) : (σ.apply t).Printable := by
  induction σ generalizing t with
  | nil => exact h
  | cons b σ ih =>
    obtain ⟨hb, hσ⟩ := List.forall_mem_cons.1 hσ
    rw [Substitution.apply_cons]
    exact ih (h.replace hb b.var) hσ

/-- New names are bare whatever the old ones were. -/
theorem rename_canonical (h : t.Printable) (id : Nat) (vs : List Var) :
    (t.rename (Var.canonical id vs)).Printable :=
  h.subst fun _ _ => .var (isBareName_freshName _)

end Term.Printable

/-! ### Unifiers -/

namespace Equation

/-- Both sides of an equation are printable. -/
def Printable (e : Equation) : Prop := e.left.Printable ∧ e.right.Printable

theorem printable_zip {ss ts : List Term} (hss : ∀ s ∈ ss, s.Printable)
    (hts : ∀ t ∈ ts, t.Printable) : ∀ e ∈ zip ss ts, e.Printable := by
  intro e he
  obtain ⟨hleft, hright⟩ := mem_of_mem_zip he
  exact ⟨hss _ hleft, hts _ hright⟩

/-- The parts of a printable equation are printable. -/
theorem printable_of_split {e : Equation} {parts : List Equation}
    (he : e.move = .ok (.split parts)) (h : e.Printable) : ∀ p ∈ parts, p.Printable := by
  rcases move_eq_split he with ⟨rfl, -⟩ | ⟨f, ss, ts, rfl, -, rfl⟩
  · simp
  · obtain ⟨hleft, hright⟩ := h
    cases hleft with | app _ hss => cases hright with | app _ hts => exact printable_zip hss hts

theorem printable_of_bind {e : Equation} {b : Binding} (he : e.move = .ok (.bind b))
    (h : e.Printable) : b.term.Printable := by
  rcases (move_eq_bind he).1 with rfl | rfl
  · exact h.2
  · exact h.1

/-- What is bound in solving printable equations is printable. -/
theorem printable_of_solve {es : List Equation} {σ : Substitution} (h : solve es = .ok σ)
    (hes : ∀ e ∈ es, e.Printable) : ∀ b ∈ σ, b.term.Printable := by
  induction es using solve_induction generalizing σ with
  | nil =>
    rw [solve_nil] at h
    cases h
    simp
  | error e es err he => cases (solve_error he es).symm.trans h
  | split e es parts he ih =>
    obtain ⟨hprint, hes⟩ := List.forall_mem_cons.1 hes
    rw [solve_split he] at h
    exact ih h (List.forall_mem_append.2 ⟨printable_of_split he hprint, hes⟩)
  | bind e es b he ih =>
    obtain ⟨hprint, hes⟩ := List.forall_mem_cons.1 hes
    obtain ⟨τ, hτ, rfl⟩ := eq_cons_of_solve he h
    have hb := printable_of_bind he hprint
    refine List.forall_mem_cons.2 ⟨hb, ih hτ ?_⟩
    intro e' he'
    obtain ⟨e, hmem, rfl⟩ := List.mem_map.1 he'
    exact ⟨(hes e hmem).1.replace hb b.var, (hes e hmem).2.replace hb b.var⟩

end Equation

theorem Term.printable_of_unifyAll {ss ts : List Term} {σ : Substitution}
    (h : unifyAll ss ts = .ok σ) (hss : ∀ s ∈ ss, s.Printable) (hts : ∀ t ∈ ts, t.Printable) :
    ∀ b ∈ σ, b.term.Printable := by
  unfold unifyAll at h
  split at h
  · exact Equation.printable_of_solve h (Equation.printable_zip hss hts)
  · cases h

/-! ### Resolvents -/

theorem Literal.Printable.mapArgs {l : Literal} {f : Term → Term} (h : l.Printable)
    (hf : ∀ t, t.Printable → (f t).Printable) : (l.mapArgs f).Printable where
  no_parenthesis := h.no_parenthesis
  no_bar := h.no_bar
  no_minus := h.no_minus
  args := by
    intro t ht
    obtain ⟨t, hmem, rfl⟩ := List.mem_map.1 ht
    exact hf t (h.args t hmem)

namespace Clause

variable {c d r : Clause} {l m : Literal}

/-- The literals of a candidate are those of its parents, with new names. -/
theorem printable_candidate {σ : Substitution} (hσ : ∀ b ∈ σ, b.term.Printable)
    (hc : ∀ l ∈ c.literals, l.Printable) (hd : ∀ l ∈ d.literals, l.Printable) (id : Nat) :
    ∀ l ∈ (candidate id σ c d).literals, l.Printable := by
  rw [literals_candidate]
  intro k hk
  obtain ⟨l, hl, rfl⟩ := List.mem_map.1 hk
  refine Literal.Printable.mapArgs (List.forall_mem_append.2 ⟨hc, hd⟩ l hl) fun t ht => ?_
  rw [subst_instantiation]
  exact (ht.apply hσ).rename_canonical _ _

/-- The literals of a resolvent are printable if those of its parents are. -/
theorem ResolventOn.printable (h : ResolventOn c d l m r) (hl : l ∈ c.literals)
    (hm : m ∈ d.literals) (hc : ∀ l ∈ c.literals, l.Printable)
    (hd : ∀ l ∈ d.literals, l.Printable) : ∀ k ∈ r.literals, k.Printable := by
  obtain ⟨σ, hσ, hr⟩ := h
  have hbound := Term.printable_of_unifyAll hσ (hc l hl).args (hd m hm).args
  obtain ⟨x, y, -, hperm⟩ := perm_of_cancelPair? (cancelPair?_of_cancel? hr)
  intro k hk
  refine printable_candidate hbound hc hd r.id k (hperm.mem_iff.2 ?_)
  exact List.mem_cons_of_mem x (List.mem_cons_of_mem y hk)

end Clause

/-! ### Runs -/

namespace Run

variable {r t : Run}

/-- A clause that a step keeps is printable if all that is stored is. -/
theorem Keeps.printable {c d x : Clause} (h : r.Keeps c d x)
    (hr : ∀ c ∈ r.state.store.toList, c.Printable) : x.Printable := by
  obtain ⟨haction, hkept⟩ := h
  obtain ⟨hc, hd⟩ := mem_of_action_eq_resolve haction
  obtain ⟨⟨l, m, hmem, hres⟩, -, -, hempty, -⟩ := Clause.resolventOn_of_mem_kept hkept
  obtain ⟨hl, hm, -⟩ := Clause.mem_clashingPairs.1 hmem
  refine ⟨by simpa [Clause.isEmpty] using hempty, ?_⟩
  exact hres.printable hl hm (hr c hc).literals (hr d hd).literals

/-- A step stores printable clauses. -/
theorem Next.printable (h : r.Next t) (hr : ∀ c ∈ r.state.store.toList, c.Printable) :
    ∀ c ∈ t.state.store.toList, c.Printable := by
  obtain ⟨pre, hstore, hpre⟩ := h.exists_toList
  rw [hstore]
  refine List.forall_mem_append.2 ⟨hr, fun x hx => ?_⟩
  obtain ⟨c, d, hkeeps⟩ := hpre x hx
  exact hkeeps.printable hr

end Run

/-- All that is ever stored is printable if it is at the start. -/
theorem Saturation.Reaches.printable {s : Saturation} {r : Run} (h : s.Reaches r)
    (hs : ∀ c ∈ s.store.toList, c.Printable) : ∀ c ∈ r.state.store.toList, c.Printable := by
  induction h with
  | start => exact hs
  | step _ ih => exact (Run.next_step _).printable ih
  | again _ _ ih => exact ih

/-! ### Clauses that are read -/

theorem isBareName_of_isName {name : String} (h : Term.IsName name.toList)
    (hbar : '|' ∉ name.toList) : IsBareName name where
  ne_nil := h.ne_nil
  chars c hc := ⟨h.not_blank c hc, h.not_delimiter c hc, fun heq => h.no_underscore (heq ▸ hc),
    fun heq => hbar (heq ▸ hc)⟩

/-- The symbols of an argument are among those of all arguments. -/
theorem Term.mem_arguments_of_mem {t : Term} {ts : List Term} {s : Symbol} (ht : t ∈ ts)
    (hs : s ∈ t.symbols) : s ∈ ['('] :: ([[',']].intercalate (ts.map Term.symbols) ++ [[')']]) :=
  List.mem_cons_of_mem _ (List.mem_append_left _
    (mem_intercalate_of_mem (List.mem_map_of_mem ht) hs))

/-- A legible term without a bar in it is printable. -/
theorem Term.Legible.printable {clause : Nat} {t : Term} (h : t.Legible clause)
    (hbar : ∀ s ∈ t.symbols, '|' ∉ s) : t.Printable := by
  induction h with
  | var hname _ =>
    rw [symbols_var, List.forall_mem_singleton] at hbar
    exact .var (isBareName_of_isName hname hbar)
  | const hname _ _ =>
    rw [symbols_const, List.forall_mem_singleton] at hbar
    exact .const (isBareName_of_isName hname hbar)
  | app hname _ _ _ ih =>
    rw [symbols_app, List.forall_mem_cons] at hbar
    refine .app (isBareName_of_isName hname hbar.1) fun t ht => ih t ht fun s hs => ?_
    exact hbar.2 s (mem_arguments_of_mem ht hs)

/-- A legible literal without a bar in it is printable. -/
theorem Literal.Legible.printable {clause : Nat} {l : Literal} (h : l.Legible clause)
    (hbar : ∀ s ∈ l.symbols, '|' ∉ s) : l.Printable := by
  obtain ⟨hpredicate, hargs⟩ := List.forall_mem_cons.1 (List.forall_mem_append.1 hbar).2
  refine ⟨h.no_parenthesis, hpredicate, h.no_minus, fun t ht => ?_⟩
  exact (h.args t ht).printable fun s hs => hargs s (Term.mem_arguments_of_mem ht hs)

theorem Clause.Legible.printable {c : Clause} (h : c.Legible) : c.Printable :=
  ⟨h.ne_nil, fun l hl => (h.literals l hl).printable fun s hs => (h.no_mark l hl s hs).1⟩

/-! ### Unambiguity -/

namespace Clause

/-- A clause is read from some source text. -/
def IsRead (c : Clause) : Prop :=
  ∃ (lastId : Nat) (source : List Char) (cs : List Clause),
    readClauses lastId source = .ok cs ∧ c ∈ cs

/-- A clause is read from some source text, or is stored at some step of a run on such clauses. -/
def Arises (c : Clause) : Prop :=
  c.IsRead ∨ ∃ (cs : List Clause) (lastId : Nat) (limit : Limit) (r : Run),
    (∀ d ∈ cs, d.IsRead) ∧ (Saturation.initial cs lastId limit).Reaches r ∧
      c ∈ r.state.store.toList

variable {c d : Clause}

theorem IsRead.printable (h : c.IsRead) : c.Printable := by
  obtain ⟨lastId, source, cs, hread, hc⟩ := h
  exact (legible_of_readClauses hread c hc).printable

theorem Arises.printable (h : c.Arises) : c.Printable := by
  rcases h with hread | ⟨cs, lastId, limit, r, hcs, hreach, hc⟩
  · exact hread.printable
  · exact hreach.printable (fun d hd => (hcs d hd).printable) c hc

/-- **The printed form of a clause is unambiguous.**  Of two clauses that are read from source texts
or stored in runs, with any limit and at any step, the numbers and the literals are the same if the
printed forms are. -/
theorem unambiguous_of_arises (hc : c.Arises) (hd : d.Arises) (h : c.text = d.text) :
    c.id = d.id ∧ c.literals = d.literals :=
  hc.printable.eq_of_text_eq hd.printable h

/-- The resolvent of two clauses is printed like the third clause of another source text. -/
theorem unambiguous_of_arises_two :
    ∃ cs ds : List Clause, readClauses 0 "p(a)|q(f(X),b)\n-p(Y)".toList = .ok cs ∧
      readClauses 0 "r()\nr()\nq( f(A) , b )".toList = .ok ds ∧
      ∃ c ∈ (Run.steps 4 (Run.start (Saturation.initial cs 2 .unlimited))).state.store.toList,
        ∃ d ∈ ds, c.text = "Clause 3: q(f(A_3), b)" ∧ c.text = d.text ∧ c.id = d.id ∧
          c.literals = d.literals := by
  let a : Clause := ⟨1, [⟨true, "p", [.const "a"]⟩,
    ⟨true, "q", [.app "f" [.var ⟨"X", 1⟩], .const "b"]⟩]⟩
  let b : Clause := ⟨2, [⟨false, "p", [.var ⟨"Y", 2⟩]⟩]⟩
  let e : Clause := ⟨3, [⟨true, "q", [.app "f" [.var ⟨"A", 3⟩], .const "b"]⟩]⟩
  have hcs : readClauses 0 "p(a)|q(f(X),b)\n-p(Y)".toList = .ok [a, b] :=
    eq_ok_of_toOption (by decide +kernel)
  have hds : readClauses 0 "r()\nr()\nq( f(A) , b )".toList =
      .ok [⟨1, [⟨true, "r", []⟩]⟩, ⟨2, [⟨true, "r", []⟩]⟩, e] :=
    eq_ok_of_toOption (by decide +kernel)
  have hstored : e ∈ (Run.steps 4 (Run.start
      (Saturation.initial [a, b] 2 .unlimited))).state.store.toList := by decide +kernel
  have hread : ∀ x ∈ [a, b], x.IsRead := fun x hx => ⟨0, _, _, hcs, hx⟩
  have hderived : e.Arises :=
    Or.inr ⟨_, _, _, _, hread, Saturation.Reaches.start.steps 4, hstored⟩
  have hwritten : e.Arises := Or.inl ⟨0, _, _, hds, by simp⟩
  refine ⟨_, _, hcs, hds, e, hstored, e, by simp, by decide +kernel, rfl, ?_⟩
  exact unambiguous_of_arises hderived hwritten rfl

end Clause
end Refutation
