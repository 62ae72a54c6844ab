import Refutation.Proofs.Legible
import Refutation.Proofs.Unifier

/-!
# Balanced parentheses

A text that stands inside some open parentheses leads from their number to another, as long as it
does not close more than are open.  Texts lead on from one another.  An argument list that can be
taken apart leads from the open parentheses to none.  A literal is different in one respect: its name
ends at the first opening parenthesis, and nothing keeps a closing one out of it.  Such parentheses
are all that a literal can have too many.

## Main definitions

* `Leads` — a text leads from a number of open parentheses to another.

## Main results

* `leads_of_splitAtDepth` — an argument list closes the parentheses that it stands in.
* `Literal.leads_of_read` — a literal closes what it opens, and what its name closes.
* `balanced_iff_of_read` — **a literal that is read is balanced but for its name**.
-/

namespace Refutation

open Text

/-- A text leads from `d` open parentheses to `e` of them, and never closes one that is not open. -/
structure Leads (d e : Nat) (text : List Char) : Prop where
  /-- No prefix closes more than are open. -/
  le : ∀ p, p <+: text → p.count ')' ≤ d + p.count '('
  /-- What is open at the end. -/
  eq : d + text.count '(' = e + text.count ')'

variable {c : Char} {d e f k : Nat} {text text' part : List Char} {parts : List (List Char)}

/-- A character in front opens and closes what its step does to the number of open parentheses. -/
theorem add_count_cons (hclose : ¬ (d = 0 ∧ c = ')')) (text : List Char) :
    d + (c :: text).count '(' + text.count ')' =
      nesting d c + text.count '(' + (c :: text).count ')' := by
  unfold nesting
  by_cases hopen : c = '('
  · simp [hopen]
    omega
  · by_cases hc : c = ')'
    · simp [hc] at hclose ⊢
      omega
    · simp [hopen, hc]

/-- A text is balanced if it leads from no open parentheses to none. -/
theorem balanced_iff_leads : Balanced text ↔ Leads 0 0 text := by
  constructor
  · rintro ⟨hle, heq⟩
    exact ⟨fun p hp => by simpa using hle p hp, by omega⟩
  · rintro ⟨hle, heq⟩
    exact ⟨fun p hp => by simpa using hle p hp, by omega⟩

namespace Leads

theorem nil : Leads d d [] where
  le := by simp
  eq := rfl

/-- One more character in front. -/
theorem cons (hclose : ¬ (d = 0 ∧ c = ')')) (h : Leads (nesting d c) e text) :
    Leads d e (c :: text) where
  le := by
    intro p hp
    rcases List.prefix_cons_iff.1 hp with rfl | ⟨p, rfl, hp'⟩
    · simp
    · have hle := h.le p hp'
      have hopen := add_count_cons hclose p
      omega
  eq := by
    have heq := h.eq
    have hopen := add_count_cons hclose text
    omega

/-- Texts lead on from one another. -/
theorem append (h : Leads d e text) (h' : Leads e f text') : Leads d f (text ++ text') := by
  have heq := h.eq
  constructor
  · intro p hp
    rcases List.prefix_or_prefix_of_prefix hp (List.prefix_append text text') with hp' | ⟨q, rfl⟩
    · exact h.le p hp'
    · have hle := h'.le q ((List.prefix_append_right_inj text).1 hp)
      rw [List.count_append, List.count_append]
      omega
  · have heq' := h'.eq
    rw [List.count_append, List.count_append]
    omega

/-- What a text does it does inside more parentheses too. -/
theorem add (h : Leads d e text) (k : Nat) : Leads (d + k) (e + k) text where
  le := by
    intro p hp
    have hle := h.le p hp
    omega
  eq := by
    have heq := h.eq
    omega

/-- A text without opening parentheses needs as many open ones as it closes. -/
theorem of_notMem_open (h : '(' ∉ text) : Leads (text.count ')') 0 text where
  le := by
    intro p hp
    have hle := hp.count_le ')'
    omega
  eq := by
    rw [List.count_eq_zero.2 h]
    omega

/-- A text without parentheses changes nothing. -/
theorem of_notMem (hopen : '(' ∉ text) (hclose : ')' ∉ text) : Leads d d text := by
  have h := (of_notMem_open hopen).add d
  rwa [List.count_eq_zero.2 hclose, Nat.zero_add] at h

theorem of_isBlank (h : ∀ c ∈ text, isBlank c = true) : Leads d d text := by
  have hno : ∀ {c : Char}, IsDelimiter c → c ∉ text :=
    fun hc hmem => not_isDelimiter_of_isBlank (h _ hmem) hc
  exact of_notMem (hno (Or.inl rfl)) (hno (Or.inr (Or.inl rfl)))

/-- A text that closes parentheses of others is not balanced. -/
theorem balanced_iff (h : Leads k 0 text) : Balanced text ↔ k = 0 := by
  constructor
  · intro hbalanced
    have heq := h.eq
    have htotal := hbalanced.2
    omega
  · rintro rfl
    exact balanced_iff_leads.2 h

end Leads

/-! ### Argument lists -/

/-- A text that can be taken apart closes the parentheses that it stands in. -/
theorem leads_of_splitAtDepth (h : splitAtDepth d text = .ok (part, parts)) : Leads d 0 text := by
  induction text generalizing d part parts with
  | nil =>
    obtain ⟨rfl, -, -⟩ := splitAtDepth_nil_eq_ok h
    exact .nil
  | cons c text ih =>
    rcases splitAtDepth_cons_eq_ok h with ⟨rfl, rfl, -, _, _, hr, -⟩ | ⟨hclose, -, _, hr, -⟩
    · exact .cons (by simp) (ih hr)
    · exact .cons hclose (ih hr)

theorem leads_of_splitArguments (h : splitArguments text = .ok parts) : Leads 0 0 text := by
  obtain ⟨⟨part, parts'⟩, hr, -⟩ := map_eq_ok_iff.1 h
  exact leads_of_splitAtDepth hr

/-! ### Literals -/

/-- Trimming takes no character away but blanks. -/
theorem count_trim (hc : isBlank c = false) (text : List Char) :
    (trim text).count c = text.count c := by
  obtain ⟨pre, post, hpre, hpost, htext⟩ := exists_eq_trim text
  have hnone : ∀ {gap : List Char}, (∀ c ∈ gap, isBlank c = true) → gap.count c = 0 := by
    intro gap hgap
    refine List.count_eq_zero.2 fun hmem => ?_
    rw [hgap c hmem] at hc
    cases hc
  conv_rhs => rw [htext]
  rw [List.count_append, List.count_append, hnone hpre, hnone hpost]
  omega

namespace Literal

variable {clause : Nat} {raw head name inside : List Char} {positive : Bool} {l : Literal}
  {ts : List Term}

/-- The name has the closing parentheses of the text that it is read from. -/
theorem count_readName (h : readName head = (positive, name)) :
    name.count ')' = head.count ')' := by
  have hblank : isBlank ')' = false := by decide
  rcases readName_eq h with ⟨-, rest, rfl, rfl⟩ | ⟨-, -, rfl⟩
  · rw [count_trim hblank, List.count_cons_of_ne (by decide)]
  · exact count_trim hblank head

theorem leads_of_readArgs (h : readArgs clause inside = .ok ts) : Leads 0 0 inside := by
  rcases readArgs_eq_ok_iff.1 h with ⟨hblank, -⟩ | ⟨-, hall⟩
  · exact .of_isBlank hblank
  · obtain ⟨parts, hparts, -⟩ := Term.readAll_eq_ok_iff.1 hall
    exact leads_of_splitArguments hparts

/-- A literal that is read closes what it opens, and besides what its name closes. -/
theorem leads_of_read (h : read clause raw = .ok l) :
    Leads (l.predicate.toList.count ')') 0 raw := by
  obtain ⟨head, inside, htext, hopen, hname, -, hargs⟩ := read_eq_ok_iff.1 h
  obtain ⟨pre, post, hpre, hpost, hraw⟩ := exists_eq_trim raw
  have hhead : Leads (head.count ')') 0 head := .of_notMem_open hopen
  have hinside : Leads 1 1 inside := (leads_of_readArgs hargs).add 1
  have hrest : Leads 0 0 ('(' :: (inside ++ [')'])) :=
    .cons (by simp) (hinside.append (.cons (by simp) .nil))
  rw [count_readName hname, hraw, htext]
  exact Leads.append (.of_isBlank hpre) ((hhead.append hrest).append (.of_isBlank hpost))

/-- A literal that is read is balanced if its name has no closing parenthesis. -/
theorem balanced_iff_notMem (h : read clause raw = .ok l) :
    Balanced raw ↔ ')' ∉ l.predicate.toList :=
  (leads_of_read h).balanced_iff.trans List.count_eq_zero

end Literal

/-! ### Source texts -/

/-- **A literal that is read is balanced but for its name.**  Parentheses are closed that were never
opened as often as the name of the predicate has a closing one, and nowhere else.  So the text of a
literal is balanced exactly if the name has none.  The same goes for the literals on all lines of a
source text. -/
theorem balanced_iff_of_read (text : List Char) (n : Nat) :
    (∀ l : Literal, Literal.read n text = .ok l →
      (∀ p, p <+: text → p.count ')' ≤ l.predicate.toList.count ')' + p.count '(') ∧
      text.count ')' = l.predicate.toList.count ')' + text.count '(' ∧
      (Balanced text ↔ ')' ∉ l.predicate.toList)) ∧
    ∀ cs : List Clause, readClauses n text = .ok cs →
      List.Forall₂ (fun line c => List.Forall₂
        (fun raw l => Balanced raw ↔ ')' ∉ l.predicate.toList) (line.text.splitOn '|') c.literals)
        (liveLines text) cs := by
  refine ⟨?_, ?_⟩
  · intro l h
    have hleads := Literal.leads_of_read h
    have heq := hleads.eq
    exact ⟨hleads.le, by omega, Literal.balanced_iff_notMem h⟩
  · intro cs h
    refine (forall₂_of_readClauses h).imp ?_
    intro line c hread
    refine (Clause.forall₂_of_read hread).imp ?_
    intro raw l hl
    exact Literal.balanced_iff_notMem hl

/-- The names of these literals have no parenthesis, so both are balanced. -/
theorem balanced_of_read_two :
    let raw := "p(f(a, g(X)), b)".toList
    let source := "% r)\n\n -p(f(a)) | q()".toList
    (∃ l, Literal.read 1 raw = .ok l ∧ ')' ∉ l.predicate.toList ∧ Balanced raw) ∧
      ∃ cs, readClauses 0 source = .ok cs ∧
        List.Forall₂ (fun line c => List.Forall₂
          (fun raw l => Balanced raw ↔ ')' ∉ l.predicate.toList) (line.text.splitOn '|') c.literals)
          (liveLines source) cs := by
  intro raw source
  have hl : Literal.read 1 raw =
      .ok ⟨true, "p", [.app "f" [.const "a", .app "g" [.var ⟨"X", 1⟩]], .const "b"]⟩ :=
    eq_ok_of_toOption (by decide +kernel)
  have hcs : readClauses 0 source =
      .ok [⟨1, [⟨false, "p", [.app "f" [.const "a"]]⟩, ⟨true, "q", []⟩]⟩] :=
    eq_ok_of_toOption (by decide +kernel)
  refine ⟨⟨_, hl, by decide, ?_⟩, ⟨_, hcs, (balanced_iff_of_read source 0).2 _ hcs⟩⟩
  exact ((balanced_iff_of_read raw 1).1 _ hl).2.2.2 (by decide)

/-- A name with a closing parenthesis is read, and the text of the literal is not balanced. -/
theorem not_balanced_closing_name :
    ∃ l, Literal.read 1 "p)(a)".toList = .ok l ∧ ¬ Balanced "p)(a)".toList := by
  have hl : Literal.read 1 "p)(a)".toList = .ok ⟨true, "p)", [.const "a"]⟩ :=
    eq_ok_of_toOption (by decide +kernel)
  refine ⟨_, hl, ?_⟩
  rintro ⟨-, heq⟩
  exact absurd heq (by decide)

end Refutation
