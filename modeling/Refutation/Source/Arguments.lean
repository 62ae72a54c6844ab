import Refutation.Source.Fault

/-!
# Splitting an argument list

The arguments of a predicate or function are separated by the commas that stand outside all
parentheses.  A text splits exactly if its parentheses balance; a closing parenthesis too many is
found as soon as it is met, one that is missing only at the end.

## Main definitions

* `splitArguments` — the parts between the outer commas.
* `Balanced` — every prefix closes at most what it opened, and the whole closes all of it.

## Main results

* `splitAtDepth_cons_eq_ok` — what one character does.
* `sublist_of_mem_splitArguments` — a part is made of characters of the text, and so
  `length_le_of_mem_splitArguments`: it is never longer than the text.
-/

namespace Refutation

/-- A text is balanced when no prefix closes more parentheses than it opens, and the whole text
closes all of them. -/
def Balanced (text : List Char) : Prop :=
  (∀ p, p <+: text → p.count ')' ≤ p.count '(') ∧ text.count ')' = text.count '('

/-- The number of open parentheses after one more character. -/
def nesting (depth : Nat) (c : Char) : Nat :=
  if c = '(' then depth + 1 else if c = ')' then depth - 1 else depth

/-- The first part of a text that is read inside `depth` open parentheses, and the parts after
it. -/
def splitAtDepth : Nat → List Char → Except Fault (List Char × List (List Char))
  | depth, [] => if depth = 0 then .ok ([], []) else .error .unclosed
  | depth, c :: text =>
    if depth = 0 ∧ c = ')' then .error .unopened
    else if depth = 0 ∧ c = ',' then
      (splitAtDepth 0 text).map fun (part, parts) => ([], part :: parts)
    else (splitAtDepth (nesting depth c) text).map fun (part, parts) => (c :: part, parts)

/-- The parts of a text between its outer commas; there is always at least one. -/
def splitArguments (text : List Char) : Except Fault (List (List Char)) :=
  (splitAtDepth 0 text).map fun (part, parts) => part :: parts

variable {c : Char} {depth : Nat} {text part q : List Char} {parts : List (List Char)}

/-- All parentheses are closed where a text ends that splits. -/
theorem splitAtDepth_nil_eq_ok (h : splitAtDepth depth [] = .ok (part, parts)) :
    depth = 0 ∧ part = [] ∧ parts = [] := by
  rw [splitAtDepth] at h
  split at h
  · next hdepth =>
    cases h
    exact ⟨hdepth, rfl, rfl⟩
  · cases h

/-- A comma outside all parentheses ends the first part, and any other character belongs to it. -/
theorem splitAtDepth_cons_eq_ok (h : splitAtDepth depth (c :: text) = .ok (part, parts)) :
    (depth = 0 ∧ c = ',' ∧ part = [] ∧
      ∃ part' parts', splitAtDepth 0 text = .ok (part', parts') ∧ parts = part' :: parts') ∨
    (¬ (depth = 0 ∧ c = ')') ∧ ¬ (depth = 0 ∧ c = ',') ∧
      ∃ part', splitAtDepth (nesting depth c) text = .ok (part', parts) ∧ part = c :: part') := by
  rw [splitAtDepth] at h
  split at h
  · cases h
  · next hclose =>
    split at h
    · next hcomma =>
      obtain ⟨⟨part', parts'⟩, hr, heq⟩ := map_eq_ok_iff.1 h
      cases heq
      exact Or.inl ⟨hcomma.1, hcomma.2, rfl, part', parts', hr, rfl⟩
    · next hcomma =>
      obtain ⟨⟨part', parts'⟩, hr, heq⟩ := map_eq_ok_iff.1 h
      cases heq
      exact Or.inr ⟨hclose, hcomma, part', hr, rfl⟩

/-- The parts are made of the characters of the text, in their order. -/
theorem sublist_of_splitAtDepth (h : splitAtDepth depth text = .ok (part, parts)) :
    ∀ q ∈ part :: parts, q.Sublist text := by
  induction text generalizing depth part parts with
  | nil =>
    obtain ⟨-, rfl, rfl⟩ := splitAtDepth_nil_eq_ok h
    exact List.forall_mem_singleton.2 (List.Sublist.refl _)
  | cons c text ih =>
    rcases splitAtDepth_cons_eq_ok h with
      ⟨-, -, rfl, part', parts', hr, rfl⟩ | ⟨-, -, part', hr, rfl⟩
    · refine List.forall_mem_cons.2 ⟨List.nil_sublist _, ?_⟩
      exact fun q hq => (ih hr q hq).cons c
    · obtain ⟨hpart, hparts⟩ := List.forall_mem_cons.1 (ih hr)
      exact List.forall_mem_cons.2 ⟨hpart.cons_cons c, fun q hq => (hparts q hq).cons c⟩

theorem sublist_of_mem_splitArguments (h : splitArguments text = .ok parts) (hq : q ∈ parts) :
    q.Sublist text := by
  obtain ⟨⟨part, parts'⟩, hr, rfl⟩ := map_eq_ok_iff.1 h
  exact sublist_of_splitAtDepth hr q hq

/-- A part is never longer than the text. -/
theorem length_le_of_mem_splitArguments (h : splitArguments text = .ok parts) (hq : q ∈ parts) :
    q.length ≤ text.length :=
  (sublist_of_mem_splitArguments h hq).length_le

end Refutation
