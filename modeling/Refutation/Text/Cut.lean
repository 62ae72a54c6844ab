/-!
# Cutting a text at a mark

The text before and after the first, or the last, occurrence of a character.

## Main definitions

* `cutFirst?`, `cutLast?` — the two parts around the mark, or `none` if it does not occur.

## Main results

* `cutFirst?_eq_some_iff`, `cutLast?_eq_some_iff` — the parts and the mark make up the text, and the
  mark is not in the first part, respectively the last.
* `cutFirst?_eq_none_iff`, `cutLast?_eq_none_iff` — there are no parts only if the mark is missing.
-/

namespace Refutation
namespace Text

/-- The text before and after the first `mark`. -/
def cutFirst? (mark : Char) (text : List Char) : Option (List Char × List Char) :=
  match text.dropWhile (· != mark) with
  | [] => none
  | _ :: after => some (text.takeWhile (· != mark), after)

/-- The text before and after the last `mark`. -/
def cutLast? (mark : Char) (text : List Char) : Option (List Char × List Char) :=
  (cutFirst? mark text.reverse).map fun (after, before) => (before.reverse, after.reverse)

@[simp] theorem cutFirst?_nil (mark : Char) : cutFirst? mark [] = none := rfl

@[simp] theorem cutFirst?_cons_self (mark : Char) (text : List Char) :
    cutFirst? mark (mark :: text) = some ([], text) := by
  simp [cutFirst?]

theorem cutFirst?_cons_of_ne {mark c : Char} (h : c ≠ mark) (text : List Char) :
    cutFirst? mark (c :: text) =
      (cutFirst? mark text).map fun (before, after) => (c :: before, after) := by
  have hc : (c != mark) = true := bne_iff_ne.2 h
  simp only [cutFirst?, List.dropWhile_cons, List.takeWhile_cons, hc, if_true]
  split <;> rfl

theorem cutFirst?_eq_none_iff {mark : Char} {text : List Char} :
    cutFirst? mark text = none ↔ mark ∉ text := by
  induction text with
  | nil => simp
  | cons c text ih =>
    by_cases hc : c = mark
    · subst hc
      simp
    · simp [cutFirst?_cons_of_ne hc, ih, Ne.symm hc]

theorem cutFirst?_eq_some_iff {mark : Char} {text before after : List Char} :
    cutFirst? mark text = some (before, after) ↔
      text = before ++ mark :: after ∧ mark ∉ before := by
  induction text generalizing before with
  | nil => simp
  | cons c text ih =>
    by_cases hc : c = mark
    · subst hc
      cases before with
      | nil => simp
      | cons b before => simp +contextual
    · rw [cutFirst?_cons_of_ne hc, Option.map_eq_some_iff]
      cases before with
      | nil => simp [hc]
      | cons b before =>
        simp only [Prod.exists, Prod.mk.injEq, List.cons.injEq, List.cons_append, List.mem_cons,
          not_or]
        constructor
        · rintro ⟨before', after', h, ⟨rfl, rfl⟩, rfl⟩
          obtain ⟨rfl, hmem⟩ := ih.1 h
          exact ⟨⟨rfl, rfl⟩, Ne.symm hc, hmem⟩
        · rintro ⟨⟨rfl, rfl⟩, -, hmem⟩
          exact ⟨before, after, ih.2 ⟨rfl, hmem⟩, ⟨rfl, rfl⟩, rfl⟩

theorem cutLast?_eq_none_iff {mark : Char} {text : List Char} :
    cutLast? mark text = none ↔ mark ∉ text := by
  rw [cutLast?, Option.map_eq_none_iff, cutFirst?_eq_none_iff, List.mem_reverse]

theorem cutLast?_eq_some_iff {mark : Char} {text before after : List Char} :
    cutLast? mark text = some (before, after) ↔
      text = before ++ mark :: after ∧ mark ∉ after := by
  rw [cutLast?, Option.map_eq_some_iff]
  constructor
  · rintro ⟨⟨a, b⟩, h, heq⟩
    cases heq
    obtain ⟨htext, hmem⟩ := cutFirst?_eq_some_iff.1 h
    refine ⟨?_, by simpa using hmem⟩
    rw [← text.reverse_reverse, htext]
    simp
  · rintro ⟨rfl, hmem⟩
    refine ⟨(after.reverse, before.reverse), cutFirst?_eq_some_iff.2 ⟨by simp, by simpa⟩, by simp⟩

end Text
end Refutation
