import Mathlib.Data.List.Basic
import Refutation.Proofs.Splitting
import Refutation.Source.Layout

/-!
# Symbols with blanks between them

A text of symbols with blanks around them is taken apart as its symbols are.  Trimming such a text
leaves one that begins with its first symbol, and without its blanks the text is that of its symbols
alone.

## Main definitions

* `Solid` — a symbol that begins and ends with something else than a blank.

## Main results

* `Spaced.exists_cons`, `Spaced.exists_append` — a text is taken apart as its symbols are.
* `Spaced.exists_trim` — a trimmed text begins with its first symbol.
* `Spaced.squeeze_eq` — without its blanks a text is that of its symbols.
-/

namespace Refutation

open Text

variable {c : Char} {gap gap' text : List Char} {s : Symbol} {ss ss' : List Symbol}

/-! ### Blanks on one line -/

namespace Spaces

theorem nil : Spaces [] := fun _ hc => by cases hc

theorem append (h : Spaces gap) (h' : Spaces gap') : Spaces (gap ++ gap') := by
  intro c hc
  rcases List.mem_append.1 hc with hc | hc
  · exact h c hc
  · exact h' c hc

theorem isBlank (h : Spaces gap) : ∀ c ∈ gap, Text.isBlank c = true := fun c hc => (h c hc).1

end Spaces

/-- A symbol neither begins nor ends with a blank. -/
structure Solid (s : Symbol) : Prop where
  ne_nil : s ≠ []
  trimmed : Trimmed s

/-! ### Taking apart -/

namespace Spaced

theorem spaces (h : Spaced [] text) : Spaces text := by
  cases h with
  | nil hgap => exact hgap

/-- A text begins with its first symbol, after blanks. -/
theorem exists_cons (h : Spaced (s :: ss) text) :
    ∃ gap rest, Spaces gap ∧ Spaced ss rest ∧ text = gap ++ (s ++ rest) := by
  cases h with
  | cons hgap hrest => exact ⟨_, _, hgap, hrest, List.append_assoc _ _ _⟩

/-- Blanks can follow. -/
theorem append_gap (h : Spaced ss text) (hgap : Spaces gap) : Spaced ss (text ++ gap) := by
  induction h with
  | nil hspaces => exact .nil (hspaces.append hgap)
  | cons hspaces _ ih =>
    rw [List.append_assoc]
    exact .cons hspaces ih

/-- A text is taken apart between two of its symbols. -/
theorem exists_append (h : Spaced (ss ++ ss') text) :
    ∃ pre post, Spaced ss pre ∧ Spaced ss' post ∧ text = pre ++ post := by
  induction ss generalizing text with
  | nil => exact ⟨[], text, .nil .nil, h, rfl⟩
  | cons s ss ih =>
    obtain ⟨gap, rest, hgap, hrest, rfl⟩ := h.exists_cons
    obtain ⟨pre, post, hpre, hpost, rfl⟩ := ih hrest
    exact ⟨gap ++ s ++ pre, post, .cons hgap hpre, hpost, by simp⟩

/-- The symbols can be written without blanks. -/
theorem flatten (ss : List Symbol) : Spaced ss ss.flatten := by
  induction ss with
  | nil => exact .nil .nil
  | cons s ss ih => exact .cons .nil ih

/-! ### What a text is made of -/

/-- What is no blank of a line stands in a symbol. -/
theorem notMem (h : Spaced ss text) (hc : isBlank c = false ∨ c = '\n') (hss : ∀ s ∈ ss, c ∉ s) :
    c ∉ text := by
  have hgap : ∀ {gap : List Char}, Spaces gap → c ∉ gap := by
    intro gap hgap hmem
    obtain ⟨hblank, hline⟩ := hgap c hmem
    rcases hc with hc | hc
    · rw [hc] at hblank
      cases hblank
    · exact hline hc
  induction h with
  | nil hspaces => exact hgap hspaces
  | cons hspaces _ ih =>
    obtain ⟨hs, hss⟩ := List.forall_mem_cons.1 hss
    rw [List.mem_append, List.mem_append, not_or, not_or]
    exact ⟨⟨hgap hspaces, hs⟩, ih hss⟩

theorem subset_of_mem (h : Spaced ss text) (hs : s ∈ ss) : s ⊆ text := by
  induction h with
  | nil => cases hs
  | cons _ _ ih =>
    rcases List.mem_cons.1 hs with rfl | hs
    · exact fun c hc => List.mem_append_left _ (List.mem_append_right _ hc)
    · exact fun c hc => List.mem_append_right _ (ih hs hc)

/-- Without its blanks a text is that of its symbols. -/
theorem squeeze_eq (h : Spaced ss text) : squeeze text = squeeze ss.flatten := by
  induction h with
  | nil hgap => exact squeeze_eq_nil hgap.isBlank
  | cons hgap _ ih =>
    rw [squeeze_append, squeeze_append, squeeze_eq_nil hgap.isBlank, ih, List.flatten_cons,
      squeeze_append]
    rfl

/-! ### Trimming -/

/-- Blanks at the end can be dropped. -/
theorem trimEnd (h : Spaced ss text) (hss : ∀ s ∈ ss, Solid s) : Spaced ss (trimEnd text) := by
  induction h with
  | @nil gap hgap =>
    have hnil : Text.trimEnd ([] ++ gap) = [] := trimEnd_append_of_blank hgap.isBlank
    rw [List.nil_append] at hnil
    rw [hnil]
    exact .nil .nil
  | @cons gap text s ss hgap _ ih =>
    obtain ⟨hs, hss⟩ := List.forall_mem_cons.1 hss
    have hlast : ∀ c, (gap ++ s).getLast? = some c → isBlank c = false := by
      intro c hc
      rw [List.getLast?_append_of_ne_nil _ hs.ne_nil] at hc
      exact hs.trimmed.last c hc
    rw [trimEnd_append hlast]
    exact .cons hgap (ih hss)

/-- A trimmed text begins with its first symbol. -/
theorem exists_trim (h : Spaced (s :: ss) text) (hss : ∀ s' ∈ s :: ss, Solid s') :
    ∃ rest, Spaced ss rest ∧ trim text = s ++ rest := by
  obtain ⟨gap, rest, hgap, hrest, rfl⟩ := h.exists_cons
  obtain ⟨hs, hss⟩ := List.forall_mem_cons.1 hss
  have hhead : ∀ c, (s ++ rest).head? = some c → isBlank c = false := by
    intro c hc
    rw [List.head?_append_of_ne_nil _ hs.ne_nil] at hc
    exact hs.trimmed.head c hc
  refine ⟨Text.trimEnd rest, hrest.trimEnd hss, ?_⟩
  rw [trim_append_of_blank hgap.isBlank hhead, trimEnd_append hs.trimmed.last]

end Spaced
end Refutation
