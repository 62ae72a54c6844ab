import Refutation.Source.Term

/-!
# Argument lists taken apart and put together

Text in which every parenthesis is closed again, and which has a comma only inside parentheses, stays
in one piece wherever it stands in an argument list.  So arguments that are joined by commas come
apart again where they were joined.  What an argument list comes apart into is in one piece itself,
and blanks make no difference to any of this.

## Main definitions

* `before` — a text put before the first part.
* `Whole`, `WholeInside` — a text stays in one piece, anywhere or inside parentheses.

## Main results

* `splitArguments_intercalate` — joined arguments come apart where they were joined.
* `splitArguments_squeeze` — blanks do not matter.
* `splitAtDepth_of_mem` — a part is in one piece.
-/

namespace Refutation

open Text

/-! ### Joined lists -/

section Joined

variable {α : Type} {a x : α} {l : List α} {ls : List (List α)}

/-- The members of a joined list stand in it. -/
theorem sublist_intercalate (hl : l ∈ ls) : l.Sublist ([a].intercalate ls) := by
  induction ls with
  | nil => cases hl
  | cons l' ls ih =>
    cases ls with
    | nil =>
      have heq : l = l' := by simpa using hl
      simp [heq]
    | cons m ls =>
      rw [List.intercalate_cons_cons]
      rcases List.mem_cons.1 hl with rfl | hl
      · exact (List.sublist_append_left l [a]).trans (List.sublist_append_left _ _)
      · exact (ih hl).trans (List.sublist_append_right _ _)

theorem mem_intercalate_of_mem (hl : l ∈ ls) (hx : x ∈ l) : x ∈ [a].intercalate ls :=
  (sublist_intercalate hl).subset hx

theorem eq_or_mem_of_mem_intercalate (h : x ∈ [a].intercalate ls) : x = a ∨ ∃ l ∈ ls, x ∈ l := by
  induction ls with
  | nil => cases h
  | cons l ls ih =>
    cases ls with
    | nil =>
      rw [List.intercalate_singleton] at h
      exact Or.inr ⟨l, List.mem_cons_self, h⟩
    | cons m ls =>
      rw [List.intercalate_cons_cons, List.mem_append, List.mem_append, List.mem_singleton] at h
      rcases h with (h | h) | h
      · exact Or.inr ⟨l, List.mem_cons_self, h⟩
      · exact Or.inl h
      · rcases ih h with h | ⟨k, hk, hx⟩
        · exact Or.inl h
        · exact Or.inr ⟨k, List.mem_cons_of_mem l hk, hx⟩

theorem exists_intercalate_cons (a : α) (l : List α) (ls : List (List α)) :
    ∃ rest, [a].intercalate (l :: ls) = l ++ rest := by
  cases ls with
  | nil => exact ⟨[], by rw [List.intercalate_singleton, List.append_nil]⟩
  | cons m ls => exact ⟨_, by rw [List.intercalate_cons_cons, List.append_assoc]⟩

variable [BEq α] [LawfulBEq α]

/-- A piece is made of what stands in the whole. -/
theorem sublist_of_mem_splitOn {xs : List α} (h : l ∈ xs.splitOn a) : l.Sublist xs := by
  have hjoin : [a].intercalate (xs.splitOn a) = xs := List.intercalate_splitOn a
  have hsub : l.Sublist ([a].intercalate (xs.splitOn a)) := sublist_intercalate h
  rwa [hjoin] at hsub

theorem subset_of_mem_splitOn {xs : List α} (h : l ∈ xs.splitOn a) : l ⊆ xs :=
  (sublist_of_mem_splitOn h).subset

/-- No piece has a separator. -/
theorem notMem_of_mem_splitOn {xs : List α} (h : l ∈ xs.splitOn a) : a ∉ l := by
  induction xs generalizing l with
  | nil =>
    rw [List.splitOn_nil, List.mem_singleton] at h
    rw [h]
    exact List.not_mem_nil
  | cons x xs ih =>
    rw [List.splitOn_cons_eq_if_modifyHead] at h
    split at h
    · rcases List.mem_cons.1 h with rfl | h
      · exact List.not_mem_nil
      · exact ih h
    · next hx =>
      cases hsplit : xs.splitOn a with
      | nil => exact absurd hsplit (List.splitOn_ne_nil a xs)
      | cons m ms =>
        rw [hsplit, List.modifyHead_cons] at h
        rw [hsplit] at ih
        rcases List.mem_cons.1 h with rfl | h
        · rw [List.mem_cons, not_or]
          refine ⟨?_, ih List.mem_cons_self⟩
          rintro rfl
          exact hx BEq.rfl
        · exact ih (List.mem_cons_of_mem m h)

end Joined

/-- The parts with a text put before the first. -/
def before (text : List Char) (parts : List Char × List (List Char)) :
    List Char × List (List Char) := (text ++ parts.1, parts.2)

variable {c : Char} {text part p q : List Char} {parts : List (List Char)} {depth : Nat}

theorem map_before_map_before (r : Except Fault (List Char × List (List Char))) :
    (r.map (before q)).map (before p) = r.map (before (p ++ q)) := by
  cases r with
  | error fault => rfl
  | ok r => simp [Except.map, before]

/-! ### One character -/

/-- The characters that count when an argument list is taken apart. -/
def IsDelimiter (c : Char) : Prop := c = '(' ∨ c = ')' ∨ c = ','

instance : DecidablePred IsDelimiter :=
  fun c => inferInstanceAs (Decidable (c = '(' ∨ c = ')' ∨ c = ','))

theorem splitAtDepth_cons (hc : ¬ IsDelimiter c) :
    splitAtDepth depth (c :: text) = (splitAtDepth depth text).map (before [c]) := by
  obtain ⟨hopen, hclose, hcomma⟩ : c ≠ '(' ∧ c ≠ ')' ∧ c ≠ ',' := by
    simpa [IsDelimiter] using hc
  rw [splitAtDepth, if_neg (by simp [hclose]), if_neg (by simp [hcomma]), nesting, if_neg hopen,
    if_neg hclose]
  rfl

theorem splitAtDepth_open :
    splitAtDepth depth ('(' :: text) = (splitAtDepth (depth + 1) text).map (before ['(']) := by
  rw [splitAtDepth, if_neg (by simp), if_neg (by simp), nesting, if_pos rfl]
  rfl

theorem splitAtDepth_close :
    splitAtDepth (depth + 1) (')' :: text) = (splitAtDepth depth text).map (before [')']) := by
  rw [splitAtDepth, if_neg (by simp), if_neg (by simp), nesting, if_neg (by simp), if_pos rfl]
  rfl

theorem splitAtDepth_comma :
    splitAtDepth (depth + 1) (',' :: text) =
      (splitAtDepth (depth + 1) text).map (before [',']) := by
  rw [splitAtDepth, if_neg (by simp), if_neg (by simp), nesting, if_neg (by simp),
    if_neg (by simp)]
  rfl

theorem splitAtDepth_zero_close : splitAtDepth 0 (')' :: text) = .error .unopened := by
  rw [splitAtDepth, if_pos (by simp)]

theorem splitAtDepth_zero_comma :
    splitAtDepth 0 (',' :: text) =
      (splitAtDepth 0 text).map fun r => ([], r.1 :: r.2) := by
  rw [splitAtDepth, if_neg (by simp), if_pos (by simp)]

/-! ### Texts in one piece -/

/-- A text stays in one piece wherever it comes. -/
def Whole (p : List Char) : Prop :=
  ∀ depth text, splitAtDepth depth (p ++ text) = (splitAtDepth depth text).map (before p)

/-- A text stays in one piece inside parentheses. -/
def WholeInside (p : List Char) : Prop :=
  ∀ depth text,
    splitAtDepth (depth + 1) (p ++ text) = (splitAtDepth (depth + 1) text).map (before p)

theorem Whole.inside (h : Whole p) : WholeInside p := fun depth => h (depth + 1)

theorem WholeInside.append (hp : WholeInside p) (hq : WholeInside q) : WholeInside (p ++ q) := by
  intro depth text
  rw [List.append_assoc, hp, hq, map_before_map_before]

theorem wholeInside_comma : WholeInside [','] := fun _ _ => splitAtDepth_comma

theorem whole_nil : Whole [] := by
  intro depth text
  rw [List.nil_append]
  cases splitAtDepth depth text with
  | error fault => rfl
  | ok r => rfl

/-- A name stays in one piece. -/
theorem whole_of_forall (h : ∀ c ∈ p, ¬ IsDelimiter c) : Whole p := by
  induction p with
  | nil => exact whole_nil
  | cons c p ih =>
    obtain ⟨hc, hp⟩ := List.forall_mem_cons.1 h
    intro depth text
    rw [List.cons_append, splitAtDepth_cons hc, ih hp, map_before_map_before]
    rfl

/-- What stands in parentheses after a name stays with it. -/
theorem Whole.app (hp : Whole p) (hq : WholeInside q) : Whole (p ++ '(' :: (q ++ [')'])) := by
  intro depth text
  have hassoc : p ++ '(' :: (q ++ [')']) ++ text = p ++ '(' :: (q ++ ')' :: text) := by simp
  rw [hassoc, hp, splitAtDepth_open, hq, splitAtDepth_close, map_before_map_before,
    map_before_map_before, map_before_map_before]
  simp

/-- Arguments that are joined stay in one piece inside parentheses. -/
theorem wholeInside_intercalate (h : ∀ p ∈ parts, Whole p) :
    WholeInside ([','].intercalate parts) := by
  induction parts with
  | nil => exact whole_nil.inside
  | cons p parts ih =>
    obtain ⟨hp, hparts⟩ := List.forall_mem_cons.1 h
    cases parts with
    | nil =>
      rw [List.intercalate_singleton]
      exact hp.inside
    | cons q parts =>
      rw [List.intercalate_cons_cons]
      exact (hp.inside.append wholeInside_comma).append (ih hparts)

/-- Arguments that are joined come apart where they were joined. -/
theorem splitArguments_intercalate (hne : parts ≠ []) (h : ∀ p ∈ parts, Whole p) :
    splitArguments ([','].intercalate parts) = .ok parts := by
  induction parts with
  | nil => exact absurd rfl hne
  | cons p parts ih =>
    obtain ⟨hp, hparts⟩ := List.forall_mem_cons.1 h
    rw [splitArguments]
    cases parts with
    | nil =>
      have hend := hp 0 []
      rw [List.append_nil] at hend
      rw [List.intercalate_singleton, hend]
      simp [splitAtDepth, Except.map, before]
    | cons q parts =>
      have hrest := ih (List.cons_ne_nil q parts) hparts
      rw [splitArguments] at hrest
      obtain ⟨r, hr, heq⟩ := map_eq_ok_iff.1 hrest
      rw [List.intercalate_cons_cons, List.append_assoc, hp, List.singleton_append,
        splitAtDepth_zero_comma, hr]
      simp [Except.map, before, heq]

/-! ### Parts -/

/-- A part is in one piece, and so are those after it. -/
theorem splitAtDepth_of_eq_ok (h : splitAtDepth depth text = .ok (part, parts)) :
    splitAtDepth depth part = .ok (part, []) ∧
      ∀ q ∈ parts, splitAtDepth 0 q = .ok (q, []) := by
  induction text generalizing depth part parts with
  | nil =>
    obtain ⟨-, rfl, rfl⟩ := splitAtDepth_nil_eq_ok h
    exact ⟨h, fun q hq => by cases hq⟩
  | cons c text ih =>
    rcases splitAtDepth_cons_eq_ok h with
      ⟨rfl, -, rfl, part', parts', hr, rfl⟩ | ⟨hclose, hcomma, part', hr, rfl⟩
    · exact ⟨rfl, List.forall_mem_cons.2 (ih hr)⟩
    · obtain ⟨hpart, hparts⟩ := ih hr
      refine ⟨?_, hparts⟩
      rw [splitAtDepth, if_neg hclose, if_neg hcomma, hpart]
      rfl

/-- A part of an argument list is in one piece. -/
theorem splitAtDepth_of_mem (h : splitArguments text = .ok parts) (hp : p ∈ parts) :
    splitAtDepth 0 p = .ok (p, []) := by
  obtain ⟨⟨part, parts'⟩, hr, rfl⟩ := map_eq_ok_iff.1 h
  obtain ⟨hpart, hparts⟩ := splitAtDepth_of_eq_ok hr
  rcases List.mem_cons.1 hp with rfl | hp
  · exact hpart
  · exact hparts p hp

theorem ne_nil_of_splitArguments (h : splitArguments text = .ok parts) : parts ≠ [] := by
  obtain ⟨r, -, rfl⟩ := map_eq_ok_iff.1 h
  exact List.cons_ne_nil _ _

/-- Before its first opening parenthesis a text in one piece has no delimiter. -/
theorem not_isDelimiter_of_whole (h : splitAtDepth 0 (p ++ text) = .ok (part, []))
    (hopen : '(' ∉ p) : ∀ c ∈ p, ¬ IsDelimiter c := by
  induction p generalizing part with
  | nil =>
    intro c hc
    cases hc
  | cons c p ih =>
    rw [List.mem_cons, not_or] at hopen
    obtain ⟨hc, hp⟩ := hopen
    have hdelim : ¬ IsDelimiter c := by
      rintro (rfl | rfl | rfl)
      · exact hc rfl
      · rw [List.cons_append, splitAtDepth_zero_close] at h
        cases h
      · -- a comma would begin another part
        rw [List.cons_append, splitAtDepth_zero_comma] at h
        obtain ⟨r, -, heq⟩ := map_eq_ok_iff.1 h
        cases heq
    rw [List.cons_append, splitAtDepth_cons hdelim] at h
    obtain ⟨⟨part', parts'⟩, hr, heq⟩ := map_eq_ok_iff.1 h
    cases heq
    exact List.forall_mem_cons.2 ⟨hdelim, ih hr hp⟩

/-! ### Blanks -/

theorem not_isDelimiter_of_isBlank (h : isBlank c = true) : ¬ IsDelimiter c := by
  rintro (rfl | rfl | rfl)
  · cases h
  · cases h
  · cases h

/-- The parts without their blanks. -/
def squeezeParts (parts : List Char × List (List Char)) : List Char × List (List Char) :=
  (squeeze parts.1, parts.2.map squeeze)

/-- Blanks do not count when a text is taken apart. -/
theorem splitAtDepth_squeeze (depth : Nat) (text : List Char) :
    splitAtDepth depth (squeeze text) = (splitAtDepth depth text).map squeezeParts := by
  induction text generalizing depth with
  | nil =>
    rw [show squeeze [] = [] from rfl, splitAtDepth]
    split
    · rfl
    · rfl
  | cons c text ih =>
    cases hc : isBlank c with
    | true =>
      rw [splitAtDepth_cons (not_isDelimiter_of_isBlank hc), squeeze,
        List.filter_cons_of_neg (by simp [hc]), ← squeeze, ih]
      cases splitAtDepth depth text with
      | error fault => rfl
      | ok r => simp [Except.map, before, squeezeParts, squeeze, hc]
    | false =>
      rw [squeeze, List.filter_cons_of_pos (by simp [hc]), ← squeeze, splitAtDepth, splitAtDepth]
      split
      · rfl
      · split
        · rw [ih]
          cases splitAtDepth 0 text with
          | error fault => rfl
          | ok r => rfl
        · rw [ih]
          cases splitAtDepth (nesting depth c) text with
          | error fault => rfl
          | ok r => simp [Except.map, squeezeParts, squeeze, hc]

/-- Blanks do not count when an argument list is taken apart. -/
theorem splitArguments_squeeze (text : List Char) :
    splitArguments (squeeze text) = (splitArguments text).map (List.map squeeze) := by
  rw [splitArguments, splitAtDepth_squeeze, splitArguments]
  cases splitAtDepth 0 text with
  | error fault => rfl
  | ok r => rfl

end Refutation
