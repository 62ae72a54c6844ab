import Refutation.Text.Cut

/-!
# Slices

A place in a text is given by its offset, the number of bytes before it, and a character takes from
one to four of them.  The piece between two offsets is there only if the first is at most the second
and both lie between characters.

## Main definitions

* `byteLength` — the number of bytes of a text.
* `IsBoundary` — an offset lies between characters, or at an end.
* `slice?` — the piece between two offsets, if it is there.
* `offsetFirst?`, `offsetLast?` — where a character stands first, and last.

## Main results

* `slice?_eq_some_iff` — what stands before and after a piece.
* `isSome_slice?_iff` — **when a piece is there**.
* `offsetFirst?_eq_some_iff`, `offsetLast?_eq_some_iff` — the text around the place.
-/

namespace Refutation
namespace Text

/-- The number of bytes of a text. -/
def byteLength : List Char → Nat
  | [] => 0
  | c :: text => c.utf8Size + byteLength text

/-- An offset lies between two characters of a text, or at one of its ends. -/
def IsBoundary (text : List Char) (offset : Nat) : Prop :=
  ∃ p, p <+: text ∧ byteLength p = offset

/-- The text before an offset and that after it, unless the offset lies inside a character or past
the end. -/
def cutAt? : Nat → List Char → Option (List Char × List Char)
  | 0, text => some ([], text)
  | _ + 1, [] => none
  | offset + 1, c :: text =>
    if c.utf8Size ≤ offset + 1 then
      (cutAt? (offset + 1 - c.utf8Size) text).map fun (before, after) => (c :: before, after)
    else none

/-- The piece of a text from one offset to another. -/
def slice? (text : List Char) (start stop : Nat) : Option (List Char) :=
  if start ≤ stop then
    (cutAt? stop text).bind fun r => (cutAt? start r.1).map Prod.snd
  else none

/-- Where `mark` stands first. -/
def offsetFirst? (mark : Char) (text : List Char) : Option Nat :=
  (cutFirst? mark text).map fun (before, _) => byteLength before

/-- Where `mark` stands last. -/
def offsetLast? (mark : Char) (text : List Char) : Option Nat :=
  (cutLast? mark text).map fun (before, _) => byteLength before

variable {c mark : Char} {text before after piece p q : List Char} {offset start stop : Nat}

/-! ### Bytes -/

@[simp] theorem byteLength_nil : byteLength [] = 0 := rfl

@[simp] theorem byteLength_cons (c : Char) (text : List Char) :
    byteLength (c :: text) = c.utf8Size + byteLength text := rfl

@[simp] theorem byteLength_append (p q : List Char) :
    byteLength (p ++ q) = byteLength p + byteLength q := by
  induction p with
  | nil => simp
  | cons c p ih => simp [ih, Nat.add_assoc]

/-- The place after a character of one byte. -/
theorem byteLength_concat (text : List Char) (h : c.utf8Size = 1) :
    byteLength (text ++ [c]) = byteLength text + 1 := by
  simp [h]

/-- There is no text without bytes but the empty one. -/
theorem byteLength_eq_zero_iff : byteLength text = 0 ↔ text = [] := by
  cases text with
  | nil => simp
  | cons c text =>
    have hpos := c.utf8Size_pos
    simp
    omega

theorem byteLength_le_of_sublist (h : p.Sublist q) : byteLength p ≤ byteLength q := by
  induction h with
  | slnil => exact Nat.le_refl _
  | cons c _ ih =>
    simp
    omega
  | cons_cons c _ ih =>
    simp
    omega

/-- Of two prefixes of a text that with fewer bytes is a prefix of the other. -/
theorem prefix_of_byteLength_le (hp : p <+: text) (hq : q <+: text)
    (h : byteLength p ≤ byteLength q) : p <+: q := by
  rcases List.prefix_or_prefix_of_prefix hp hq with hpq | ⟨r, rfl⟩
  · exact hpq
  · rw [byteLength_append] at h
    have hr : r = [] := byteLength_eq_zero_iff.1 (by omega)
    simp [hr]

/-! ### Pieces -/

theorem cutAt?_eq_some_iff :
    cutAt? offset text = some (before, after) ↔
      text = before ++ after ∧ byteLength before = offset := by
  induction text generalizing offset before with
  | nil =>
    cases offset with
    | zero => cases before <;> simp [cutAt?, eq_comm]
    | succ offset => cases before <;> simp [cutAt?]
  | cons c text ih =>
    have hpos := c.utf8Size_pos
    cases offset with
    | zero =>
      rw [cutAt?, byteLength_eq_zero_iff]
      constructor
      · rintro ⟨⟩
        exact ⟨rfl, rfl⟩
      · rintro ⟨htext, rfl⟩
        rw [htext, List.nil_append]
    | succ offset =>
      rw [cutAt?]
      split
      · next hle =>
        rw [Option.map_eq_some_iff]
        constructor
        · rintro ⟨⟨before', after'⟩, hcut, heq⟩
          cases heq
          obtain ⟨rfl, hlength⟩ := ih.1 hcut
          refine ⟨rfl, ?_⟩
          rw [byteLength_cons]
          omega
        · rintro ⟨htext, hlength⟩
          cases before with
          | nil => cases hlength
          | cons c' before =>
            cases htext
            rw [byteLength_cons] at hlength
            exact ⟨(before, after), ih.2 ⟨rfl, by omega⟩, rfl⟩
      · next hle =>
        refine iff_of_false (fun h => by cases h) ?_
        rintro ⟨htext, hlength⟩
        cases before with
        | nil => cases hlength
        | cons c' before =>
          cases htext
          rw [byteLength_cons] at hlength
          omega

/-- A piece with what stands before and after it makes up the text. -/
theorem slice?_eq_some_iff :
    slice? text start stop = some piece ↔ ∃ before after, text = before ++ (piece ++ after) ∧
      byteLength before = start ∧ byteLength (before ++ piece) = stop := by
  unfold slice?
  constructor
  · intro h
    split at h
    · obtain ⟨⟨upTo, after⟩, hstop, h⟩ := Option.bind_eq_some_iff.1 h
      obtain ⟨⟨before, piece'⟩, hstart, heq⟩ := Option.map_eq_some_iff.1 h
      cases heq
      obtain ⟨rfl, rfl⟩ := cutAt?_eq_some_iff.1 hstop
      obtain ⟨rfl, rfl⟩ := cutAt?_eq_some_iff.1 hstart
      exact ⟨before, after, List.append_assoc .., rfl, rfl⟩
    · cases h
  · rintro ⟨before, after, rfl, rfl, rfl⟩
    have hstop : cutAt? (byteLength (before ++ piece)) (before ++ (piece ++ after)) =
        some (before ++ piece, after) :=
      cutAt?_eq_some_iff.2 ⟨(List.append_assoc ..).symm, rfl⟩
    have hstart : cutAt? (byteLength before) (before ++ piece) = some (before, piece) :=
      cutAt?_eq_some_iff.2 ⟨rfl, rfl⟩
    rw [if_pos (by simp), hstop, Option.bind_some, hstart, Option.map_some]

/-- **A piece is there if its ends are in order and lie between characters.** -/
theorem isSome_slice?_iff :
    (slice? text start stop).isSome ↔
      start ≤ stop ∧ IsBoundary text start ∧ IsBoundary text stop := by
  rw [Option.isSome_iff_exists]
  constructor
  · rintro ⟨piece, h⟩
    obtain ⟨before, after, rfl, rfl, rfl⟩ := slice?_eq_some_iff.1 h
    refine ⟨by simp, ⟨before, List.prefix_append _ _, rfl⟩, ⟨before ++ piece, ?_, rfl⟩⟩
    rw [← List.append_assoc]
    exact List.prefix_append _ _
  · rintro ⟨hle, ⟨p, hp, rfl⟩, ⟨q, hq, rfl⟩⟩
    obtain ⟨piece, rfl⟩ := prefix_of_byteLength_le hp hq hle
    obtain ⟨after, rfl⟩ := hq
    exact ⟨piece, slice?_eq_some_iff.2 ⟨p, after, List.append_assoc .., rfl, rfl⟩⟩

/-! ### Places -/

theorem offsetLast?_eq_none_iff : offsetLast? mark text = none ↔ mark ∉ text := by
  rw [offsetLast?, Option.map_eq_none_iff, cutLast?_eq_none_iff]

theorem offsetFirst?_eq_some_iff :
    offsetFirst? mark text = some offset ↔ ∃ before after,
      text = before ++ mark :: after ∧ mark ∉ before ∧ byteLength before = offset := by
  simp only [offsetFirst?, Option.map_eq_some_iff, Prod.exists, cutFirst?_eq_some_iff, and_assoc]

theorem offsetLast?_eq_some_iff :
    offsetLast? mark text = some offset ↔ ∃ before after,
      text = before ++ mark :: after ∧ mark ∉ after ∧ byteLength before = offset := by
  simp only [offsetLast?, Option.map_eq_some_iff, Prod.exists, cutLast?_eq_some_iff, and_assoc]

end Text
end Refutation
