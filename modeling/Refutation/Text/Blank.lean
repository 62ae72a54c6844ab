/-!
# Blanks

A blank is a character of the Unicode property *White_Space*.  Zero-width marks are no blanks.
Text is a list of characters here; strings are opened up before they are read and closed when a
name is made.

## Main definitions

* `isBlank` — the test.
* `trim` — a text without the blanks around it.
* `squeeze` — a text without any blank.
* `Trimmed` — no blank stands at either end.

## Main results

* `trimmed_trim`, `Trimmed.trim_append` — trimming leaves a trimmed text, and it leaves such a text as
  it is, whatever blanks stand around it.
* `exists_eq_trim` — a text is what is left of it, between blanks.
* `trim_eq_nil_iff` — nothing is left of blanks alone.
-/

namespace Refutation
namespace Text

/-- Whether a character has the property *White_Space*. -/
def isBlank (c : Char) : Bool :=
  let n := c.toNat
  (0x09 ≤ n && n ≤ 0x0D) || n == 0x20 || n == 0x85 || n == 0xA0 || n == 0x1680 ||
    (0x2000 ≤ n && n ≤ 0x200A) || n == 0x2028 || n == 0x2029 || n == 0x202F || n == 0x205F ||
    n == 0x3000

/-- Drop the blanks at the end. -/
def trimEnd (text : List Char) : List Char := (text.reverse.dropWhile isBlank).reverse

/-- Drop the blanks at both ends. -/
def trim (text : List Char) : List Char := trimEnd (text.dropWhile isBlank)

/-- Delete every blank. -/
def squeeze (text : List Char) : List Char := text.filter fun c => !isBlank c

/-! ### Trimming -/

/-- No blank stands at either end. -/
structure Trimmed (text : List Char) : Prop where
  head : ∀ c, text.head? = some c → isBlank c = false
  last : ∀ c, text.getLast? = some c → isBlank c = false

variable {text pre post : List Char} {c : Char}

theorem dropWhile_eq_self (h : ∀ c, text.head? = some c → isBlank c = false) :
    text.dropWhile isBlank = text := by
  cases text with
  | nil => rfl
  | cons c rest => simp [h c rfl]

theorem dropWhile_eq_nil (h : ∀ c ∈ text, isBlank c = true) : text.dropWhile isBlank = [] := by
  have hnil : (text ++ []).dropWhile isBlank = [] := List.dropWhile_append_of_pos h
  rwa [List.append_nil] at hnil

theorem head?_dropWhile (h : (text.dropWhile isBlank).head? = some c) : isBlank c = false := by
  have hnot := List.head?_dropWhile_not isBlank text
  rw [h] at hnot
  exact hnot

/-- Blanks at the end do not count. -/
theorem trimEnd_append_of_blank (hpost : ∀ c ∈ post, isBlank c = true) :
    trimEnd (text ++ post) = trimEnd text := by
  rw [trimEnd, List.reverse_append, List.dropWhile_append_of_pos, trimEnd]
  simpa using hpost

/-- What comes after a character that is not blank is trimmed by itself. -/
theorem trimEnd_append (h : ∀ c, text.getLast? = some c → isBlank c = false) :
    trimEnd (text ++ post) = text ++ trimEnd post := by
  have htext : text.reverse.dropWhile isBlank = text.reverse :=
    dropWhile_eq_self (by simpa using h)
  rw [trimEnd, List.reverse_append, List.dropWhile_append]
  split
  · next hpost => simp [trimEnd, htext, List.isEmpty_iff.1 hpost]
  · simp [trimEnd]

theorem trimEnd_eq_self (h : ∀ c, text.getLast? = some c → isBlank c = false) :
    trimEnd text = text := by
  have happend : trimEnd (text ++ []) = text ++ [] := trimEnd_append h
  rwa [List.append_nil] at happend

/-- Blanks at the beginning do not count. -/
theorem trim_append_of_blank (hpre : ∀ c ∈ pre, isBlank c = true)
    (h : ∀ c, text.head? = some c → isBlank c = false) : trim (pre ++ text) = trimEnd text := by
  rw [trim, List.dropWhile_append_of_pos hpre, dropWhile_eq_self h]

/-- Trimming leaves a trimmed text as it is, whatever blanks stand around it. -/
theorem Trimmed.trim_append (h : Trimmed text) (hpre : ∀ c ∈ pre, isBlank c = true)
    (hpost : ∀ c ∈ post, isBlank c = true) : trim (pre ++ (text ++ post)) = text := by
  cases text with
  | nil =>
    rw [trim, List.dropWhile_append_of_pos hpre, List.nil_append, dropWhile_eq_nil hpost]
    rfl
  | cons c rest =>
    have hhead : ∀ c', (c :: rest ++ post).head? = some c' → isBlank c' = false := h.head
    rw [trim_append_of_blank hpre hhead, trimEnd_append_of_blank hpost, trimEnd_eq_self h.last]

/-- Trimming leaves a trimmed text. -/
theorem trimmed_trim (text : List Char) : Trimmed (trim text) := by
  constructor
  · intro c hc
    -- the trimmed text begins as the text does after its first blanks
    have hprefix : trim text <+: text.dropWhile isBlank := by
      rw [← List.reverse_suffix, trim, trimEnd, List.reverse_reverse]
      exact List.dropWhile_suffix isBlank
    obtain ⟨rest, hrest⟩ := hprefix
    have hhead : (text.dropWhile isBlank).head? = some c := by
      rw [← hrest, List.head?_append, hc]
      rfl
    exact head?_dropWhile hhead
  · intro c hc
    rw [trim, trimEnd, List.getLast?_reverse] at hc
    exact head?_dropWhile hc

/-- A text that does not begin with a blank begins in the same way when it is trimmed. -/
theorem head?_trim (h : text.head? = some c) (hc : isBlank c = false) :
    (trim text).head? = some c := by
  cases text with
  | nil => cases h
  | cons c' rest =>
    cases h
    have hend : ∀ c', [c].getLast? = some c' → isBlank c' = false := by simp [hc]
    rw [trim, dropWhile_eq_self (by simpa using hc), ← List.singleton_append, trimEnd_append hend]
    rfl

/-- A text without blanks is trimmed. -/
theorem trimmed_of_forall (h : ∀ c ∈ text, isBlank c = false) : Trimmed text :=
  ⟨fun c hc => h c (List.mem_of_mem_head? hc), fun c hc => h c (List.mem_of_mem_getLast? hc)⟩

theorem mem_of_mem_trim (h : c ∈ trim text) : c ∈ text := by
  rw [trim, trimEnd, List.mem_reverse] at h
  have hmem := (List.dropWhile_sublist isBlank).subset h
  exact (List.dropWhile_sublist isBlank).subset (List.mem_reverse.1 hmem)

/-- Trimming takes blanks away at both ends and nothing else. -/
theorem exists_eq_trim (text : List Char) :
    ∃ pre post, (∀ c ∈ pre, isBlank c = true) ∧ (∀ c ∈ post, isBlank c = true) ∧
      text = pre ++ (trim text ++ post) := by
  have hblank : ∀ {text : List Char}, ∀ c ∈ text.takeWhile isBlank, isBlank c = true :=
    List.all_eq_true.1 List.all_takeWhile
  refine ⟨text.takeWhile isBlank, ((text.dropWhile isBlank).reverse.takeWhile isBlank).reverse,
    hblank, fun c hc => hblank c (List.mem_reverse.1 hc), ?_⟩
  rw [trim, trimEnd, ← List.reverse_append, List.takeWhile_append_dropWhile, List.reverse_reverse,
    List.takeWhile_append_dropWhile]

theorem length_trim_le (text : List Char) : (trim text).length ≤ text.length := by
  obtain ⟨pre, post, -, -, htext⟩ := exists_eq_trim text
  have hlength := congrArg List.length htext
  simp at hlength
  omega

/-- Nothing is left of blanks alone. -/
theorem trim_eq_nil_iff : trim text = [] ↔ ∀ c ∈ text, isBlank c = true := by
  constructor
  · intro h
    induction text with
    | nil => simp
    | cons c rest ih =>
      cases hc : isBlank c with
      | false =>
        have hhead : (trim (c :: rest)).head? = some c := head?_trim rfl hc
        rw [h] at hhead
        cases hhead
      | true =>
        rw [trim, List.dropWhile_cons_of_pos hc] at h
        exact List.forall_mem_cons.2 ⟨hc, ih h⟩
  · intro h
    rw [trim, dropWhile_eq_nil h]
    rfl

/-! ### Deleting blanks -/

theorem length_squeeze_le (text : List Char) : (squeeze text).length ≤ text.length :=
  List.length_filter_le _ _

theorem mem_squeeze : c ∈ squeeze text ↔ c ∈ text ∧ isBlank c = false := by
  simp [squeeze]

@[simp] theorem squeeze_append (text post : List Char) :
    squeeze (text ++ post) = squeeze text ++ squeeze post := List.filter_append _ _

theorem squeeze_cons (h : isBlank c = false) (text : List Char) :
    squeeze (c :: text) = c :: squeeze text := by
  simp [squeeze, h]

theorem squeeze_eq_self (h : ∀ c ∈ text, isBlank c = false) : squeeze text = text := by
  rw [squeeze, List.filter_eq_self]
  intro c hc
  rw [h c hc]
  rfl

theorem squeeze_eq_nil (h : ∀ c ∈ text, isBlank c = true) : squeeze text = [] := by
  rw [squeeze, List.filter_eq_nil_iff]
  intro c hc
  rw [h c hc]
  exact Bool.false_ne_true

@[simp] theorem squeeze_squeeze (text : List Char) : squeeze (squeeze text) = squeeze text :=
  squeeze_eq_self fun _ hc => (mem_squeeze.1 hc).2

end Text
end Refutation
