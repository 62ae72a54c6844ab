import Refutation.Proofs.Reading

/-!
# Blanks between parentheses

Between the outer parentheses of a literal blanks count for nothing, even where the literal is
faulty.  Arguments are taken apart with their blanks, and only the parts lose them, level by level.
But blanks never take part in how a text is taken apart, so the parts are the same without them, and
so are the faults and what they quote.

## Main results

* `Literal.read_of_parts` — what is read from a text with the parentheses at known places.
* `Literal.readArgs_squeeze` — blanks in the arguments do not count.
* `Literal.read_congr_inside` — **blanks between the parentheses of a literal do not count**.
-/

namespace Refutation
namespace Text

variable {text pre inside post : List Char}

/-- Blanks at the end do not count. -/
theorem trim_append_blanks (hpost : ∀ c ∈ post, isBlank c = true) :
    trim (text ++ post) = trim text := by
  rw [trim, List.dropWhile_append]
  split
  · next hempty => rw [dropWhile_eq_nil hpost, trim, List.isEmpty_iff.1 hempty]
  · rw [trimEnd_append_of_blank hpost, trim]

/-- Blanks that are to be dropped at both ends may be dropped at the end before. -/
theorem trim_trimEnd (text : List Char) : trim (trimEnd text) = trim text := by
  have htext : text = trimEnd text ++ (text.reverse.takeWhile isBlank).reverse := by
    rw [trimEnd, ← List.reverse_append, List.takeWhile_append_dropWhile, List.reverse_reverse]
  conv_rhs => rw [htext]
  refine (trim_append_blanks fun c hc => ?_).symm
  exact List.all_eq_true.1 List.all_takeWhile c (List.mem_reverse.1 hc)

/-- Trimming does not reach what stands between parentheses. -/
theorem trim_parentheses (pre inside post : List Char) :
    trim (pre ++ '(' :: (inside ++ ')' :: post)) =
      pre.dropWhile isBlank ++ '(' :: (inside ++ ')' :: trimEnd post) := by
  have hopen : (pre ++ '(' :: (inside ++ ')' :: post)).dropWhile isBlank =
      pre.dropWhile isBlank ++ '(' :: (inside ++ ')' :: post) := by
    rw [List.dropWhile_append]
    split
    · next hempty =>
      rw [List.isEmpty_iff.1 hempty]
      rfl
    · rfl
  have hclose : ∀ c, (pre.dropWhile isBlank ++ '(' :: (inside ++ [')'])).getLast? = some c →
      isBlank c = false := by
    intro c hc
    rw [← List.cons_append, ← List.append_assoc, List.getLast?_concat] at hc
    cases hc
    rfl
  have hend : trimEnd (pre.dropWhile isBlank ++ '(' :: (inside ++ [')']) ++ post) = _ :=
    trimEnd_append hclose
  rw [trim, hopen]
  simpa using hend

end Text

namespace Literal

open Text

variable {clause : Nat} {head inside inside' after : List Char}

/-- What is read from a text whose first opening and last closing parenthesis are known. -/
theorem read_of_parts (hopen : '(' ∉ head) (hclose : ')' ∉ after) :
    read clause (head ++ '(' :: (inside ++ ')' :: after)) =
      let (positive, name) := readName (head.dropWhile isBlank)
      if name.isEmpty then .error .predicateNameMissing
      else if !(trim after).isEmpty then .error (.trailing (String.ofList (trim after)))
      else (readArgs clause inside).map fun args => ⟨positive, String.ofList name, args⟩ := by
  have hopen' : '(' ∉ head.dropWhile isBlank :=
    fun hmem => hopen ((List.dropWhile_sublist isBlank).subset hmem)
  have hclose' : ')' ∉ trimEnd after := by
    intro hmem
    rw [trimEnd, List.mem_reverse] at hmem
    exact hclose (List.mem_reverse.1 ((List.dropWhile_sublist isBlank).subset hmem))
  have hfirst : cutFirst? '(' (head.dropWhile isBlank ++ '(' :: (inside ++ ')' :: trimEnd after)) =
      some (head.dropWhile isBlank, inside ++ ')' :: trimEnd after) :=
    cutFirst?_eq_some_iff.2 ⟨rfl, hopen'⟩
  have hlast : cutLast? ')' (inside ++ ')' :: trimEnd after) = some (inside, trimEnd after) :=
    cutLast?_eq_some_iff.2 ⟨rfl, hclose'⟩
  have hne : ¬ (head.dropWhile isBlank ++ '(' :: (inside ++ ')' :: trimEnd after)).isEmpty := by
    simp
  unfold read
  dsimp only
  rw [trim_parentheses, if_neg hne, hfirst]
  dsimp only
  rw [hlast]
  dsimp only
  rw [trim_trimEnd]

/-- Blanks in the arguments do not count. -/
theorem readArgs_squeeze (clause : Nat) (inside : List Char) :
    readArgs clause (squeeze inside) = readArgs clause inside := by
  have hblank : (∀ c ∈ squeeze inside, isBlank c = true) ↔ ∀ c ∈ inside, isBlank c = true := by
    constructor
    · intro h c hc
      by_contra hno
      exact hno (h c (mem_squeeze.2 ⟨hc, Bool.eq_false_iff.2 hno⟩))
    · exact fun h c hc => h c (mem_squeeze.1 hc).1
  have hempty : (trim (squeeze inside)).isEmpty = (trim inside).isEmpty := by
    rw [Bool.eq_iff_iff, List.isEmpty_iff, List.isEmpty_iff, trim_eq_nil_iff, trim_eq_nil_iff,
      hblank]
  rw [readArgs, readArgs, hempty, Term.readAll_squeeze]

/-- **Blanks between the parentheses of a literal do not count.**  Where two texts differ only by
blanks that stand between the first opening and the last closing parenthesis, the same literal is
read from both, or the same fault is found in both, and it quotes the same text. -/
theorem read_congr_inside (hopen : '(' ∉ head) (hclose : ')' ∉ after)
    (h : squeeze inside = squeeze inside') :
    read clause (head ++ '(' :: (inside ++ ')' :: after)) =
      read clause (head ++ '(' :: (inside' ++ ')' :: after)) := by
  have hargs : readArgs clause inside = readArgs clause inside' := by
    rw [← readArgs_squeeze, h, readArgs_squeeze]
  rw [read_of_parts hopen hclose, read_of_parts hopen hclose, hargs]

/-- Blanks within names and between all marks, in a literal that is read and in one with a fault
that quotes what it found. -/
theorem read_congr_inside_two :
    let head := " - p ".toList
    let after := "\t".toList
    let read' := fun inside : String => read 3 (head ++ '(' :: (inside.toList ++ ')' :: after))
    '(' ∉ head ∧ ')' ∉ after ∧
      squeeze " f ( X ,a b) ".toList = squeeze "f(X,ab)".toList ∧
      squeeze " f ( X ,a B) ".toList = squeeze "f(X,aB)".toList ∧
      read' " f ( X ,a b) " = read' "f(X,ab)" ∧
      read' " f ( X ,a B) " = read' "f(X,aB)" ∧
      read' "f(X,ab)" = .ok ⟨false, "p", [.app "f" [.var ⟨"X", 3⟩, .const "ab"]]⟩ ∧
      (match read' "f(X,aB)" with
        | .error fault => some fault
        | .ok _ => none) = some (.mixedCase "aB") := by
  intro head after read'
  have hopen : '(' ∉ head := by decide
  have hclose : ')' ∉ after := by decide
  have hread : squeeze " f ( X ,a b) ".toList = squeeze "f(X,ab)".toList := by decide
  have hfault : squeeze " f ( X ,a B) ".toList = squeeze "f(X,aB)".toList := by decide
  refine ⟨hopen, hclose, hread, hfault, read_congr_inside hopen hclose hread,
    read_congr_inside hopen hclose hfault, eq_ok_of_toOption (by decide +kernel), by decide +kernel⟩

end Literal
end Refutation
