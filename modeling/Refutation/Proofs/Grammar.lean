import Refutation.Proofs.Reading

/-!
# Texts that follow the grammar

Clauses whose names are made of letters can be written with blanks and comments at will, and are read
as they are.  For this the two cases have to exclude one another, which the tables bear out: they are
gone through side by side, as both ascend.

## Main definitions

* `Text.noneCommon` — two tables of spans have no code point in common.
* `Term.Grammatical`, `Literal.Grammatical`, `Clause.Grammatical` — names are made of letters.

## Main results

* `Text.not_isLower_of_isUpper` — no upper case letter is a lower case letter.
* `Clause.Grammatical.legible` — clauses that follow the grammar are legible.
* `readClauses_of_grammatical` — **clauses that follow the grammar are read, in any layout**.
-/

namespace Refutation
namespace Text

/-! ### The two cases -/

/-- No code point lies in both spans. -/
def Span.disjoint (s t : Span) : Bool :=
  (List.range (s.last + 1 - s.first)).all fun k =>
    !(s.contains (s.first + k) && t.contains (s.first + k))

/-- No code point lies in a span of each list.  The spans of both lists ascend, so that those of the
second that end before one of the first begins need not be looked at again. -/
def noneCommon : List Span → List Span → Bool
  | [], _ => true
  | s :: ss, ts =>
    let rest := ts.dropWhile fun t => t.last < s.first
    (rest.takeWhile fun t => t.first ≤ s.last).all s.disjoint && noneCommon ss rest

variable {n : Nat} {s t : Span} {ss ts : List Span} {c : Char}

theorem Span.bounds_of_contains (h : s.contains n = true) : s.first ≤ n ∧ n ≤ s.last := by
  simp only [contains, Bool.and_eq_true, decide_eq_true_eq] at h
  exact h.1

theorem Span.not_contains_of_disjoint (h : s.disjoint t = true) (hs : s.contains n = true) :
    t.contains n = false := by
  obtain ⟨hfirst, hlast⟩ := bounds_of_contains hs
  have hn := List.all_eq_true.1 h (n - s.first) (List.mem_range.2 (by omega))
  rw [Nat.add_sub_cancel' hfirst, hs, Bool.true_and] at hn
  simpa using hn

theorem inSpans_cons : inSpans n (t :: ts) = true ↔
    t.first ≤ n ∧ (t.contains n = true ∨ inSpans n ts = true) := by
  simp [inSpans]

/-- Spans that end before the code point need not be searched. -/
theorem inSpans_dropWhile {m : Nat} (h : inSpans n ts = true) (hm : m ≤ n) :
    inSpans n (ts.dropWhile fun t => t.last < m) = true := by
  induction ts with
  | nil => exact h
  | cons t ts ih =>
    rw [List.dropWhile_cons]
    split
    · next hlast =>
      rw [decide_eq_true_eq] at hlast
      rcases (inSpans_cons.1 h).2 with hin | hin
      · have hbounds := Span.bounds_of_contains hin
        omega
      · exact ih hin
    · exact h

/-- The span of a code point begins before it, as do those before that span. -/
theorem exists_mem_takeWhile {m : Nat} (h : inSpans n ts = true) (hm : n ≤ m) :
    ∃ t ∈ ts.takeWhile fun t => t.first ≤ m, t.contains n = true := by
  induction ts with
  | nil => cases h
  | cons t ts ih =>
    obtain ⟨hfirst, hin⟩ := inSpans_cons.1 h
    rw [List.takeWhile_cons_of_pos (by simpa using hfirst.trans hm)]
    rcases hin with hin | hin
    · exact ⟨t, List.mem_cons_self, hin⟩
    · obtain ⟨t', ht', hin⟩ := ih hin
      exact ⟨t', List.mem_cons_of_mem t ht', hin⟩

theorem inSpans_of_noneCommon (h : noneCommon ss ts = true) (hss : inSpans n ss = true) :
    inSpans n ts = false := by
  by_contra hts
  rw [Bool.not_eq_false] at hts
  induction ss generalizing ts with
  | nil => cases hss
  | cons s ss ih =>
    rw [noneCommon, Bool.and_eq_true] at h
    obtain ⟨hfirst, hin⟩ := inSpans_cons.1 hss
    have hrest := inSpans_dropWhile hts hfirst
    rcases hin with hin | hin
    · obtain ⟨t, ht, htn⟩ := exists_mem_takeWhile hrest (Span.bounds_of_contains hin).2
      rw [Span.not_contains_of_disjoint (List.all_eq_true.1 h.1 t ht) hin] at htn
      cases htn
    · exact ih h.2 hin hrest

/-- No upper case letter is a lower case letter. -/
theorem not_isLower_of_isUpper (h : isUpper c = true) : isLower c = false := by
  have hnone : noneCommon upperSpans lowerSpans = true := by decide +kernel
  exact inSpans_of_noneCommon hnone h

/-- No lower case letter is an upper case letter. -/
theorem not_isUpper_of_isLower (h : isLower c = true) : isUpper c = false := by
  cases hc : isUpper c with
  | false => rfl
  | true =>
    rw [not_isLower_of_isUpper hc] at h
    cases h

/-! ### Letters and other characters -/

/-- A character is neither a blank nor a mark of the grammar, as any letter is, whether it has a case
or not. -/
def IsPlain (c : Char) : Prop := isBlank c = false ∧ c ∉ ['%', '(', ')', ',', '-', '_', '|']

instance : DecidablePred IsPlain := fun c =>
  inferInstanceAs (Decidable (isBlank c = false ∧ c ∉ ['%', '(', ')', ',', '-', '_', '|']))

/-- The code points of blanks and marks. -/
def reservedSpans : List Span := [
  ⟨0x09, 0x0D, 1⟩, ⟨0x20, 0x20, 1⟩, ⟨0x25, 0x25, 1⟩, ⟨0x28, 0x29, 1⟩, ⟨0x2C, 0x2D, 1⟩,
  ⟨0x5F, 0x5F, 1⟩, ⟨0x7C, 0x7C, 1⟩, ⟨0x85, 0x85, 1⟩, ⟨0xA0, 0xA0, 1⟩, ⟨0x1680, 0x1680, 1⟩,
  ⟨0x2000, 0x200A, 1⟩, ⟨0x2028, 0x2029, 1⟩, ⟨0x202F, 0x202F, 1⟩, ⟨0x205F, 0x205F, 1⟩,
  ⟨0x3000, 0x3000, 1⟩]

theorem inSpans_of_isBlank (h : isBlank c = true) : inSpans c.toNat reservedSpans = true := by
  have hrange : ∀ {first last : Nat},
      (∀ k ≤ last - first, inSpans (first + k) reservedSpans = true) →
      first ≤ c.toNat ∧ c.toNat ≤ last → inSpans c.toNat reservedSpans = true := by
    rintro first last hall ⟨hfirst, hlast⟩
    have hn := hall (c.toNat - first) (Nat.sub_le_sub_right hlast first)
    rwa [Nat.add_sub_cancel' hfirst] at hn
  have hpoint : ∀ {m : Nat}, inSpans m reservedSpans = true → c.toNat = m →
      inSpans c.toNat reservedSpans = true := by
    rintro m hm rfl
    exact hm
  simp only [isBlank, Bool.or_eq_true, Bool.and_eq_true, decide_eq_true_eq, beq_iff_eq,
    or_assoc] at h
  rcases h with h | h | h | h | h | h | h | h | h | h | h
  · exact hrange (by decide) h
  · exact hpoint (by decide) h
  · exact hpoint (by decide) h
  · exact hpoint (by decide) h
  · exact hpoint (by decide) h
  · exact hrange (by decide) h
  · exact hpoint (by decide) h
  · exact hpoint (by decide) h
  · exact hpoint (by decide) h
  · exact hpoint (by decide) h
  · exact hpoint (by decide) h

theorem isPlain_of_inSpans (h : inSpans c.toNat reservedSpans = false) : IsPlain c := by
  constructor
  · cases hblank : isBlank c with
    | false => rfl
    | true =>
      rw [inSpans_of_isBlank hblank] at h
      cases h
  · intro hmark
    have hmarks : (['%', '(', ')', ',', '-', '_', '|'].all fun c =>
        inSpans c.toNat reservedSpans) = true := by decide
    rw [List.all_eq_true.1 hmarks c hmark] at h
    cases h

theorem isPlain_of_isUpper (h : isUpper c = true) : IsPlain c := by
  have hnone : noneCommon upperSpans reservedSpans = true := by decide +kernel
  exact isPlain_of_inSpans (inSpans_of_noneCommon hnone h)

theorem isPlain_of_isLower (h : isLower c = true) : IsPlain c := by
  have hnone : noneCommon lowerSpans reservedSpans = true := by decide +kernel
  exact isPlain_of_inSpans (inSpans_of_noneCommon hnone h)

end Text

open Text

/-! ### Names of letters -/

/-- Variables are upper case, constants and function names lower case, and functions have
arguments. -/
inductive Term.Grammatical : Term → Prop where
  /-- A variable. -/
  | var {v : Var} : v.name.toList ≠ [] → (∀ c ∈ v.name.toList, isUpper c = true) →
    Grammatical (.var v)
  /-- A constant. -/
  | const {name : String} : name.toList ≠ [] → (∀ c ∈ name.toList, isLower c = true) →
    Grammatical (.const name)
  /-- A function name with its arguments. -/
  | app {name : String} {ts : List Term} : name.toList ≠ [] →
    (∀ c ∈ name.toList, isLower c = true) → ts ≠ [] → (∀ t ∈ ts, Grammatical t) →
      Grammatical (.app name ts)

/-- A predicate is of letters of any case, and can have any number of arguments. -/
structure Literal.Grammatical (l : Literal) : Prop where
  ne_nil : l.predicate.toList ≠ []
  plain : ∀ c ∈ l.predicate.toList, IsPlain c
  args : ∀ t ∈ l.args, t.Grammatical

/-- A clause has a literal, and its names are of letters. -/
structure Clause.Grammatical (c : Clause) : Prop where
  ne_nil : c.literals ≠ []
  literals : ∀ l ∈ c.literals, l.Grammatical

namespace Term

variable {clause : Nat} {text : List Char} {t : Term}

theorem isName_of_forall (hne : text ≠ []) (h : ∀ c ∈ text, IsPlain c) : IsName text := by
  refine ⟨hne, fun c hc => (h c hc).1, ?_, ?_⟩
  · rintro c hc (rfl | rfl | rfl)
    · exact absurd (h _ hc).2 (by decide)
    · exact absurd (h _ hc).2 (by decide)
    · exact absurd (h _ hc).2 (by decide)
  · intro hc
    exact absurd (h _ hc).2 (by decide)

/-- A term of letters whose variables belong to the clause is legible. -/
theorem Grammatical.legible (h : t.Grammatical) (hvars : ∀ v ∈ t.occurrences, v.clause = clause) :
    t.Legible clause := by
  induction h with
  | @var v hne hupper =>
    obtain rfl := hvars v (List.mem_singleton_self v)
    exact .var (isName_of_forall hne fun c hc => isPlain_of_isUpper (hupper c hc))
      fun c hc => not_isLower_of_isUpper (hupper c hc)
  | @const name hne hlower =>
    obtain ⟨c, hc⟩ := List.exists_mem_of_ne_nil _ hne
    exact .const (isName_of_forall hne fun c hc => isPlain_of_isLower (hlower c hc))
      ⟨c, hc, hlower c hc⟩ fun c hc => not_isUpper_of_isLower (hlower c hc)
  | @app name ts hne hlower hts _ ih =>
    refine .app (isName_of_forall hne fun c hc => isPlain_of_isLower (hlower c hc))
      (fun c hc => not_isUpper_of_isLower (hlower c hc)) hts ?_
    intro t ht
    refine ih t ht fun v hv => hvars v ?_
    rw [occurrences_app]
    exact List.mem_flatMap_of_mem ht hv

/-- Only plain characters and delimiters are written. -/
theorem Grammatical.of_mem_symbols (h : t.Grammatical) :
    ∀ s ∈ t.symbols, ∀ c ∈ s, IsPlain c ∨ IsDelimiter c := by
  induction h with
  | var _ hupper =>
    exact List.forall_mem_singleton.2 fun c hc => Or.inl (isPlain_of_isUpper (hupper c hc))
  | const _ hlower =>
    exact List.forall_mem_singleton.2 fun c hc => Or.inl (isPlain_of_isLower (hlower c hc))
  | app _ hlower _ _ ih =>
    refine forall_mem_symbols_app (fun c hc => Or.inl (isPlain_of_isLower (hlower c hc))) ?_ ih
    exact fun c hdelim => List.forall_mem_singleton.2 (Or.inr hdelim)

end Term

theorem Literal.Grammatical.legible {l : Literal} {clause : Nat} (h : l.Grammatical)
    (hvars : ∀ v ∈ l.occurrences, v.clause = clause) : l.Legible clause where
  ne_nil := h.ne_nil
  trimmed := trimmed_of_forall fun c hc => (h.plain c hc).1
  no_parenthesis hc := absurd (h.plain _ hc).2 (by decide)
  no_minus _ hhead := absurd (h.plain _ (List.mem_of_mem_head? hhead)).2 (by decide)
  args t ht := (h.args t ht).legible fun v hv => hvars v (List.mem_flatMap_of_mem ht hv)

/-- Clauses that follow the grammar are legible. -/
theorem Clause.Grammatical.legible {c : Clause} (h : c.Grammatical) (howns : c.OwnsVars) :
    c.Legible where
  ne_nil := h.ne_nil
  literals l hl := (h.literals l hl).legible fun v hv => howns v (List.mem_flatMap_of_mem hl hv)
  no_mark := by
    intro l hl
    have hl := h.literals l hl
    -- no symbol of the literal has a bar or a line break
    have hof : ∀ s ∈ l.symbols, ∀ c ∈ s, IsPlain c ∨ IsDelimiter c ∨ c = '-' := by
      refine Literal.forall_mem_symbols ?_ ?_ ?_ ?_
      · exact fun _ => List.forall_mem_singleton.2 (Or.inr (Or.inr rfl))
      · exact fun c hc => Or.inl (hl.plain c hc)
      · exact fun c hdelim => List.forall_mem_singleton.2 (Or.inr (Or.inl hdelim))
      · exact fun t ht s hs c hc =>
          ((hl.args t ht).of_mem_symbols s hs c hc).imp_right Or.inl
    intro s hs
    constructor
    · intro hc
      rcases hof s hs _ hc with hplain | hmark
      · exact absurd hplain.2 (by decide)
      · exact absurd hmark (by decide)
    · intro hc
      rcases hof s hs _ hc with hplain | hmark
      · exact absurd hplain.1 (by decide)
      · exact absurd hmark (by decide)
  no_comment := by
    intro s hs hhead
    obtain ⟨l, ls, hliterals⟩ := List.exists_cons_of_ne_nil h.ne_nil
    rw [head?_symbols hliterals] at hs
    have hl := h.literals l (hliterals ▸ List.mem_cons_self)
    cases hpos : l.positive with
    | false =>
      rw [hpos, if_neg Bool.false_ne_true] at hs
      cases hs
      cases hhead
    | true =>
      rw [hpos, if_pos rfl] at hs
      cases hs
      exact absurd (hl.plain _ (List.mem_of_mem_head? hhead)).2 (by decide)

/-- **Clauses that follow the grammar are read, in any layout**: blanks may stand around all names
and marks, and blank lines and comments between the clauses. -/
theorem readClauses_of_grammatical {cs : List Clause} {lines : List (List Char)}
    (hcs : ∀ c ∈ cs, c.Grammatical) (howns : ∀ c ∈ cs, c.OwnsVars)
    (hids : cs.map Clause.id = List.range' 1 cs.length) (h : LaidOut cs lines) :
    readClauses 0 (['\n'].intercalate lines) = .ok cs :=
  readClauses_of_laidOut h (fun c hc => (hcs c hc).legible (howns c hc)) hids

/-- The first clause has blanks around its symbols, and a comment and a blank line come before the
second. -/
theorem readClauses_of_grammatical_two :
    let cs : List Clause := [⟨1, [⟨false, "p", [.var ⟨"X", 1⟩]⟩]⟩,
      ⟨2, [⟨true, "Qr", [.app "f" [.const "a"]]⟩, ⟨true, "q", []⟩]⟩]
    let lines : List (List Char) :=
      [" - p( X )\t".toList, "% r".toList, [], "Qr(f(a))|q()".toList]
    (∀ c ∈ cs, c.Grammatical) ∧ (∀ c ∈ cs, c.OwnsVars) ∧
      cs.map Clause.id = List.range' 1 cs.length ∧ LaidOut cs lines ∧
      readClauses 0 (['\n'].intercalate lines) = .ok cs := by
  intro cs lines
  have hp : Literal.Grammatical ⟨false, "p", [.var ⟨"X", 1⟩]⟩ := by
    refine ⟨by decide, List.forall_mem_singleton.2 (by decide), List.forall_mem_singleton.2 ?_⟩
    exact .var (by decide) (List.forall_mem_singleton.2 (by decide))
  have hQr : Literal.Grammatical ⟨true, "Qr", [.app "f" [.const "a"]]⟩ := by
    refine ⟨by decide, ?_, List.forall_mem_singleton.2 ?_⟩
    · exact List.forall_mem_cons.2 ⟨by decide, List.forall_mem_singleton.2 (by decide)⟩
    · refine .app (by decide) (List.forall_mem_singleton.2 (by decide)) (List.cons_ne_nil _ _) ?_
      exact List.forall_mem_singleton.2
        (.const (by decide) (List.forall_mem_singleton.2 (by decide)))
  have hq : Literal.Grammatical ⟨true, "q", []⟩ :=
    ⟨by decide, List.forall_mem_singleton.2 (by decide), List.forall_mem_nil _⟩
  have hcs : ∀ c ∈ cs, c.Grammatical :=
    List.forall_mem_cons.2 ⟨⟨List.cons_ne_nil _ _, List.forall_mem_singleton.2 hp⟩,
      List.forall_mem_singleton.2
        ⟨List.cons_ne_nil _ _, List.forall_mem_cons.2 ⟨hQr, List.forall_mem_singleton.2 hq⟩⟩⟩
  have howns : ∀ c ∈ cs, c.OwnsVars := by decide
  have hgap : Spaces [' '] := List.forall_mem_singleton.2 (by decide)
  have htab : Spaces ['\t'] := List.forall_mem_singleton.2 (by decide)
  have hfirst : Spaced [['-'], ['p'], ['('], ['X'], [')']] " - p( X )\t".toList :=
    .cons hgap <| .cons hgap <| .cons .nil <| .cons hgap <| .cons hgap <| .nil htab
  have hlines : LaidOut cs lines :=
    .clause hfirst <| .idle ⟨by decide, Or.inr ⟨[], " r".toList, .nil, rfl⟩⟩ <|
      .idle ⟨by decide, Or.inl .nil⟩ <| .clause (.flatten _) .nil
  exact ⟨hcs, howns, rfl, hlines, readClauses_of_grammatical hcs howns rfl hlines⟩

end Refutation
