import Mathlib.Data.List.Forall2
import Refutation.Proofs.Splitting
import Refutation.Source.Clause
import Refutation.Source.Written

/-!
# What can be read

Readers take in more than is needed to write clauses down: nearly any character can stand in a name,
predicates may have blanks inside, and digits make variables.  Still, what they give has a form that
can be told: names have no delimiters, the case of their letters says what they are, applications
have arguments, and no literal begins so that it would be taken for something else.

## Main definitions

* `Term.IsName` — a text is a name in a term.
* `Term.Legible`, `Literal.Legible`, `Clause.Legible` — what the readers can give.

## Main results

* `Shape.ofText_eq_atom_iff`, `Shape.ofText_eq_app_iff` — when a text has a shape.
* `Term.read_induction` — induction over the texts from which a term has been read.
* `Literal.read_eq_ok_iff` — when a text is read as a literal.
* `Clause.forall₂_of_read`, `forall₂_of_readClauses` — clauses and source texts are read piece by
  piece.
* `Term.legible_of_read`, `Literal.legible_of_read`, `Clause.legible_of_read` — what is read is
  legible.
-/

namespace Refutation

open Text

/-! ### Readings -/

/-- What is read from each member of a list. -/
theorem forall₂_of_map_eq {ε α β : Type} {f : α → Except ε β} {xs : List α} {ys : List β}
    (h : xs.map f = ys.map .ok) : List.Forall₂ (fun x y => f x = .ok y) xs ys := by
  rw [← List.forall₂_eq_eq_eq, List.forall₂_map_left_iff, List.forall₂_map_right_iff] at h
  exact h

/-! ### Symbols -/

/-- A property of the symbols of joined lists. -/
theorem forall_mem_intercalate {p : Symbol → Prop} {sep : Symbol} {ls : List (List Symbol)}
    (hsep : p sep) (hls : ∀ l ∈ ls, ∀ s ∈ l, p s) : ∀ s ∈ [sep].intercalate ls, p s := by
  intro s hs
  rcases eq_or_mem_of_mem_intercalate hs with rfl | ⟨l, hl, hs⟩
  · exact hsep
  · exact hls l hl s hs

/-- A property of the symbols of arguments in parentheses. -/
theorem forall_mem_arguments {p : Symbol → Prop} {ts : List Term}
    (hmarks : ∀ c, IsDelimiter c → p [c]) (hts : ∀ t ∈ ts, ∀ s ∈ t.symbols, p s) :
    ∀ s ∈ ['('] :: ([[',']].intercalate (ts.map Term.symbols) ++ [[')']]), p s := by
  refine List.forall_mem_cons.2 ⟨hmarks _ (Or.inl rfl), ?_⟩
  rw [List.forall_mem_append]
  constructor
  · refine forall_mem_intercalate (hmarks _ (Or.inr (Or.inr rfl))) ?_
    intro l hl
    obtain ⟨t, ht, rfl⟩ := List.mem_map.1 hl
    exact hts t ht
  · exact List.forall_mem_singleton.2 (hmarks _ (Or.inr (Or.inl rfl)))

theorem Term.forall_mem_symbols_app {p : Symbol → Prop} {f : String} {ts : List Term}
    (hname : p f.toList) (hmarks : ∀ c, IsDelimiter c → p [c])
    (hts : ∀ t ∈ ts, ∀ s ∈ t.symbols, p s) : ∀ s ∈ (app f ts).symbols, p s := by
  rw [symbols_app]
  exact List.forall_mem_cons.2 ⟨hname, forall_mem_arguments hmarks hts⟩

theorem Literal.forall_mem_symbols {p : Symbol → Prop} {l : Literal}
    (hsign : l.positive = false → p ['-']) (hname : p l.predicate.toList)
    (hmarks : ∀ c, IsDelimiter c → p [c]) (hargs : ∀ t ∈ l.args, ∀ s ∈ t.symbols, p s) :
    ∀ s ∈ l.symbols, p s := by
  rw [symbols, List.forall_mem_append]
  refine ⟨?_, List.forall_mem_cons.2 ⟨hname, forall_mem_arguments hmarks hargs⟩⟩
  cases hpos : l.positive with
  | true =>
    intro s hs
    cases hs
  | false => exact List.forall_mem_singleton.2 (hsign hpos)

theorem Clause.forall_mem_symbols {p : Symbol → Prop} {c : Clause} (hbar : p ['|'])
    (hl : ∀ l ∈ c.literals, ∀ s ∈ l.symbols, p s) : ∀ s ∈ c.symbols, p s := by
  refine forall_mem_intercalate hbar ?_
  intro symbols hsymbols
  obtain ⟨l, hmem, rfl⟩ := List.mem_map.1 hsymbols
  exact hl l hmem

/-! ### Shapes -/

namespace Shape

variable {raw text name inside rest : List Char}

theorem ofText_eq_atom_iff :
    ofText raw = .ok (.atom text) ↔ squeeze raw = text ∧ text ≠ [] ∧ '_' ∉ text ∧ '(' ∉ text := by
  unfold ofText
  dsimp only
  split
  · next hempty =>
    constructor
    · intro h
      cases h
    · rintro ⟨rfl, hne, -⟩
      exact absurd (List.isEmpty_iff.1 hempty) hne
  · next hempty =>
    split
    · next hunder =>
      constructor
      · intro h
        cases h
      · rintro ⟨rfl, -, hno, -⟩
        exact absurd (List.contains_iff_mem.1 hunder) hno
    · next hunder =>
      split
      · next hcut =>
        have hopen := cutFirst?_eq_none_iff.1 hcut
        constructor
        · intro h
          cases h
          exact ⟨rfl, by simpa using hempty, by simpa using hunder, hopen⟩
        · rintro ⟨rfl, -⟩
          rfl
      · next name rest hcut =>
        constructor
        · intro h
          obtain ⟨_, -, heq⟩ := map_eq_ok_iff.1 h
          cases heq
        · rintro ⟨rfl, -, -, hopen⟩
          rw [cutFirst?_eq_none_iff.2 hopen] at hcut
          cases hcut

theorem inner_eq_ok_iff (hcut : cutFirst? '(' text = some (name, rest)) :
    inner text name rest = .ok inside ↔
      text = name ++ '(' :: (inside ++ [')']) ∧ name ≠ [] ∧ ∀ c ∈ name, isUpper c = false := by
  constructor
  · intro h
    refine ⟨inner_eq_ok hcut h, ?_⟩
    unfold inner at h
    split at h
    · cases h
    · next hempty =>
      split at h
      · cases h
      · next hupper => exact ⟨by simpa using hempty, by simpa using hupper⟩
  · rintro ⟨htext, hne, hupper⟩
    obtain ⟨htext', -⟩ := cutFirst?_eq_some_iff.1 hcut
    have hrest : rest = inside ++ [')'] := by
      rw [htext'] at htext
      exact (List.cons.inj (List.append_cancel_left htext)).2
    have hupper' : ¬ name.any isUpper = true := by simpa using hupper
    have hend : text.getLast? = some ')' := by
      rw [htext, ← List.cons_append, ← List.append_assoc, List.getLast?_concat]
    rw [inner, if_neg (by simpa using hne), if_neg hupper', if_pos hend, hrest,
      List.dropLast_concat]

theorem ofText_eq_app_iff :
    ofText raw = .ok (.app name inside) ↔
      squeeze raw = name ++ '(' :: (inside ++ [')']) ∧ '_' ∉ squeeze raw ∧ '(' ∉ name ∧
        name ≠ [] ∧ ∀ c ∈ name, isUpper c = false := by
  unfold ofText
  dsimp only
  split
  · next hempty =>
    constructor
    · intro h
      cases h
    · rintro ⟨htext, -⟩
      rw [htext] at hempty
      simp at hempty
  · next hempty =>
    split
    · next hunder =>
      constructor
      · intro h
        cases h
      · rintro ⟨-, hno, -⟩
        exact absurd (List.contains_iff_mem.1 hunder) hno
    · next hunder =>
      split
      · next hcut =>
        constructor
        · intro h
          cases h
        · rintro ⟨htext, -⟩
          have hopen := cutFirst?_eq_none_iff.1 hcut
          rw [htext] at hopen
          exact absurd (by simp) hopen
      · next name' rest hcut =>
        constructor
        · intro h
          obtain ⟨inside', hinner, heq⟩ := map_eq_ok_iff.1 h
          cases heq
          obtain ⟨htext, hne, hupper⟩ := (inner_eq_ok_iff hcut).1 hinner
          exact ⟨htext, by simpa using hunder, (cutFirst?_eq_some_iff.1 hcut).2, hne, hupper⟩
        · rintro ⟨htext, -, hopen, hne, hupper⟩
          have hcut' := cutFirst?_eq_some_iff.2 ⟨htext, hopen⟩
          obtain ⟨rfl, rfl⟩ := Prod.mk.inj (Option.some.inj (hcut.symm.trans hcut'))
          rw [(inner_eq_ok_iff hcut).2 ⟨htext, hne, hupper⟩]
          rfl

end Shape

/-! ### Terms -/

namespace Term

variable {clause : Nat} {raw text : List Char} {t : Term} {ts : List Term} {c : Char}

theorem readAtom_eq_ok_iff :
    readAtom clause text = .ok t ↔ ')' ∉ text ∧
      ((∃ c ∈ text, isLower c = true) ∧ (∀ c ∈ text, isUpper c = false) ∧
          t = .const (String.ofList text) ∨
        (∀ c ∈ text, isLower c = false) ∧ t = .var ⟨String.ofList text, clause⟩) := by
  unfold readAtom
  split
  · next hclose =>
    constructor
    · intro h
      cases h
    · rintro ⟨hno, -⟩
      exact absurd (List.contains_iff_mem.1 hclose) hno
  · next hclose =>
    have hno : ')' ∉ text := by simpa using hclose
    split
    · next hlower =>
      have hlower' : ∃ c ∈ text, isLower c = true := by simpa using hlower
      have hnone : ¬ ∀ c ∈ text, isLower c = false := by simpa using hlower'
      split
      · next hupper =>
        have hsome : ¬ ∀ c ∈ text, isUpper c = false := by simpa using hupper
        constructor
        · intro h
          cases h
        · rintro ⟨-, ⟨-, hall, -⟩ | ⟨hall, -⟩⟩
          · exact absurd hall hsome
          · exact absurd hall hnone
      · next hupper =>
        constructor
        · intro h
          cases h
          exact ⟨hno, Or.inl ⟨hlower', by simpa using hupper, rfl⟩⟩
        · rintro ⟨-, ⟨-, -, rfl⟩ | ⟨hall, -⟩⟩
          · rfl
          · exact absurd hall hnone
    · next hlower =>
      have hlower' : ∀ c ∈ text, isLower c = false := by simpa using hlower
      constructor
      · intro h
        cases h
        exact ⟨hno, Or.inr ⟨hlower', rfl⟩⟩
      · rintro ⟨-, ⟨⟨c, hc, hcl⟩, -⟩ | ⟨-, rfl⟩⟩
        · rw [hlower' c hc] at hcl
          cases hcl
        · rfl

theorem readAll_eq_ok_iff :
    readAll clause text = .ok ts ↔
      ∃ parts, splitArguments text = .ok parts ∧ parts.map (read clause) = ts.map .ok := by
  unfold readAll
  cases splitArguments text with
  | error fault => simp [Except.bind]
  | ok parts => simp [Except.bind, mapM_eq_ok_iff]

/-- Induction over the texts from which a term has been read. -/
@[elab_as_elim]
theorem read_induction {motive : List Char → Term → Prop}
    (atom : ∀ {raw text : List Char} {t : Term}, Shape.ofText raw = .ok (.atom text) →
      readAtom clause text = .ok t → motive raw t)
    (app : ∀ {raw name inside : List Char} {parts : List (List Char)} {ts : List Term},
      Shape.ofText raw = .ok (.app name inside) → splitArguments inside = .ok parts → ts ≠ [] →
      (∀ t ∈ ts, ∃ part ∈ parts, motive part t) → motive raw (.app (String.ofList name) ts))
    (h : read clause raw = .ok t) : motive raw t := by
  -- the induction is on the length of the text, for arguments are read from parts of it
  induction hn : raw.length using Nat.strongRecOn generalizing raw t with
  | _ n ih =>
    rw [read_eq] at h
    split at h
    · cases h
    · next hshape => exact atom hshape h
    · next hshape =>
      obtain ⟨ts, hts, rfl⟩ := map_eq_ok_iff.1 h
      obtain ⟨parts, hparts, hmap⟩ := readAll_eq_ok_iff.1 hts
      refine app hshape hparts ?_ ?_
      · rintro rfl
        exact ne_nil_of_splitArguments hparts (List.map_eq_nil_iff.1 hmap)
      · intro t ht
        obtain ⟨part, hpart, hread⟩ := exists_mem_of_map_eq hmap ht
        have hle := length_le_of_mem_splitArguments hparts hpart
        have hlt := Shape.length_lt_of_app hshape
        exact ⟨part, hpart, ih part.length (by omega) hread rfl⟩

/-- A name of a variable, a constant or a function. -/
structure IsName (text : List Char) : Prop where
  ne_nil : text ≠ []
  not_blank : ∀ c ∈ text, isBlank c = false
  not_delimiter : ∀ c ∈ text, ¬ IsDelimiter c
  no_underscore : '_' ∉ text

/-- What a term of the given clause can be when it has been read. -/
inductive Legible (clause : Nat) : Term → Prop where
  /-- A name without lower case letters is a variable. -/
  | var {name : String} : IsName name.toList → (∀ c ∈ name.toList, isLower c = false) →
    Legible clause (.var ⟨name, clause⟩)
  /-- A name with a lower case letter is a constant. -/
  | const {name : String} : IsName name.toList → (∃ c ∈ name.toList, isLower c = true) →
    (∀ c ∈ name.toList, isUpper c = false) → Legible clause (.const name)
  /-- A name without upper case letters can have arguments. -/
  | app {name : String} {ts : List Term} : IsName name.toList →
    (∀ c ∈ name.toList, isUpper c = false) → ts ≠ [] → (∀ t ∈ ts, Legible clause t) →
      Legible clause (.app name ts)

/-- A term that is read from one piece is legible. -/
theorem legible_of_read (h : read clause raw = .ok t)
    (hraw : splitAtDepth 0 raw = .ok (raw, [])) : t.Legible clause := by
  revert hraw
  have hsqueezed : ∀ {raw : List Char}, splitAtDepth 0 raw = .ok (raw, []) →
      splitAtDepth 0 (squeeze raw) = .ok (squeeze raw, []) := by
    intro raw hraw
    rw [splitAtDepth_squeeze, hraw]
    rfl
  refine read_induction (motive := fun raw t => splitAtDepth 0 raw = .ok (raw, []) →
    t.Legible clause) ?_ ?_ h
  · intro raw text t hshape hatom hraw
    obtain ⟨rfl, hne, hunder, hopen⟩ := Shape.ofText_eq_atom_iff.1 hshape
    have hwhole := hsqueezed hraw
    rw [← List.append_nil (squeeze raw)] at hwhole
    have hname : IsName (squeeze raw) :=
      ⟨hne, fun c hc => (mem_squeeze.1 hc).2, not_isDelimiter_of_whole hwhole hopen, hunder⟩
    rcases (readAtom_eq_ok_iff.1 hatom).2 with ⟨hlower, hupper, rfl⟩ | ⟨hlower, rfl⟩
    · refine .const ?_ ?_ ?_
      · rwa [String.toList_ofList]
      · rwa [String.toList_ofList]
      · rwa [String.toList_ofList]
    · refine .var ?_ ?_
      · rwa [String.toList_ofList]
      · rwa [String.toList_ofList]
  · intro raw name inside parts ts hshape hparts hts ih hraw
    obtain ⟨htext, hunder, hopen, hne, hupper⟩ := Shape.ofText_eq_app_iff.1 hshape
    have hwhole := hsqueezed hraw
    have hmem : ∀ c ∈ name, c ∈ squeeze raw := by
      intro c hc
      rw [htext]
      exact List.mem_append_left _ hc
    rw [htext] at hwhole
    have hname : IsName name :=
      ⟨hne, fun c hc => (mem_squeeze.1 (hmem c hc)).2, not_isDelimiter_of_whole hwhole hopen,
        fun hc => hunder (hmem _ hc)⟩
    refine .app ?_ ?_ hts ?_
    · rwa [String.toList_ofList]
    · rwa [String.toList_ofList]
    · intro t ht
      obtain ⟨part, hpart, hlegible⟩ := ih t ht
      exact hlegible (splitAtDepth_of_mem hparts hpart)

/-- A term is written with the characters of the text that it was read from, and delimiters. -/
theorem mem_of_mem_symbols (h : read clause raw = .ok t) :
    ∀ s ∈ t.symbols, ∀ c ∈ s, c ∈ raw ∨ IsDelimiter c := by
  refine read_induction (motive := fun raw t => ∀ s ∈ t.symbols, ∀ c ∈ s,
    c ∈ raw ∨ IsDelimiter c) ?_ ?_ h
  · intro raw text t hshape hatom
    obtain ⟨rfl, -⟩ := Shape.ofText_eq_atom_iff.1 hshape
    have hsymbols : t.symbols = [squeeze raw] := by
      rcases (readAtom_eq_ok_iff.1 hatom).2 with ⟨-, -, rfl⟩ | ⟨-, rfl⟩
      · rw [symbols_const, String.toList_ofList]
      · rw [symbols_var, String.toList_ofList]
    rw [hsymbols, List.forall_mem_singleton]
    exact fun c hc => Or.inl (mem_squeeze.1 hc).1
  · intro raw name inside parts ts hshape hparts _ ih
    obtain ⟨htext, -⟩ := Shape.ofText_eq_app_iff.1 hshape
    have hraw : ∀ {c : Char}, c ∈ name ∨ c ∈ inside → c ∈ raw := by
      intro c hc
      refine (mem_squeeze.1 (?_ : c ∈ squeeze raw)).1
      rw [htext]
      rcases hc with hc | hc
      · exact List.mem_append_left _ hc
      · exact List.mem_append_right _ (List.mem_cons_of_mem _ (List.mem_append_left _ hc))
    refine forall_mem_symbols_app ?_ ?_ ?_
    · rw [String.toList_ofList]
      exact fun c hc => Or.inl (hraw (Or.inl hc))
    · intro c hdelim
      exact List.forall_mem_singleton.2 (Or.inr hdelim)
    · intro t ht s hs c hc
      obtain ⟨part, hpart, hmem⟩ := ih t ht
      exact (hmem s hs c hc).imp
        (fun hc => hraw (Or.inr ((sublist_of_mem_splitArguments hparts hpart).subset hc))) id

end Term

/-! ### Literals -/

namespace Literal

variable {clause : Nat} {raw head name inside : List Char} {ts : List Term} {l : Literal} {c : Char}
  {positive : Bool}

theorem readArgs_eq_ok_iff :
    readArgs clause inside = .ok ts ↔
      (∀ c ∈ inside, isBlank c = true) ∧ ts = [] ∨
        (∃ c ∈ inside, isBlank c = false) ∧ Term.readAll clause inside = .ok ts := by
  unfold readArgs
  split
  · next hblank =>
    have hall := trim_eq_nil_iff.1 (List.isEmpty_iff.1 hblank)
    constructor
    · intro h
      cases h
      exact Or.inl ⟨hall, rfl⟩
    · rintro (⟨-, rfl⟩ | ⟨⟨c, hc, hcb⟩, -⟩)
      · rfl
      · rw [hall c hc] at hcb
        cases hcb
  · next hblank =>
    have hsome : ¬ ∀ c ∈ inside, isBlank c = true := by
      intro hall
      exact hblank (List.isEmpty_iff.2 (trim_eq_nil_iff.2 hall))
    constructor
    · intro h
      exact Or.inr ⟨by simpa using hsome, h⟩
    · rintro (⟨hall, -⟩ | ⟨-, h⟩)
      · exact absurd hall hsome
      · exact h

/-- A text is a literal if all but its parentheses at the outside can be read. -/
theorem read_eq_ok_iff :
    read clause raw = .ok l ↔ ∃ head inside, trim raw = head ++ '(' :: (inside ++ [')']) ∧
      '(' ∉ head ∧ readName head = (l.positive, l.predicate.toList) ∧
        l.predicate.toList ≠ [] ∧ readArgs clause inside = .ok l.args := by
  constructor
  · intro h
    unfold read at h
    dsimp only at h
    split at h
    · cases h
    · split at h
      · cases h
      · next head rest hopen =>
        split at h
        · cases h
        · next inside after hclose =>
          obtain ⟨htext, hnot⟩ := cutFirst?_eq_some_iff.1 hopen
          obtain ⟨rfl, -⟩ := cutLast?_eq_some_iff.1 hclose
          split at h
          · cases h
          · next hname =>
            split at h
            · cases h
            · next hafter =>
              obtain ⟨args, hargs, rfl⟩ := map_eq_ok_iff.1 h
              -- nothing follows, for a trimmed text does not end with a blank
              have hblank : ∀ c ∈ after, isBlank c = true := by
                refine trim_eq_nil_iff.1 (List.isEmpty_iff.1 ?_)
                simpa using hafter
              have hnil : after = [] := by
                rcases List.eq_nil_or_concat after with rfl | ⟨after, c, rfl⟩
                · rfl
                · have hend := (trimmed_trim raw).last c (by simp [htext, List.getLast?_cons])
                  rw [hblank c (by simp)] at hend
                  cases hend
              subst hnil
              refine ⟨head, inside, htext, hnot, ?_, ?_, hargs⟩
              · rw [String.toList_ofList]
              · rw [String.toList_ofList]
                simpa using hname
  · rintro ⟨head, inside, htext, hopen, hname, hne, hargs⟩
    have hcut := cutFirst?_eq_some_iff.2 ⟨htext, hopen⟩
    have hcut' : cutLast? ')' (inside ++ [')']) = some (inside, []) :=
      cutLast?_eq_some_iff.2 ⟨rfl, List.not_mem_nil⟩
    have hne' : ¬ (trim raw).isEmpty = true := by simp [htext]
    have hname' : ¬ l.predicate.toList.isEmpty = true := by simpa using hne
    unfold read
    dsimp only
    rw [if_neg hne', hcut]
    dsimp only
    rw [hcut', hname]
    dsimp only
    rw [if_neg hname', if_neg (by decide), hargs, String.ofList_toList]
    rfl

/-- The name begins after the minus sign, if there is one. -/
theorem readName_eq (h : readName head = (positive, name)) :
    positive = false ∧ (∃ rest, head = '-' :: rest ∧ name = trim rest) ∨
      positive = true ∧ head.head? ≠ some '-' ∧ name = trim head := by
  unfold readName at h
  split at h
  · next rest =>
    cases h
    exact Or.inl ⟨rfl, rest, rfl, rfl⟩
  · next hno =>
    cases h
    refine Or.inr ⟨rfl, ?_, rfl⟩
    intro hhead
    obtain ⟨rest, rfl⟩ := List.head?_eq_some_iff.1 hhead
    exact hno rest rfl

/-- What a literal of the given clause can be when it has been read. -/
structure Legible (clause : Nat) (l : Literal) : Prop where
  ne_nil : l.predicate.toList ≠ []
  trimmed : Trimmed l.predicate.toList
  no_parenthesis : '(' ∉ l.predicate.toList
  /-- A positive literal is not taken for a negative one. -/
  no_minus : l.positive = true → l.predicate.toList.head? ≠ some '-'
  args : ∀ t ∈ l.args, t.Legible clause

/-- A positive literal begins as the text does. -/
theorem head?_of_read (h : read clause raw = .ok l) (hpos : l.positive = true) :
    l.predicate.toList.head? = (trim raw).head? ∧ l.predicate.toList.head? ≠ some '-' := by
  obtain ⟨head, inside, htext, -, hname, hne, -⟩ := read_eq_ok_iff.1 h
  rcases readName_eq hname with ⟨hneg, -⟩ | ⟨-, hminus, htrim⟩
  · rw [hpos] at hneg
    cases hneg
  · cases hhead : head.head? with
    | none =>
      rw [List.head?_eq_none_iff] at hhead
      rw [htrim, hhead] at hne
      exact absurd rfl hne
    | some c =>
      have hraw : (trim raw).head? = some c := by
        rw [htext, List.head?_append, hhead]
        rfl
      rw [htrim, head?_trim hhead ((trimmed_trim raw).head c hraw), hraw]
      rw [hhead] at hminus
      exact ⟨rfl, hminus⟩

theorem legible_of_read (h : read clause raw = .ok l) : l.Legible clause := by
  obtain ⟨head, inside, htext, hopen, hname, hne, hargs⟩ := read_eq_ok_iff.1 h
  have htrim : ∃ text, text ⊆ head ∧ l.predicate.toList = trim text := by
    rcases readName_eq hname with ⟨-, rest, rfl, htrim⟩ | ⟨-, -, htrim⟩
    · exact ⟨rest, List.subset_cons_self _ _, htrim⟩
    · exact ⟨head, List.Subset.refl _, htrim⟩
  obtain ⟨text, hsub, htrim⟩ := htrim
  refine ⟨hne, ?_, ?_, fun hpos => (head?_of_read h hpos).2, ?_⟩
  · rw [htrim]
    exact trimmed_trim text
  · rw [htrim]
    exact fun hmem => hopen (hsub (mem_of_mem_trim hmem))
  · intro t ht
    rcases readArgs_eq_ok_iff.1 hargs with ⟨-, hnil⟩ | ⟨-, hall⟩
    · rw [hnil] at ht
      cases ht
    · obtain ⟨parts, hparts, hmap⟩ := Term.readAll_eq_ok_iff.1 hall
      obtain ⟨part, hpart, hread⟩ := exists_mem_of_map_eq hmap ht
      exact Term.legible_of_read hread (splitAtDepth_of_mem hparts hpart)

/-- A literal is written with the characters of the text that it was read from, and delimiters. -/
theorem mem_of_mem_symbols (h : read clause raw = .ok l) :
    ∀ s ∈ l.symbols, ∀ c ∈ s, c ∈ raw ∨ IsDelimiter c := by
  obtain ⟨head, inside, htext, -, hname, -, hargs⟩ := read_eq_ok_iff.1 h
  have hraw : ∀ {c : Char}, c ∈ head ∨ c ∈ inside → c ∈ raw := by
    intro c hc
    refine mem_of_mem_trim ?_
    rw [htext]
    rcases hc with hc | hc
    · exact List.mem_append_left _ hc
    · exact List.mem_append_right _ (List.mem_cons_of_mem _ (List.mem_append_left _ hc))
  refine forall_mem_symbols ?_ ?_ ?_ ?_
  · intro hneg
    rcases readName_eq hname with ⟨-, rest, rfl, -⟩ | ⟨hpos, -⟩
    · exact List.forall_mem_singleton.2 (Or.inl (hraw (Or.inl List.mem_cons_self)))
    · rw [hneg] at hpos
      cases hpos
  · intro c hc
    rcases readName_eq hname with ⟨-, rest, rfl, htrim⟩ | ⟨-, -, htrim⟩
    · rw [htrim] at hc
      exact Or.inl (hraw (Or.inl (List.mem_cons_of_mem _ (mem_of_mem_trim hc))))
    · rw [htrim] at hc
      exact Or.inl (hraw (Or.inl (mem_of_mem_trim hc)))
  · intro c hdelim
    exact List.forall_mem_singleton.2 (Or.inr hdelim)
  · intro t ht s hs c hc
    rcases readArgs_eq_ok_iff.1 hargs with ⟨-, hnil⟩ | ⟨-, hall⟩
    · rw [hnil] at ht
      cases ht
    · obtain ⟨parts, hparts, hmap⟩ := Term.readAll_eq_ok_iff.1 hall
      obtain ⟨part, hpart, hread⟩ := exists_mem_of_map_eq hmap ht
      exact (Term.mem_of_mem_symbols hread s hs c hc).imp
        (fun hc => hraw (Or.inr ((sublist_of_mem_splitArguments hparts hpart).subset hc))) id

end Literal

/-! ### Clauses -/

namespace Clause

variable {id : Nat} {text : List Char} {c : Clause}

theorem read_eq_ok_iff :
    read id text = .ok c ↔
      c.id = id ∧ (text.splitOn '|').map (Literal.read id) = c.literals.map .ok := by
  rw [read, map_eq_ok_iff]
  constructor
  · rintro ⟨ls, hls, rfl⟩
    exact ⟨rfl, mapM_eq_ok_iff.1 hls⟩
  · rintro ⟨rfl, hmap⟩
    exact ⟨c.literals, mapM_eq_ok_iff.2 hmap, rfl⟩

/-- The literals of a clause are read one by one, from the pieces of the text. -/
theorem forall₂_of_read (h : read id text = .ok c) :
    List.Forall₂ (fun raw l => Literal.read id raw = .ok l) (text.splitOn '|') c.literals :=
  forall₂_of_map_eq (read_eq_ok_iff.1 h).2

/-- What a clause can be when it has been read from a line. -/
structure Legible (c : Clause) : Prop where
  ne_nil : c.literals ≠ []
  literals : ∀ l ∈ c.literals, l.Legible c.id
  /-- No literal would be taken for several, or for one on two lines. -/
  no_mark : ∀ l ∈ c.literals, ∀ s ∈ l.symbols, '|' ∉ s ∧ '\n' ∉ s
  /-- The clause is not taken for a comment. -/
  no_comment : ∀ s, c.symbols.head? = some s → s.head? ≠ some '%'

/-- The first symbol of a clause is that of its first literal. -/
theorem head?_symbols {l : Literal} {ls : List Literal} (h : c.literals = l :: ls) :
    c.symbols.head? = some (if l.positive then l.predicate.toList else ['-']) := by
  obtain ⟨rest, hrest⟩ := exists_intercalate_cons ['|'] l.symbols (ls.map Literal.symbols)
  rw [symbols, h, List.map_cons, hrest, Literal.symbols]
  cases l.positive with
  | true => rfl
  | false => rfl

/-- A clause that begins with a positive literal begins as its text does. -/
theorem head?_of_read {l : Literal} {ls : List Literal} (h : read id text = .ok c)
    (hc : c.literals = l :: ls) (htext : Trimmed text) (hpos : l.positive = true) :
    l.predicate.toList.head? = text.head? := by
  have hpieces := forall₂_of_read h
  -- the text begins with the first piece, and the literal begins as that does
  obtain ⟨raw, raws, hsplit⟩ := List.exists_cons_of_ne_nil (List.splitOn_ne_nil '|' text)
  obtain ⟨rest, hrest⟩ := exists_intercalate_cons '|' raw raws
  rw [← hsplit, List.intercalate_splitOn] at hrest
  rw [hsplit, hc, List.forall₂_cons] at hpieces
  have hread : Literal.read id raw = .ok l := hpieces.1
  obtain ⟨hhead, -⟩ := Literal.head?_of_read hread hpos
  cases raw with
  | nil =>
    have hne := (Literal.legible_of_read hread).ne_nil
    exact absurd (List.head?_eq_none_iff.1 hhead) hne
  | cons x raw =>
    have hx : text.head? = some x := by simp [hrest]
    rw [hhead, head?_trim rfl (htext.head x hx), hx]

/-- A clause that is read from a line that is no comment is legible. -/
theorem legible_of_read (h : read id text = .ok c) (htext : Trimmed text) (hline : '\n' ∉ text)
    (hcomment : text.head? ≠ some '%') : c.Legible := by
  obtain ⟨rfl, hmap⟩ := read_eq_ok_iff.1 h
  have hraw : ∀ l ∈ c.literals, ∃ raw ∈ text.splitOn '|', Literal.read c.id raw = .ok l :=
    fun l hl => exists_mem_of_map_eq hmap hl
  refine ⟨?_, ?_, ?_, ?_⟩
  · intro hnil
    rw [hnil] at hmap
    exact List.splitOn_ne_nil '|' text (List.map_eq_nil_iff.1 hmap)
  · intro l hl
    obtain ⟨raw, -, hread⟩ := hraw l hl
    exact Literal.legible_of_read hread
  · intro l hl s hs
    obtain ⟨raw, hpiece, hread⟩ := hraw l hl
    have hfrom := Literal.mem_of_mem_symbols hread s hs
    constructor
    · intro hbar
      rcases hfrom _ hbar with hmem | hdelim
      · exact notMem_of_mem_splitOn hpiece hmem
      · exact absurd hdelim (by decide)
    · intro hnewline
      rcases hfrom _ hnewline with hmem | hdelim
      · exact hline (subset_of_mem_splitOn hpiece hmem)
      · exact absurd hdelim (by decide)
  · intro s hs
    cases hliterals : c.literals with
    | nil =>
      rw [symbols, hliterals] at hs
      cases hs
    | cons l ls =>
      rw [head?_symbols hliterals] at hs
      cases hpos : l.positive with
      | false =>
        rw [hpos, if_neg Bool.false_ne_true] at hs
        cases hs
        decide
      | true =>
        rw [hpos] at hs
        cases hs
        rw [if_pos rfl, head?_of_read h hliterals htext hpos]
        exact hcomment

end Clause

/-! ### Source texts -/

/-- The clauses of a source text are read one by one, from its live lines. -/
theorem forall₂_of_readClauses {lastId : Nat} {source : List Char} {cs : List Clause}
    (h : readClauses lastId source = .ok cs) :
    List.Forall₂ (fun line c => Clause.read c.id line.text = .ok c) (liveLines source) cs := by
  have hread := forall₂_of_map_eq (mapM_eq_ok_iff.1 h)
  rw [← List.zipIdx_map_fst (lastId + 1) (liveLines source), List.forall₂_map_left_iff]
  refine hread.imp ?_
  rintro ⟨line, id⟩ c hline
  dsimp only at hline ⊢
  unfold Line.read at hline
  split at hline
  · cases hline
  · next hc =>
    cases hline
    rwa [(Clause.read_eq_ok_iff.1 hc).1]

end Refutation
