import Refutation.Proofs.Apart
import Refutation.Proofs.Legible
import Refutation.Proofs.Spacing

/-!
# Reading what has been written

Legible clauses are read as they were written, whatever blanks stand around their symbols and
whatever comments stand between them.  Inside the parentheses of a literal blanks count for nothing,
so there the text may be taken to be written without any.  Outside of them the readers look for marks
that no name has, and trim what stands between.

Whatever is read is legible.  So it can be written down and read again without change, though the
first text may have looked quite different.

## Main definitions

* `Term.written` — a term without blanks.

## Main results

* `Term.read_written` — a term is read as it was written.
* `Literal.read_of_spaced`, `Clause.read_of_spaced` — so are literals and clauses with blanks.
* `readClauses_of_laidOut` — so are clauses on lines of their own.
* `readClauses_writeClauses` — **writing clauses and reading them again changes nothing**.
-/

namespace Refutation

open Text

/-- Joined lists of texts are the joined texts. -/
theorem flatten_intercalate {α : Type} (l : List α) (ls : List (List (List α))) :
    ([l].intercalate ls).flatten = l.intercalate (ls.map List.flatten) := by
  induction ls with
  | nil => rfl
  | cons m ls ih =>
    cases ls with
    | nil => simp
    | cons m' ls =>
      rw [List.map_cons, List.map_cons, List.intercalate_cons_cons, List.intercalate_cons_cons,
        List.flatten_append, List.flatten_append, ih]
      simp

/-! ### Terms -/

namespace Term

variable {clause : Nat} {text : List Char} {t : Term} {ts : List Term}

/-- A term without blanks. -/
def written (t : Term) : List Char := t.symbols.flatten

@[simp] theorem written_var (v : Var) : (var v).written = v.name.toList := by
  simp [written]

@[simp] theorem written_const (a : String) : (const a).written = a.toList := by
  simp [written]

@[simp] theorem written_app (f : String) (ts : List Term) :
    (app f ts).written =
      f.toList ++ '(' :: ([','].intercalate (ts.map written) ++ [')']) := by
  rw [written, symbols_app, List.flatten_cons, List.flatten_cons, List.flatten_append,
    flatten_intercalate, List.map_map]
  rfl

namespace Legible

/-- A written term stays in one piece. -/
theorem whole (h : t.Legible clause) : Whole t.written := by
  induction h with
  | var hname =>
    rw [written_var]
    exact whole_of_forall hname.not_delimiter
  | const hname =>
    rw [written_const]
    exact whole_of_forall hname.not_delimiter
  | app hname _ _ _ ih =>
    rw [written_app]
    refine (whole_of_forall hname.not_delimiter).app (wholeInside_intercalate ?_)
    intro p hp
    obtain ⟨t, ht, rfl⟩ := List.mem_map.1 hp
    exact ih t ht

/-- A term is written without blanks and underscores. -/
theorem of_mem_symbols (h : t.Legible clause) :
    ∀ s ∈ t.symbols, s ≠ [] ∧ ∀ c ∈ s, isBlank c = false ∧ c ≠ '_' := by
  have hof : ∀ {name : List Char}, IsName name →
      name ≠ [] ∧ ∀ c ∈ name, isBlank c = false ∧ c ≠ '_' := by
    rintro name hname
    refine ⟨hname.ne_nil, fun c hc => ⟨hname.not_blank c hc, ?_⟩⟩
    rintro rfl
    exact hname.no_underscore hc
  induction h with
  | var hname => exact List.forall_mem_singleton.2 (hof hname)
  | const hname => exact List.forall_mem_singleton.2 (hof hname)
  | app hname _ _ _ ih =>
    refine forall_mem_symbols_app (hof hname) ?_ ih
    rintro c (rfl | rfl | rfl)
    · exact ⟨List.cons_ne_nil _ _, List.forall_mem_singleton.2 (by decide)⟩
    · exact ⟨List.cons_ne_nil _ _, List.forall_mem_singleton.2 (by decide)⟩
    · exact ⟨List.cons_ne_nil _ _, List.forall_mem_singleton.2 (by decide)⟩

theorem of_mem_written (h : t.Legible clause) :
    ∀ c ∈ t.written, isBlank c = false ∧ c ≠ '_' := by
  intro c hc
  obtain ⟨s, hs, hc⟩ := List.mem_flatten.1 hc
  exact (h.of_mem_symbols s hs).2 c hc

theorem written_ne_nil (h : t.Legible clause) : t.written ≠ [] := by
  cases h with
  | var hname => rw [written_var]; exact hname.ne_nil
  | const hname => rw [written_const]; exact hname.ne_nil
  | app hname => simp

theorem squeeze_written (h : t.Legible clause) : squeeze t.written = t.written :=
  squeeze_eq_self fun c hc => (h.of_mem_written c hc).1

end Legible

theorem IsName.notMem_parentheses (h : IsName text) : '(' ∉ text ∧ ')' ∉ text :=
  ⟨fun hc => h.not_delimiter _ hc (Or.inl rfl),
    fun hc => h.not_delimiter _ hc (Or.inr (Or.inl rfl))⟩

theorem IsName.ofText_eq (h : IsName text) : Shape.ofText text = .ok (.atom text) :=
  Shape.ofText_eq_atom_iff.2
    ⟨squeeze_eq_self h.not_blank, h.ne_nil, h.no_underscore, h.notMem_parentheses.1⟩

/-- Arguments are read as they were written if each of them is. -/
theorem readAll_intercalate (hne : ts ≠ []) (hts : ∀ t ∈ ts, t.Legible clause)
    (hread : ∀ t ∈ ts, read clause t.written = .ok t) :
    readAll clause ([','].intercalate (ts.map written)) = .ok ts := by
  refine readAll_eq_ok_iff.2 ⟨ts.map written, ?_, ?_⟩
  · refine splitArguments_intercalate (mt List.map_eq_nil_iff.1 hne) ?_
    intro p hp
    obtain ⟨t, ht, rfl⟩ := List.mem_map.1 hp
    exact (hts t ht).whole
  · rw [List.map_map]
    exact List.map_congr_left hread

/-- A term is read as it was written. -/
theorem read_written (h : t.Legible clause) : read clause t.written = .ok t := by
  induction h with
  | @var name hname hlower =>
    rw [written_var, read_eq, hname.ofText_eq]
    refine readAtom_eq_ok_iff.2 ⟨hname.notMem_parentheses.2, Or.inr ⟨hlower, ?_⟩⟩
    rw [String.ofList_toList]
  | @const name hname hlower hupper =>
    rw [written_const, read_eq, hname.ofText_eq]
    refine readAtom_eq_ok_iff.2 ⟨hname.notMem_parentheses.2, Or.inl ⟨hlower, hupper, ?_⟩⟩
    rw [String.ofList_toList]
  | @app name ts hname hupper hne hts ih =>
    have happ : Legible clause (.app name ts) := .app hname hupper hne hts
    have hunder : '_' ∉ squeeze (app name ts).written :=
      fun hc => (happ.of_mem_written _ (mem_squeeze.1 hc).1).2 rfl
    have hshape := Shape.ofText_eq_app_iff.2 ⟨happ.squeeze_written.trans (written_app name ts),
      hunder, hname.notMem_parentheses.1, hname.ne_nil, hupper⟩
    rw [read_eq, hshape]
    dsimp only
    rw [readAll_intercalate hne hts ih, String.ofList_toList]
    rfl

/-- Blanks in a term do not count. -/
theorem read_squeeze (clause : Nat) (raw : List Char) :
    read clause (squeeze raw) = read clause raw := by
  rw [read_eq, read_eq, Shape.ofText, squeeze_squeeze]
  rfl

/-- Blanks in an argument list do not count. -/
theorem readAll_squeeze (clause : Nat) (text : List Char) :
    readAll clause (squeeze text) = readAll clause text := by
  rw [readAll, readAll, splitArguments_squeeze]
  cases splitArguments text with
  | error fault => rfl
  | ok parts =>
    show (parts.map squeeze).mapM (read clause) = parts.mapM (read clause)
    rw [List.mapM_map]
    exact congrArg (parts.mapM ·) (funext (read_squeeze clause))

/-- Arguments are read as they were written, with blanks around their symbols. -/
theorem readAll_of_spaced (hne : ts ≠ []) (hts : ∀ t ∈ ts, t.Legible clause)
    (h : Spaced ([[',']].intercalate (ts.map symbols)) text) : readAll clause text = .ok ts := by
  have htext : squeeze text = [','].intercalate (ts.map written) := by
    rw [h.squeeze_eq, flatten_intercalate, List.map_map]
    refine squeeze_eq_self fun c hc => ?_
    rcases eq_or_mem_of_mem_intercalate hc with rfl | ⟨p, hp, hc⟩
    · decide
    · obtain ⟨t, ht, rfl⟩ := List.mem_map.1 hp
      exact ((hts t ht).of_mem_written c hc).1
  rw [← readAll_squeeze, htext]
  exact readAll_intercalate hne hts fun t ht => read_written (hts t ht)

end Term

/-! ### Literals -/

namespace Literal

variable {clause : Nat} {raw head text : List Char} {l : Literal}

theorem readArgs_of_spaced (hts : ∀ t ∈ l.args, t.Legible clause)
    (h : Spaced ([[',']].intercalate (l.args.map Term.symbols)) text) :
    readArgs clause text = .ok l.args := by
  refine readArgs_eq_ok_iff.2 ?_
  cases hargs : l.args with
  | nil =>
    rw [hargs] at h
    exact Or.inl ⟨h.spaces.isBlank, rfl⟩
  | cons t ts =>
    rw [hargs] at h hts
    refine Or.inr ⟨?_, Term.readAll_of_spaced (List.cons_ne_nil t ts) hts h⟩
    -- the first argument has a character that is no blank
    have ht := hts t List.mem_cons_self
    obtain ⟨c, hc⟩ := List.exists_mem_of_ne_nil _ ht.written_ne_nil
    obtain ⟨s, hs, hcs⟩ := List.mem_flatten.1 hc
    have hmem := h.subset_of_mem (mem_intercalate_of_mem List.mem_cons_self hs)
    exact ⟨c, hmem hcs, (ht.of_mem_written c hc).1⟩

theorem readName_of_head? (h : head.head? ≠ some '-') : readName head = (true, trim head) := by
  unfold readName
  split
  · exact absurd rfl h
  · rfl

/-- The sign and the name of a literal are read as they were written. -/
theorem exists_readName (hl : l.Legible clause)
    (h : Spaced ((if l.positive then [] else [['-']]) ++ [l.predicate.toList]) text) :
    ∃ gap head, text = gap ++ head ∧ Spaces gap ∧ head ≠ [] ∧
      (∀ c, head.head? = some c → isBlank c = false) ∧ '(' ∉ head ∧
        readName head = (l.positive, l.predicate.toList) := by
  have hno : ∀ {gap : List Char}, Spaces gap → '(' ∉ gap := by
    intro gap hgap hc
    have hblank := hgap.isBlank _ hc
    revert hblank
    decide
  cases hpos : l.positive with
  | true =>
    rw [hpos, if_pos rfl, List.nil_append] at h
    obtain ⟨gap, rest, hgap, hrest, rfl⟩ := h.exists_cons
    refine ⟨gap, l.predicate.toList ++ rest, rfl, hgap, ?_, ?_, ?_, ?_⟩
    · simp [hl.ne_nil]
    · rw [List.head?_append_of_ne_nil _ hl.ne_nil]
      exact hl.trimmed.head
    · rw [List.mem_append, not_or]
      exact ⟨hl.no_parenthesis, hno hrest.spaces⟩
    · have htrim := hl.trimmed.trim_append Spaces.nil.isBlank hrest.spaces.isBlank
      rw [List.nil_append] at htrim
      rw [readName_of_head?, htrim]
      rw [List.head?_append_of_ne_nil _ hl.ne_nil]
      exact hl.no_minus hpos
  | false =>
    rw [hpos, if_neg Bool.false_ne_true] at h
    obtain ⟨gap, rest, hgap, hrest, rfl⟩ := h.exists_cons
    obtain ⟨gap', rest', hgap', hrest', rfl⟩ := hrest.exists_cons
    refine ⟨gap, '-' :: (gap' ++ (l.predicate.toList ++ rest')), rfl, hgap, ?_, ?_, ?_, ?_⟩
    · exact List.cons_ne_nil _ _
    · intro c hc
      cases hc
      decide
    · rw [List.mem_cons, List.mem_append, List.mem_append, not_or, not_or, not_or]
      exact ⟨by decide, hno hgap', hl.no_parenthesis, hno hrest'.spaces⟩
    · show (false, trim (gap' ++ (l.predicate.toList ++ rest'))) = _
      rw [hl.trimmed.trim_append hgap'.isBlank hrest'.spaces.isBlank]

/-- A literal is read as it was written, with blanks around its symbols. -/
theorem read_of_spaced (hl : l.Legible clause) (h : Spaced l.symbols raw) :
    read clause raw = .ok l := by
  have hsymbols : l.symbols = ((if l.positive then [] else [['-']]) ++ [l.predicate.toList]) ++
      ['('] :: ([[',']].intercalate (l.args.map Term.symbols) ++ [[')']]) := by
    rw [symbols, List.append_assoc]
    rfl
  rw [hsymbols] at h
  obtain ⟨front, back, hfront, hback, rfl⟩ := h.exists_append
  obtain ⟨gap, rest, hgap, hrest, rfl⟩ := hback.exists_cons
  obtain ⟨inside, close, hinside, hclose, rfl⟩ := hrest.exists_append
  obtain ⟨gap', post, hgap', hpost, rfl⟩ := hclose.exists_cons
  obtain ⟨pre, head, hhead, hpre, hne, hfirst, hopen, hname⟩ :=
    exists_readName hl (hfront.append_gap hgap)
  refine read_eq_ok_iff.2 ⟨head, inside ++ gap', ?_, hopen, hname, hl.ne_nil,
    readArgs_of_spaced hl.args (hinside.append_gap hgap')⟩
  -- the text of the literal begins and ends with something else than a blank
  have htrimmed : Trimmed (head ++ '(' :: (inside ++ gap' ++ [')'])) := by
    constructor
    · rwa [List.head?_append_of_ne_nil _ hne]
    · intro c hc
      rw [← List.cons_append, ← List.append_assoc, List.getLast?_concat] at hc
      cases hc
      decide
  have htext : front ++ (gap ++ (['('] ++ (inside ++ (gap' ++ ([')'] ++ post))))) =
      pre ++ ((head ++ '(' :: (inside ++ gap' ++ [')'])) ++ post) := by
    rw [← List.append_assoc front, hhead]
    simp
  rw [htext]
  exact htrimmed.trim_append hpre.isBlank hpost.spaces.isBlank

end Literal

/-! ### Clauses -/

namespace Clause

variable {id : Nat} {text : List Char} {ls : List Literal} {c : Clause}

/-- The literals between bars are read as they were written. -/
theorem map_read_splitOn (hne : ls ≠ []) (hls : ∀ l ∈ ls, l.Legible id)
    (hbar : ∀ l ∈ ls, ∀ s ∈ l.symbols, '|' ∉ s)
    (h : Spaced ([['|']].intercalate (ls.map Literal.symbols)) text) :
    (text.splitOn '|').map (Literal.read id) = ls.map .ok := by
  induction ls generalizing text with
  | nil => exact absurd rfl hne
  | cons l ls ih =>
    obtain ⟨hl, hls⟩ := List.forall_mem_cons.1 hls
    obtain ⟨hbarl, hbar⟩ := List.forall_mem_cons.1 hbar
    cases ls with
    | nil =>
      rw [List.map_singleton, List.intercalate_singleton] at h
      rw [List.splitOn_eq_singleton (h.notMem (Or.inl (by decide)) hbarl), List.map_singleton,
        Literal.read_of_spaced hl h]
      rfl
    | cons l' ls =>
      rw [List.map_cons, List.map_cons, List.intercalate_cons_cons, List.append_assoc] at h
      obtain ⟨front, back, hfront, hback, rfl⟩ := h.exists_append
      obtain ⟨gap, rest, hgap, hrest, rfl⟩ := hback.exists_cons
      have hl' := hfront.append_gap hgap
      rw [← List.append_assoc front, List.singleton_append,
        List.splitOn_append_cons_self_of_not_mem (hl'.notMem (Or.inl (by decide)) hbarl),
        List.map_cons, Literal.read_of_spaced hl hl', ih (List.cons_ne_nil l' ls) hls hbar hrest]
      rfl

/-- A clause is read as it was written, with blanks around its symbols. -/
theorem read_of_spaced (hc : c.Legible) (h : Spaced c.symbols text) : read c.id text = .ok c :=
  read_eq_ok_iff.2 ⟨rfl, map_read_splitOn hc.ne_nil hc.literals
    (fun l hl s hs => (hc.no_mark l hl s hs).1) h⟩

namespace Legible

theorem exists_symbols (hc : c.Legible) : ∃ s ss, c.symbols = s :: ss := by
  obtain ⟨l, ls, hliterals⟩ := List.exists_cons_of_ne_nil hc.ne_nil
  have hhead := head?_symbols hliterals
  obtain ⟨ss, hss⟩ := List.head?_eq_some_iff.1 hhead
  exact ⟨_, ss, hss⟩

/-- No symbol of a clause begins or ends with a blank. -/
theorem solid (hc : c.Legible) : ∀ s ∈ c.symbols, Solid s := by
  have hmark : ∀ {x : Char}, isBlank x = false → Solid [x] := by
    intro x hx
    exact ⟨List.cons_ne_nil x [], trimmed_of_forall (List.forall_mem_singleton.2 hx)⟩
  refine forall_mem_symbols (hmark (by decide)) ?_
  intro l hl
  have hlegible := hc.literals l hl
  refine Literal.forall_mem_symbols (fun _ => hmark (by decide))
    ⟨hlegible.ne_nil, hlegible.trimmed⟩ ?_ ?_
  · rintro x (rfl | rfl | rfl)
    · exact hmark (by decide)
    · exact hmark (by decide)
    · exact hmark (by decide)
  · intro t ht s hs
    obtain ⟨hne, hs⟩ := (hlegible.args t ht).of_mem_symbols s hs
    exact ⟨hne, trimmed_of_forall fun x hx => (hs x hx).1⟩

/-- A clause is written on one line. -/
theorem newline_notMem (hc : c.Legible) (h : Spaced c.symbols text) : '\n' ∉ text := by
  refine h.notMem (Or.inr rfl) (forall_mem_symbols (by decide) ?_)
  exact fun l hl s hs => (hc.no_mark l hl s hs).2

/-- A line with a clause is live, and the clause is read from it. -/
theorem read_line (hc : c.Legible) (h : Spaced c.symbols text) (number : Nat) :
    Line.isLive ⟨trim text, number⟩ = true ∧ Line.read ⟨trim text, number⟩ c.id = .ok c := by
  obtain ⟨s, ss, hsymbols⟩ := hc.exists_symbols
  have hsolid := hc.solid
  rw [hsymbols] at h hsolid
  obtain ⟨rest, hrest, htrim⟩ := h.exists_trim hsolid
  have htext : Spaced c.symbols (trim text) := by
    rw [hsymbols, htrim]
    exact .cons .nil hrest
  constructor
  · obtain ⟨x, s', rfl⟩ := List.exists_cons_of_ne_nil (hsolid s List.mem_cons_self).ne_nil
    have hx : x ≠ '%' := by
      rintro rfl
      exact hc.no_comment _ (by rw [hsymbols]; rfl) rfl
    rw [Line.isLive, htrim]
    exact bne_iff_ne.2 hx
  · rw [Line.read]
    dsimp only
    rw [read_of_spaced hc htext]

end Legible
end Clause

/-! ### Source texts -/

/-- An idle line is not live. -/
theorem Idle.isLive {line : List Char} (h : Idle line) (number : Nat) :
    Line.isLive ⟨trim line, number⟩ = false := by
  obtain ⟨-, hspaces | ⟨gap, text, hgap, rfl⟩⟩ := h
  · rw [trim_eq_nil_iff.2 hspaces.isBlank]
    rfl
  · have hhead : ∀ c, ('%' :: text).head? = some c → isBlank c = false := by
      intro c hc
      cases hc
      decide
    have hlast : ∀ c, ['%'].getLast? = some c → isBlank c = false := by
      intro c hc
      cases hc
      decide
    rw [trim_append_of_blank hgap.isBlank hhead, ← List.singleton_append, trimEnd_append hlast]
    rfl

namespace LaidOut

variable {cs : List Clause} {lines : List (List Char)}

theorem newline_notMem (h : LaidOut cs lines) (hcs : ∀ c ∈ cs, c.Legible) :
    ∀ line ∈ lines, '\n' ∉ line := by
  induction h with
  | nil => exact fun _ hline => by cases hline
  | idle hidle _ ih => exact List.forall_mem_cons.2 ⟨hidle.1, ih hcs⟩
  | clause hspaced _ ih =>
    obtain ⟨hc, hcs⟩ := List.forall_mem_cons.1 hcs
    exact List.forall_mem_cons.2 ⟨hc.newline_notMem hspaced, ih hcs⟩

/-- The live lines are those of the clauses, from which they are read in order. -/
theorem map_read (h : LaidOut cs lines) (hcs : ∀ c ∈ cs, c.Legible) {first : Nat}
    (hids : cs.map Clause.id = List.range' first cs.length) (number : Nat) :
    (((((lines.zipIdx number).map fun (text, number) => (⟨trim text, number⟩ : Line)).filter
      Line.isLive).zipIdx first).map fun (line, id) => line.read id) = cs.map .ok := by
  induction h generalizing first number with
  | nil => rfl
  | idle hidle _ ih =>
    rw [List.zipIdx_cons, List.map_cons, List.filter_cons_of_neg]
    · exact ih hcs hids (number + 1)
    · dsimp only
      rw [hidle.isLive]
      exact Bool.false_ne_true
  | clause hspaced _ ih =>
    obtain ⟨hc, hcs⟩ := List.forall_mem_cons.1 hcs
    rw [List.map_cons, List.length_cons, List.range'_succ] at hids
    obtain ⟨rfl, hids⟩ := List.cons.inj hids
    obtain ⟨hlive, hread⟩ := hc.read_line hspaced number
    rw [List.zipIdx_cons, List.map_cons, List.filter_cons_of_pos hlive, List.zipIdx_cons,
      List.map_cons, List.map_cons]
    exact congrArg₂ List.cons hread (ih hcs hids (number + 1))

end LaidOut

/-- Legible clauses that are laid out on lines are read. -/
theorem readClauses_of_laidOut {cs : List Clause} {lines : List (List Char)} {lastId : Nat}
    (h : LaidOut cs lines) (hcs : ∀ c ∈ cs, c.Legible)
    (hids : cs.map Clause.id = List.range' (lastId + 1) cs.length) :
    readClauses lastId (['\n'].intercalate lines) = .ok cs := by
  have hread := h.map_read hcs hids 1
  refine mapM_eq_ok_iff.2 ?_
  rw [liveLines]
  cases lines with
  | nil =>
    cases h
    rfl
  | cons line lines =>
    rw [List.splitOn_intercalate '\n' (h.newline_notMem hcs) (List.cons_ne_nil line lines)]
    exact hread

/-! ### Writing and reading again -/

theorem mem_liveLines {source : List Char} {line : Line} (h : line ∈ liveLines source) :
    line.isLive = true ∧ ∃ raw ∈ source.splitOn '\n', line.text = trim raw := by
  obtain ⟨hmem, hlive⟩ := List.mem_filter.1 h
  obtain ⟨⟨raw, number⟩, hraw, rfl⟩ := List.mem_map.1 hmem
  exact ⟨hlive, raw, List.fst_mem_of_mem_zipIdx hraw, rfl⟩

/-- Clauses that are read are legible. -/
theorem legible_of_readClauses {lastId : Nat} {source : List Char} {cs : List Clause}
    (h : readClauses lastId source = .ok cs) : ∀ c ∈ cs, c.Legible := by
  intro c hc
  obtain ⟨id, line, hline, hread⟩ := exists_read_of_mem h hc
  obtain ⟨hlive, raw, hraw, htext⟩ := mem_liveLines hline
  rw [htext] at hread
  refine Clause.legible_of_read hread (trimmed_trim raw) ?_ ?_
  · exact fun hmem => notMem_of_mem_splitOn hraw (mem_of_mem_trim hmem)
  · rw [← htext]
    intro hhead
    obtain ⟨rest, hrest⟩ := List.head?_eq_some_iff.1 hhead
    rw [Line.isLive, hrest] at hlive
    exact absurd rfl (bne_iff_ne.1 hlive)

/-- Clauses can be written one on a line without blanks. -/
theorem laidOut_written (cs : List Clause) : LaidOut cs (cs.map Clause.written) := by
  induction cs with
  | nil => exact .nil
  | cons c cs ih => exact .clause (.flatten c.symbols) ih

/-- **Writing clauses and reading them again changes nothing.**  Clauses that were read from any text
are read again, with the same numbers, from the text that is written for them. -/
theorem readClauses_writeClauses {lastId : Nat} {source : List Char} {cs : List Clause}
    (h : readClauses lastId source = .ok cs) : readClauses lastId (writeClauses cs) = .ok cs :=
  readClauses_of_laidOut (laidOut_written cs) (legible_of_readClauses h) (map_id_of_readClauses h)

/-- The name of the first predicate has a blank and a parenthesis, that of the second begins with the
mark of a comment, and a digit is a variable. -/
theorem readClauses_writeClauses_two :
    let cs : List Clause := [⟨1, [⟨true, "p )", [.app "f-" [.var ⟨"1", 1⟩, .const "a"]]⟩]⟩,
      ⟨2, [⟨false, "%q", []⟩, ⟨true, "%q", []⟩]⟩]
    readClauses 0 " p ) ( f - (1, a) )\n\n% r\n- %q( )|%q( )".toList = .ok cs ∧
      writeClauses cs = "p )(f-(1,a))\n-%q()|%q()".toList ∧
      readClauses 0 (writeClauses cs) = .ok cs := by
  intro cs
  have hread : readClauses 0 " p ) ( f - (1, a) )\n\n% r\n- %q( )|%q( )".toList = .ok cs :=
    eq_ok_of_toOption (by decide +kernel)
  exact ⟨hread, by decide +kernel, readClauses_writeClauses hread⟩

end Refutation
