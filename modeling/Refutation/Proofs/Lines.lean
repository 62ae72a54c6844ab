import Refutation.Proofs.Legible
import Refutation.Proofs.Scopes
import Refutation.Proofs.Variants

/-!
# Reading line by line

The lines of a source text are read one after the other, and three counts go along: that of all
lines, that of the numbers given to clauses, and the clauses read so far.  A line without a clause
moves the first on alone.  A line with a clause takes a number whether it can be read or not, and
whether it can does not depend on the number: another number only moves the variables.  So the first
faulty line is found by looking at each line by itself.

## Main definitions

* `Clause.movedTo` — a clause under another number.
* `isLive`, `Accepted` — a line holds a clause, and one that can be read.
* `readFrom` — lines read from the middle of a source text on.
* `readLines` — lines read one after the other, with the number issued last.
* `ReadInOrder` — the clauses of lines.

## Main results

* `Clause.read_movedTo` — a line is read under any number alike.
* `Clause.read_eq_error_iff` — the fault of a clause is that of its first faulty literal.
* `readFrom_of_not_isLive`, `readFrom_of_isLive` — what one line does.
* `readLines_eq` — reading one line after the other comes to the same.
* `exists_readFrom_append` — what accepted lines do to the reading of those after them.
* `readClauses_lines` — **lines are read each by itself, and the first fault is reported**.
-/

namespace Refutation

open Text

/-! ### Lists of readings -/

section Readings

variable {ε α β : Type} {f g : α → Except ε β} {xs : List α}

/-- Readings that differ by a map give lists that differ by it. -/
theorem mapM_eq_map_mapM {h : β → β} (hxs : ∀ x ∈ xs, g x = (f x).map h) :
    xs.mapM g = (xs.mapM f).map (List.map h) := by
  induction xs with
  | nil => rfl
  | cons x xs ih =>
    obtain ⟨hx, hxs⟩ := List.forall_mem_cons.1 hxs
    rw [List.mapM_cons, List.mapM_cons, hx, ih hxs]
    cases f x with
    | error e => rfl
    | ok y =>
      cases xs.mapM f with
      | error e => rfl
      | ok ys => rfl

/-- The first member that is not read ends the reading. -/
theorem mapM_append_cons_of_error {before after : List α} {x : α} {e : ε}
    (hbefore : ∀ y ∈ before, ∃ b, f y = .ok b) (he : f x = .error e) :
    (before ++ x :: after).mapM f = .error e := by
  induction before with
  | nil =>
    rw [List.nil_append, List.mapM_cons, he]
    rfl
  | cons y before ih =>
    obtain ⟨⟨b, hb⟩, hbefore⟩ := List.forall_mem_cons.1 hbefore
    rw [List.cons_append, List.mapM_cons, hb, ih hbefore]
    rfl

/-- A list that is not read has a first member that is not, and its fault is that of the list. -/
theorem mapM_eq_error_iff {e : ε} :
    xs.mapM f = .error e ↔ ∃ before x after, xs = before ++ x :: after ∧
      (∀ y ∈ before, ∃ b, f y = .ok b) ∧ f x = .error e := by
  constructor
  · intro h
    induction xs with
    | nil => cases h
    | cons x xs ih =>
      rw [List.mapM_cons] at h
      cases hx : f x with
      | error e' =>
        rw [hx] at h
        cases h
        exact ⟨[], x, xs, rfl, List.forall_mem_nil _, hx⟩
      | ok b =>
        cases hxs : xs.mapM f with
        | error e' =>
          rw [hx, hxs] at h
          cases h
          obtain ⟨before, x', after, rfl, hbefore, he⟩ := ih hxs
          exact ⟨x :: before, x', after, rfl, List.forall_mem_cons.2 ⟨⟨b, hx⟩, hbefore⟩, he⟩
        | ok bs =>
          rw [hx, hxs] at h
          cases h
  · rintro ⟨before, x, after, rfl, hbefore, he⟩
    exact mapM_append_cons_of_error hbefore he

end Readings

/-! ### Another number -/

/-- The variable of the same name in another clause. -/
def Var.movedTo (clause : Nat) (v : Var) : Var := ⟨v.name, clause⟩

/-- The same clause under another number. -/
def Clause.movedTo (id : Nat) (c : Clause) : Clause :=
  ⟨id, c.literals.map (Literal.rename (Var.movedTo id))⟩

variable {clause : Nat} {raw text : List Char}

namespace Term

theorem readAtom_movedTo (clause clause' : Nat) (text : List Char) :
    readAtom clause' text = (readAtom clause text).map (rename (Var.movedTo clause')) := by
  unfold readAtom
  split
  · rfl
  · split
    · split
      · rfl
      · rfl
    · rfl

/-- Arguments are read alike if the parts of the text are. -/
theorem readAll_movedTo_of_forall {clause' : Nat}
    (h : ∀ part : List Char, part.length ≤ text.length →
      read clause' part = (read clause part).map (rename (Var.movedTo clause'))) :
    readAll clause' text =
      (readAll clause text).map (List.map (rename (Var.movedTo clause'))) := by
  unfold readAll
  cases hparts : splitArguments text with
  | error fault => rfl
  | ok parts =>
    exact mapM_eq_map_mapM fun part hpart => h part (length_le_of_mem_splitArguments hparts hpart)

/-- A term is read alike in another clause, but for the owner of its variables. -/
theorem read_movedTo (clause clause' : Nat) (raw : List Char) :
    read clause' raw = (read clause raw).map (rename (Var.movedTo clause')) := by
  -- the induction is on the length of the text, for arguments are read from parts of it
  induction hn : raw.length using Nat.strongRecOn generalizing raw with
  | _ n ih =>
    rw [read_eq, read_eq]
    cases hshape : Shape.ofText raw with
    | error fault => rfl
    | ok shape =>
      cases shape with
      | atom text => exact readAtom_movedTo clause clause' text
      | app name inside =>
        have hlt := Shape.length_lt_of_app hshape
        have hall : readAll clause' inside = (readAll clause inside).map
            (List.map (rename (Var.movedTo clause'))) :=
          readAll_movedTo_of_forall fun part hle => ih part.length (by omega) part rfl
        dsimp only
        rw [hall]
        cases readAll clause inside with
        | error fault => rfl
        | ok ts =>
          show Except.ok _ = Except.ok _
          rw [rename_app]

end Term

theorem Literal.read_movedTo (clause clause' : Nat) (raw : List Char) :
    read clause' raw = (read clause raw).map (rename (Var.movedTo clause')) := by
  have hargs : ∀ inside, readArgs clause' inside =
      (readArgs clause inside).map (List.map (Term.rename (Var.movedTo clause'))) := by
    intro inside
    unfold readArgs
    split
    · rfl
    · exact Term.readAll_movedTo_of_forall fun part _ => Term.read_movedTo clause clause' part
  unfold read
  dsimp only
  split
  · rfl
  · split
    · rfl
    · split
      · rfl
      · next inside after _ =>
        rw [hargs]
        split
        · rfl
        · split
          · rfl
          · cases readArgs clause inside with
            | error fault => rfl
            | ok ts => rfl

/-- A clause is read under any number alike, but for the owner of its variables. -/
theorem Clause.read_movedTo (id id' : Nat) (text : List Char) :
    read id' text = (read id text).map (movedTo id') := by
  rw [read, read, mapM_eq_map_mapM fun raw _ => Literal.read_movedTo id id' raw]
  cases (text.splitOn '|').mapM (Literal.read id) with
  | error fault => rfl
  | ok ls => rfl

/-- The fault of a clause is that of its first faulty literal. -/
theorem Clause.read_eq_error_iff {id : Nat} {fault : Fault} :
    read id text = .error fault ↔ ∃ before raw after, text.splitOn '|' = before ++ raw :: after ∧
      (∀ r ∈ before, ∃ l, Literal.read id r = .ok l) ∧ Literal.read id raw = .error fault := by
  rw [← mapM_eq_error_iff, read, map_eq_error_iff]

/-! ### Lines -/

/-- Whether a line holds a clause: without the blanks around it, it is not empty and does not begin
with a percent sign. -/
def isLive (raw : List Char) : Bool := trim raw ≠ [] ∧ (trim raw).head? ≠ some '%'

/-- The line is read when it is all there is. -/
def Accepted (raw : List Char) : Prop := ∃ id c, Clause.read id (trim raw) = .ok c

theorem isLive_trim (raw : List Char) (number : Nat) :
    Line.isLive ⟨trim raw, number⟩ = isLive raw := by
  rw [Bool.eq_iff_iff, Line.isLive, isLive, decide_eq_true_eq]
  dsimp only
  generalize trim raw = text
  cases text with
  | nil => simp
  | cons c rest => simp

/-- An accepted line is read under any number. -/
theorem Accepted.exists_read (h : Accepted raw) (id : Nat) :
    ∃ c, Clause.read id (trim raw) = .ok c := by
  obtain ⟨id', c, hc⟩ := h
  exact ⟨c.movedTo id, by rw [Clause.read_movedTo id' id, hc]; rfl⟩

/-- A line that is not accepted has the same fault under any number. -/
theorem exists_fault_of_not_accepted (h : ¬ Accepted raw) :
    ∃ fault, ∀ id, Clause.read id (trim raw) = .error fault := by
  cases hread : Clause.read 0 (trim raw) with
  | error fault =>
    refine ⟨fault, fun id => ?_⟩
    rw [Clause.read_movedTo 0 id, hread]
    rfl
  | ok c => exact absurd ⟨0, c, hread⟩ h

/-- Read lines, the first of which has the given place in the source text. -/
def readFrom (lastId number : Nat) (lines : List (List Char)) :
    Except SourceError (List Clause) :=
  ((((lines.zipIdx number).map fun (text, number) => (⟨trim text, number⟩ : Line)).filter
    Line.isLive).zipIdx (lastId + 1)).mapM fun (line, id) => line.read id

variable {lastId number : Nat} {lines : List (List Char)}

/-- A source text is read from its first line on. -/
theorem readClauses_eq_readFrom (lastId : Nat) (source : List Char) :
    readClauses lastId source = readFrom lastId 1 (source.splitOn '\n') := rfl

/-- A line without a clause is counted and takes no number. -/
theorem readFrom_of_not_isLive (h : ¬ isLive raw = true) :
    readFrom lastId number (raw :: lines) = readFrom lastId (number + 1) lines := by
  rw [← isLive_trim raw number] at h
  rw [readFrom, List.zipIdx_cons, List.map_cons, List.filter_cons_of_neg h]
  rfl

/-- A line with a clause takes a number, and a fault ends the reading. -/
theorem readFrom_of_isLive (h : isLive raw = true) :
    readFrom lastId number (raw :: lines) =
      match Clause.read (lastId + 1) (trim raw) with
      | .error fault => .error ⟨number, lastId + 1, fault⟩
      | .ok c => (readFrom (lastId + 1) (number + 1) lines).map (c :: ·) := by
  rw [← isLive_trim raw number] at h
  rw [readFrom, List.zipIdx_cons, List.map_cons, List.filter_cons_of_pos h, List.zipIdx_cons,
    List.mapM_cons]
  unfold Line.read
  dsimp only
  cases Clause.read (lastId + 1) (trim raw) with
  | error fault => rfl
  | ok c =>
    have hrest : ∀ rest : Except SourceError (List Clause),
        (Except.ok c >>= fun c => rest >>= fun cs => pure (c :: cs)) = rest.map (c :: ·) := by
      intro rest
      cases rest with
      | error e => rfl
      | ok cs => rfl
    exact hrest _

/-- Read lines one after the other, given the number issued last and the place of the first line.
What is read comes with the number issued last in the end. -/
def readLines : Nat → Nat → List (List Char) → Except SourceError (List Clause) × Nat
  | lastId, _, [] => (.ok [], lastId)
  | lastId, number, raw :: lines =>
    if isLive raw then
      match Clause.read (lastId + 1) (trim raw) with
      | .error fault => (.error ⟨number, lastId + 1, fault⟩, lastId + 1)
      | .ok c =>
        let (rest, lastId') := readLines (lastId + 1) (number + 1) lines
        (rest.map (c :: ·), lastId')
    else readLines lastId (number + 1) lines

/-- The number issued last can be told from what has been read. -/
theorem readLines_eq (lastId number : Nat) (lines : List (List Char)) :
    readLines lastId number lines =
      (readFrom lastId number lines, lastIdAfter lastId (readFrom lastId number lines)) := by
  induction lines generalizing lastId number with
  | nil => rfl
  | cons raw lines ih =>
    rw [readLines]
    split
    · next hlive =>
      rw [readFrom_of_isLive hlive]
      cases Clause.read (lastId + 1) (trim raw) with
      | error fault => rfl
      | ok c =>
        dsimp only
        rw [ih]
        cases readFrom (lastId + 1) (number + 1) lines with
        | error e => rfl
        | ok cs => exact congrArg (Prod.mk _) (Nat.add_right_comm lastId 1 cs.length)
    · next hlive => rw [ih, readFrom_of_not_isLive hlive]

/-- The clauses are read in order from the lines that hold one, under the numbers after
`lastId`. -/
def ReadInOrder (lastId : Nat) (lines : List (List Char)) (cs : List Clause) : Prop :=
  List.Forall₂ (fun (raw, id) c => Clause.read id (trim raw) = .ok c)
    ((lines.filter isLive).zipIdx (lastId + 1)) cs

/-- Accepted lines are read, and the lines after them under the numbers that are left. -/
theorem exists_readFrom_append {before : List (List Char)}
    (h : ∀ raw ∈ before, isLive raw = true → Accepted raw) (lastId number : Nat)
    (after : List (List Char)) :
    ∃ cs, ReadInOrder lastId before cs ∧
      readFrom lastId number (before ++ after) =
        (readFrom (lastId + before.countP isLive) (number + before.length) after).map
          (cs ++ ·) := by
  induction before generalizing lastId number with
  | nil =>
    refine ⟨[], .nil, ?_⟩
    show readFrom lastId number after = (readFrom lastId number after).map ([] ++ ·)
    cases readFrom lastId number after with
    | error e => rfl
    | ok cs => rfl
  | cons raw before ih =>
    obtain ⟨hraw, hbefore⟩ := List.forall_mem_cons.1 h
    have hnumber : number + 1 + before.length = number + (before.length + 1) := by omega
    by_cases hlive : isLive raw = true
    · obtain ⟨c, hc⟩ := (hraw hlive).exists_read (lastId + 1)
      obtain ⟨cs, hcs, hread⟩ := ih hbefore (lastId + 1) (number + 1)
      refine ⟨c :: cs, ?_, ?_⟩
      · rw [ReadInOrder, List.filter_cons_of_pos hlive, List.zipIdx_cons]
        exact .cons hc hcs
      · have hid : lastId + 1 + before.countP isLive = lastId + (before.countP isLive + 1) := by
          omega
        rw [List.cons_append, readFrom_of_isLive hlive, hc, hread, hid, hnumber,
          List.countP_cons_of_pos hlive, List.length_cons]
        dsimp only
        generalize readFrom _ _ after = rest
        cases rest with
        | error e => rfl
        | ok cs => rfl
    · obtain ⟨cs, hcs, hread⟩ := ih hbefore lastId (number + 1)
      refine ⟨cs, ?_, ?_⟩
      · rwa [ReadInOrder, List.filter_cons_of_neg hlive]
      · rw [List.cons_append, readFrom_of_not_isLive hlive, hread, hnumber,
          List.countP_cons_of_neg hlive, List.length_cons]

theorem ReadInOrder.length_eq {cs : List Clause} (h : ReadInOrder lastId lines cs) :
    cs.length = lines.countP isLive := by
  rw [← List.Forall₂.length_eq h, List.length_zipIdx, List.countP_eq_length_filter]

/-- If all lines are accepted, all of them are read. -/
theorem exists_readFrom (h : ∀ raw ∈ lines, isLive raw = true → Accepted raw)
    (lastId number : Nat) :
    ∃ cs, ReadInOrder lastId lines cs ∧ readFrom lastId number lines = .ok cs := by
  obtain ⟨cs, hcs, hread⟩ := exists_readFrom_append h lastId number []
  rw [List.append_nil] at hread
  refine ⟨cs, hcs, hread.trans ?_⟩
  show Except.ok (cs ++ []) = .ok cs
  rw [List.append_nil]

/-- The first line that is not accepted ends the reading. -/
theorem readFrom_append_cons_of_not_accepted {before after : List (List Char)} {fault : Fault}
    (h : ∀ raw ∈ before, isLive raw = true → Accepted raw) (hlive : isLive raw = true)
    (hraw : ∀ id, Clause.read id (trim raw) = .error fault) (lastId number : Nat) :
    readFrom lastId number (before ++ raw :: after) =
      .error ⟨number + before.length, lastId + before.countP isLive + 1, fault⟩ := by
  obtain ⟨cs, -, hread⟩ := exists_readFrom_append h lastId number (raw :: after)
  rw [hread, readFrom_of_isLive hlive, hraw]
  rfl

/-- Of the lines that are not accepted, there is a first. -/
theorem exists_first_not_accepted (h : ¬ ∀ raw ∈ lines, isLive raw = true → Accepted raw) :
    ∃ before raw after, lines = before ++ raw :: after ∧
      (∀ r ∈ before, isLive r = true → Accepted r) ∧ isLive raw = true ∧ ¬ Accepted raw := by
  induction lines with
  | nil => exact absurd (List.forall_mem_nil _) h
  | cons raw lines ih =>
    by_cases hraw : isLive raw = true → Accepted raw
    · have hlines := fun hlines => h (List.forall_mem_cons.2 ⟨hraw, hlines⟩)
      obtain ⟨before, r, after, rfl, hbefore, hr⟩ := ih hlines
      exact ⟨raw :: before, r, after, rfl, List.forall_mem_cons.2 ⟨hraw, hbefore⟩, hr⟩
    · exact ⟨[], raw, lines, rfl, List.forall_mem_nil _, Classical.not_imp.1 hraw⟩

/-- **Lines are read each by itself, and the first fault is reported.**  If every line that holds a
clause is accepted, there is one clause for each, in order, under the numbers after `lastId`, and no
other numbers are taken.  Otherwise the first such line that is not accepted is reported, with its
place among all lines and its own fault, and one number is taken by it and by each line with a
clause before it.  All this comes from reading one line after the other, unless the numbers run out.
A line is read under any number alike, but for the owner of its variables, and its fault is that of
its first faulty literal. -/
theorem readClauses_lines (lastId : Nat) (source : List Char) :
    let lines := source.splitOn '\n'
    let result := readClauses lastId source
    ((∀ raw ∈ lines, isLive raw = true → Accepted raw) →
      ∃ cs, result = .ok cs ∧ ReadInOrder lastId lines cs ∧
        cs.map Clause.id = List.range' (lastId + 1) (lines.countP isLive) ∧
        lastIdAfter lastId result = lastId + lines.countP isLive) ∧
    ((¬ ∀ raw ∈ lines, isLive raw = true → Accepted raw) →
      ∃ before raw after e, lines = before ++ raw :: after ∧
        (∀ r ∈ before, isLive r = true → Accepted r) ∧ isLive raw = true ∧ ¬ Accepted raw ∧
        result = .error e ∧ e.line = before.length + 1 ∧
        (∀ id, Clause.read id (trim raw) = .error e.fault) ∧
        lastIdAfter lastId result = lastId + (before ++ [raw]).countP isLive) ∧
    readLines lastId 1 lines = (result, lastIdAfter lastId result) ∧
    (lastIdAfter lastId result ≤ maxId → readNumbered lastId source = .ok result) ∧
    (∀ id id' text, Clause.read id' text = (Clause.read id text).map (Clause.movedTo id')) ∧
    ∀ id text fault, Clause.read id text = .error fault ↔
      ∃ before raw after, text.splitOn '|' = before ++ raw :: after ∧
        (∀ r ∈ before, ∃ l, Literal.read id r = .ok l) ∧ Literal.read id raw = .error fault := by
  intro lines result
  have hresult : result = readFrom lastId 1 lines := readClauses_eq_readFrom lastId source
  refine ⟨?_, ?_, readLines_eq lastId 1 lines, fun hmax => if_pos hmax, Clause.read_movedTo,
    fun id text fault => Clause.read_eq_error_iff⟩
  · intro h
    obtain ⟨cs, hcs, hread⟩ := exists_readFrom h lastId 1
    rw [hread] at hresult
    have hids := map_id_of_readClauses hresult
    rw [hcs.length_eq] at hids
    refine ⟨cs, hresult, hcs, hids, ?_⟩
    rw [hresult, lastIdAfter, hcs.length_eq]
  · intro h
    obtain ⟨before, raw, after, hlines, hbefore, hlive, hraw⟩ := exists_first_not_accepted h
    obtain ⟨fault, hfault⟩ := exists_fault_of_not_accepted hraw
    rw [hlines, readFrom_append_cons_of_not_accepted hbefore hlive hfault lastId 1] at hresult
    refine ⟨before, raw, after, _, hlines, hbefore, hlive, hraw, hresult, Nat.add_comm _ _, hfault,
      ?_⟩
    rw [hresult, lastIdAfter, List.countP_append, List.countP_singleton, if_pos hlive]
    rfl

/-- The second live line is at fault, which is the fourth of all lines. -/
example : (match readNumbered 5 "p(a)\n\n% r\n q(b)|q(B c)|\nr(".toList with
    | .ok (.error e) => (e.line, e.clause, e.fault)
    | _ => (0, 0, .unclosed)) = (4, 7, .mixedCase "Bc") := by
  decide +kernel

end Refutation
