import Refutation.Proofs.Lines
import Refutation.Proofs.Parts

/-!
# Every slice is there

The readers that slice a text in memory come to an end on every text, and with what the readers give
that take it apart.  A slice begins or ends where a mark was found, next to it, or at an end of the
text; so it is between characters, and its ends are in order if the marks are.  The inner text of a
term is sliced out between the first opening and the last closing parenthesis, which are never
compared.  But by then the closing one is known to be the last character, so the opening one comes
before it.

An argument is a proper part of the term's text, so no more calls can be under way at a time than
the text has characters.

## Main definitions

* `Term.Nested` — a text is read as an argument while another is read.

## Main results

* `Shape.exists_inside` — the parentheses of an application are in order.
* `Shape.ofTextSliced_eq`, `Term.readSliced_eq`, `Literal.readSliced_eq`, `Clause.readSliced_eq`,
  `readLinesSliced_eq` — the readers come to an end, one by one.
* `Term.Nested.byteLength_lt` — arguments are shorter.
* `readSliced_returns` — **reading ends on every text, and every slice is there**.
-/

namespace Refutation

open Text Reading

variable {text raw name rest head before inside after part : List Char} {clause depth : Nat}

/-! ### Terms -/

namespace Shape

/-- If a text with an opening parenthesis ends with a closing one, then that comes after the first
opening one. -/
theorem exists_inside (hopen : text = name ++ '(' :: rest) (hclose : text = before ++ [')']) :
    ∃ inside, rest = inside ++ [')'] ∧ before = name ++ '(' :: inside := by
  rcases List.eq_nil_or_concat rest with rfl | ⟨inside, c, rfl⟩
  · -- the text would end with the opening parenthesis
    have hlast := congrArg List.getLast? (hopen.symm.trans hclose)
    simp at hlast
  · have heq : (name ++ '(' :: inside) ++ [c] = before ++ [')'] := by
      rw [← hclose, hopen]
      simp
    obtain ⟨hbefore, hc⟩ := List.append_inj' heq rfl
    cases hc
    exact ⟨inside, List.concat_eq_append, hbefore.symm⟩

/-- The last closing parenthesis ends the text exactly if nothing comes after it. -/
theorem getLast?_eq_iff (h : text = before ++ ')' :: after) (hafter : ')' ∉ after) :
    text.getLast? = some ')' ↔ after = [] := by
  rcases List.eq_nil_or_concat after with rfl | ⟨after, c, rfl⟩
  · simp [h]
  · have hc : c ≠ ')' := by
      rintro rfl
      simp at hafter
    simp [h, List.getLast?_append, List.getLast?_cons, hc]

/-- The inner text of an application is there, whatever the text. -/
theorem innerSliced_eq (htext : text = name ++ '(' :: rest) :
    innerSliced text name (byteLength name) = returns (inner text name rest) := by
  unfold innerSliced inner
  split
  · rfl
  · split
    · rfl
    · cases hcut : cutLast? ')' text with
      | none =>
        have hlast : ¬ text.getLast? = some ')' := fun h =>
          cutLast?_eq_none_iff.1 hcut (List.mem_of_getLast? h)
        rw [offsetLast?, hcut, if_neg hlast]
        rfl
      | some r =>
        obtain ⟨before, after⟩ := r
        obtain ⟨hclose, hafter⟩ := cutLast?_eq_some_iff.1 hcut
        have hlast := getLast?_eq_iff hclose hafter
        have hlength : byteLength text = byteLength before + 1 + byteLength after := by
          rw [hclose, byteLength_append, byteLength_cons, Nat.add_assoc]
          rfl
        rw [offsetLast?, hcut]
        dsimp only [Option.map_some]
        by_cases hnil : after = []
        · -- the closing parenthesis ends the text, so it comes after the opening one
          rw [if_neg (by simp [hlength, hnil]), if_pos (hlast.2 hnil)]
          obtain ⟨inside, rfl, rfl⟩ := exists_inside htext (by rw [hclose, hnil])
          rw [List.dropLast_concat, returns_ok]
          exact slice_between name inside [')'] rfl htext
        · have hne : byteLength after ≠ 0 := fun h => hnil (byteLength_eq_zero_iff.1 h)
          rw [if_pos (by omega), if_neg fun h => hnil (hlast.1 h),
            slice_after before after rfl hclose]
          rfl

/-- If the last closing parenthesis ends a text, then the first opening one comes before it, and the
text between them is there. -/
theorem between_parentheses {opening closing : Nat} (hopen : offsetFirst? '(' text = some opening)
    (hclose : offsetLast? ')' text = some closing) (hend : closing + 1 = byteLength text) :
    opening + 1 ≤ closing ∧ IsBoundary text (opening + 1) ∧ IsBoundary text closing := by
  obtain ⟨name, rest, htext, -, rfl⟩ := offsetFirst?_eq_some_iff.1 hopen
  obtain ⟨before, after, hbefore, -, rfl⟩ := offsetLast?_eq_some_iff.1 hclose
  have hsize : Char.utf8Size ')' = 1 := rfl
  have hafter : after = [] := by
    refine byteLength_eq_zero_iff.1 ?_
    simp [hbefore, hsize] at hend
    omega
  obtain ⟨inside, rfl, rfl⟩ := exists_inside htext (by rw [hbefore, hafter])
  refine isSome_slice?_iff.1 (Option.isSome_iff_exists.2 ⟨inside, slice?_eq_some_iff.2 ?_⟩)
  exact ⟨name ++ ['('], [')'], by simp [htext], byteLength_concat name rfl, by simp⟩

/-- The outermost level of a term's text is found, whatever the text. -/
theorem ofTextSliced_eq (raw : List Char) : ofTextSliced raw = returns (ofText raw) := by
  unfold ofTextSliced ofText
  dsimp only
  generalize squeeze raw = text
  split
  · rfl
  · split
    · rfl
    · cases hcut : cutFirst? '(' text with
      | none =>
        rw [offsetFirst?, hcut]
        rfl
      | some r =>
        obtain ⟨name, rest⟩ := r
        obtain ⟨htext, -⟩ := cutFirst?_eq_some_iff.1 hcut
        have hname : slice text 0 (byteLength name) = (pure name : Reading Fault _) :=
          slice_eq [] name _ htext rfl rfl
        rw [offsetFirst?, hcut]
        dsimp only [Option.map_some]
        rw [hname, pure_bind, innerSliced_eq htext]
        cases inner text name rest with
        | error fault => rfl
        | ok inside => rfl

end Shape

namespace Term

/-- A text is read as an argument while another is read. -/
def Nested (raw part : List Char) : Prop :=
  ∃ name inside parts, Shape.ofText raw = .ok (.app name inside) ∧
    splitArguments inside = .ok parts ∧ part ∈ parts

/-- The text of an argument has fewer bytes. -/
theorem Nested.byteLength_lt (h : Nested raw part) : byteLength part < byteLength raw := by
  obtain ⟨name, inside, parts, hshape, hparts, hmem⟩ := h
  have hinside := byteLength_le_of_sublist (sublist_of_mem_splitArguments hparts hmem)
  have hsqueeze : byteLength (squeeze raw) ≤ byteLength raw :=
    byteLength_le_of_sublist List.filter_sublist
  rw [Shape.squeeze_eq_of_app hshape] at hsqueeze
  have hpos := Char.utf8Size_pos '('
  simp at hsqueeze
  omega

/-- A list of arguments is read to the end if its parts are. -/
theorem readArgumentsSliced_eq {readTerm : List Char → Reading Fault Term}
    (h : ∀ part : List Char, part.length ≤ text.length →
      readTerm part = returns (read clause part)) :
    readArgumentsSliced readTerm text = returns (readAll clause text) := by
  rw [readArgumentsSliced, splitSliced_eq, readAll]
  cases hparts : splitArguments text with
  | error fault => rfl
  | ok parts =>
    have hargs : parts.mapM readTerm = returns (parts.mapM (read clause)) :=
      mapM_eq_returns fun part hpart => h part (length_le_of_mem_splitArguments hparts hpart)
    rw [returns_ok, pure_bind, hargs]
    rfl

/-- A term is read to the end at any depth above its length. -/
theorem readSliced_eq (h : raw.length < depth) :
    readSliced clause depth raw = returns (read clause raw) := by
  -- each level takes one from the depth, and at least one from the length
  induction depth generalizing raw with
  | zero => omega
  | succ depth ih =>
    rw [readSliced, Shape.ofTextSliced_eq, read_eq]
    cases hshape : Shape.ofText raw with
    | error fault => rfl
    | ok shape =>
      cases shape with
      | atom text => rfl
      | app name inside =>
        have hlt := Shape.length_lt_of_app hshape
        have hargs : readArgumentsSliced (readSliced clause depth) inside =
            returns (readAll clause inside) :=
          readArgumentsSliced_eq fun part hle => ih (by omega)
        rw [returns_ok, pure_bind]
        dsimp only
        rw [hargs]
        cases readAll clause inside with
        | error fault => rfl
        | ok ts => rfl

end Term

/-! ### Literals -/

namespace Literal

/-- The name of a literal is there, with the minus sign left out. -/
theorem slice_name (htext : text = head ++ '(' :: rest) :
    ∃ name, slice text (if text.head? = some '-' then 1 else 0) (byteLength head) =
        (pure name : Reading Fault _) ∧
      readName head = (!(text.head? = some '-' : Bool), trim name) := by
  have hhead : text.head? = some '-' ↔ head.head? = some '-' := by
    cases head <;> simp [htext]
  by_cases hminus : head.head? = some '-'
  · obtain ⟨name, rfl⟩ := List.head?_eq_some_iff.1 hminus
    refine ⟨name, ?_, ?_⟩
    · rw [if_pos (hhead.2 hminus)]
      exact slice_eq ['-'] name _ htext rfl rfl
    · simp [hhead, readName]
  · refine ⟨head, ?_, ?_⟩
    · rw [if_neg fun h => hminus (hhead.1 h)]
      exact slice_eq [] head _ htext rfl rfl
    · simp only [hhead, hminus, readName]
      split
      · simp at hminus
      · rfl

/-- Without a closing parenthesis after the opening one, the last one is found in front of it. -/
theorem offsetLast?_lt (htext : text = head ++ '(' :: rest) (hrest : ')' ∉ rest)
    (hhead : ')' ∈ head) : ∃ closing, offsetLast? ')' text = some closing ∧
      closing < byteLength head := by
  cases hcut : cutLast? ')' head with
  | none => exact absurd hhead (cutLast?_eq_none_iff.1 hcut)
  | some r =>
    obtain ⟨before, after⟩ := r
    obtain ⟨rfl, hafter⟩ := cutLast?_eq_some_iff.1 hcut
    have hlast : offsetLast? ')' text = some (byteLength before) :=
      offsetLast?_eq_some_iff.2
        ⟨before, after ++ '(' :: rest, by simp [htext], by simp [hafter, hrest], rfl⟩
    refine ⟨byteLength before, hlast, ?_⟩
    have hpos := Char.utf8Size_pos ')'
    simp
    omega

theorem readArgsSliced_eq (h : inside.length < depth) :
    readArgsSliced clause depth inside = returns (readArgs clause inside) := by
  unfold readArgsSliced readArgs
  split
  · rfl
  · exact Term.readArgumentsSliced_eq fun part hle => Term.readSliced_eq (by omega)

/-- A literal is read to the end. -/
theorem readSliced_eq (h : raw.length < depth) :
    readSliced clause depth raw = returns (read clause raw) := by
  have hlength : (trim raw).length < depth := Nat.lt_of_le_of_lt (length_trim_le raw) h
  unfold readSliced read
  dsimp only
  generalize trim raw = text at hlength
  split
  · rfl
  · cases hopen : cutFirst? '(' text with
    | none =>
      rw [offsetFirst?, hopen]
      rfl
    | some r =>
      obtain ⟨head, rest⟩ := r
      obtain ⟨htext, -⟩ := cutFirst?_eq_some_iff.1 hopen
      have hopening : offsetFirst? '(' text = some (byteLength head) := by
        rw [offsetFirst?, hopen]
        rfl
      rw [hopening]
      dsimp only
      cases hclose : cutLast? ')' rest with
      | none =>
        have hrest := cutLast?_eq_none_iff.1 hclose
        by_cases hhead : ')' ∈ head
        · obtain ⟨closing, hclosing, hlt⟩ := offsetLast?_lt htext hrest hhead
          rw [hclosing]
          dsimp only
          rw [if_pos hlt]
          simp [hhead]
          rfl
        · have hclosing : offsetLast? ')' text = none :=
            offsetLast?_eq_none_iff.2 (by simp [htext, hhead, hrest])
          rw [hclosing]
          simp [hhead]
          rfl
      | some r =>
        obtain ⟨inside, after⟩ := r
        obtain ⟨rfl, hafter⟩ := cutLast?_eq_some_iff.1 hclose
        have hlast : text = (head ++ '(' :: inside) ++ ')' :: after := by simp [htext]
        have hclosing : offsetLast? ')' text = some (byteLength (head ++ '(' :: inside)) :=
          offsetLast?_eq_some_iff.2 ⟨_, after, hlast, hafter, rfl⟩
        have hlt : inside.length < text.length := by
          simp [htext]
          omega
        obtain ⟨name, hname, hread⟩ := slice_name htext
        rw [hclosing]
        dsimp only
        rw [if_neg (by simp), hname, pure_bind, hread]
        dsimp only
        split
        · rfl
        · rw [slice_after (head ++ '(' :: inside) after rfl hlast, pure_bind]
          split
          · rfl
          · rw [slice_between head inside (')' :: after) rfl htext, pure_bind,
              readArgsSliced_eq (by omega)]
            cases readArgs clause inside with
            | error fault => rfl
            | ok args => rfl

end Literal

/-! ### Clauses and source texts -/

/-- A clause is read to the end. -/
theorem Clause.readSliced_eq {id : Nat} (h : text.length < depth) :
    readSliced id depth text = returns (read id text) := by
  have hliterals : (text.splitOn '|').mapM (Literal.readSliced id depth) =
      returns ((text.splitOn '|').mapM (Literal.read id)) := by
    refine mapM_eq_returns fun raw hraw => Literal.readSliced_eq ?_
    exact Nat.lt_of_le_of_lt (sublist_of_mem_splitOn hraw).length_le h
  rw [readSliced, hliterals, read]
  cases (text.splitOn '|').mapM (Literal.read id) with
  | error fault => rfl
  | ok ls => rfl

variable {lastId number : Nat} {lines : List (List Char)} {source : List Char}

/-- The number issued last never goes down. -/
theorem le_readLines (lastId number : Nat) (lines : List (List Char)) :
    lastId ≤ (readLines lastId number lines).2 := by
  induction lines generalizing lastId number with
  | nil => exact Nat.le_refl lastId
  | cons raw lines ih =>
    rw [readLines]
    split
    · cases Clause.read (lastId + 1) (trim raw) with
      | error fault => exact Nat.le_succ lastId
      | ok c => exact Nat.le_of_succ_le (ih (lastId + 1) (number + 1))
    · exact ih lastId (number + 1)

/-- Lines are read to the end, as long as there are numbers for their clauses. -/
theorem readLinesSliced_eq (h : ∀ raw ∈ lines, raw.length < depth)
    (hmax : (readLines lastId number lines).2 ≤ maxId) :
    readLinesSliced depth lastId number lines = returns (readLines lastId number lines).1 := by
  induction lines generalizing lastId number with
  | nil => rfl
  | cons raw lines ih =>
    obtain ⟨hraw, hlines⟩ := List.forall_mem_cons.1 h
    have hlive : isLive raw = true ↔ ¬ ((trim raw).isEmpty ∨ (trim raw).head? = some '%') := by
      simp [isLive]
    rw [readLines] at hmax ⊢
    rw [readLinesSliced]
    dsimp only
    by_cases hskip : isLive raw = true
    · rw [if_pos hskip] at hmax ⊢
      rw [if_neg (hlive.1 hskip)]
      have hread : Clause.readSliced (lastId + 1) depth (trim raw) =
          returns (Clause.read (lastId + 1) (trim raw)) :=
        Clause.readSliced_eq (Nat.lt_of_le_of_lt (length_trim_le raw) hraw)
      cases hclause : Clause.read (lastId + 1) (trim raw) with
      | error fault =>
        rw [hclause] at hread hmax
        have hid : nextId? lastId = some (lastId + 1) := if_pos hmax
        rw [hid, need, pure_bind, hread]
        rfl
      | ok c =>
        rw [hclause] at hread hmax
        have hle := le_readLines (lastId + 1) (number + 1) lines
        have hid : nextId? lastId = some (lastId + 1) := if_pos (Nat.le_trans hle hmax)
        have hrest : readLinesSliced depth (lastId + 1) (number + 1) lines =
            returns (readLines (lastId + 1) (number + 1) lines).1 := ih hlines hmax
        rw [hid, need, pure_bind, hread]
        show (readLinesSliced depth (lastId + 1) (number + 1) lines >>= fun cs => pure (c :: cs)) =
          returns ((readLines (lastId + 1) (number + 1) lines).1.map (c :: ·))
        rw [hrest]
        cases (readLines (lastId + 1) (number + 1) lines).1 with
        | error e => rfl
        | ok cs => rfl
    · rw [if_neg hskip] at hmax ⊢
      rw [if_pos (not_not.1 fun hnot => hskip (hlive.2 hnot))]
      exact ih hlines hmax

/-- A source text is read to the end, as long as there are numbers for its clauses. -/
theorem readClausesSliced_eq (h : source.length < depth)
    (hmax : lastIdAfter lastId (readClauses lastId source) ≤ maxId) :
    readClausesSliced depth lastId source = returns (readClauses lastId source) := by
  have hlines : ∀ raw ∈ source.splitOn '\n', raw.length < depth := fun raw hraw =>
    Nat.lt_of_le_of_lt (sublist_of_mem_splitOn hraw).length_le h
  have heq : readLines lastId 1 (source.splitOn '\n') =
      (readClauses lastId source, lastIdAfter lastId (readClauses lastId source)) :=
    readLines_eq lastId 1 (source.splitOn '\n')
  have hread : readLinesSliced depth lastId 1 (source.splitOn '\n') =
      returns (readLines lastId 1 (source.splitOn '\n')).1 :=
    readLinesSliced_eq hlines (by rwa [heq])
  rwa [heq] at hread

/-! ### All readers -/

/-- **Reading ends on every text, and every slice is there.** As a term, a literal or a clause, any
text comes to a result or a fault, the same as without slices, and calls for terms are nested at
most as deep as the text is long.  So does a source text, as long as there are numbers for its
clauses.  A slice is only there if its start is at most its end and both lie between
characters.  That goes for the inner text of a term, which is sliced out if the last closing
parenthesis is at the end, although it is not compared with the first opening one.  The text of an
argument is strictly shorter than that of the term. -/
theorem readSliced_returns (raw : List Char) (n lastId depth : Nat) (hdepth : raw.length < depth) :
    Term.readSliced n depth raw = returns (Term.read n raw) ∧
    Literal.readSliced n depth raw = returns (Literal.read n raw) ∧
    Clause.readSliced n depth raw = returns (Clause.read n raw) ∧
    (lastIdAfter lastId (readClauses lastId raw) ≤ maxId →
      readClausesSliced depth lastId raw = returns (readClauses lastId raw)) ∧
    (∀ text start stop, (slice? text start stop).isSome ↔
      start ≤ stop ∧ IsBoundary text start ∧ IsBoundary text stop) ∧
    (∀ opening closing, offsetFirst? '(' (squeeze raw) = some opening →
      offsetLast? ')' (squeeze raw) = some closing → closing + 1 = byteLength (squeeze raw) →
      opening + 1 ≤ closing ∧ IsBoundary (squeeze raw) (opening + 1) ∧
        IsBoundary (squeeze raw) closing) ∧
    ∀ part, Term.Nested raw part → byteLength part < byteLength raw :=
  ⟨Term.readSliced_eq hdepth, Literal.readSliced_eq hdepth, Clause.readSliced_eq hdepth,
    readClausesSliced_eq hdepth, fun _ _ _ => isSome_slice?_iff,
    fun _ _ => Shape.between_parentheses, fun _ => Term.Nested.byteLength_lt⟩

/-- Two calls are nested here, and one of the characters takes two bytes. -/
theorem readSliced_returns_two :
    let raw := "p(é, f(X))".toList
    let l : Literal := ⟨true, "p", [.const "é", .app "f" [.var ⟨"X", 7⟩]]⟩
    Term.readSliced 7 11 raw = returns (.ok (.app "p" [.const "é", .app "f" [.var ⟨"X", 7⟩]])) ∧
      Literal.readSliced 7 11 raw = returns (.ok l) ∧
      readClausesSliced 11 6 raw = returns (.ok [⟨7, [l]⟩]) ∧
      byteLength "f(X)".toList < byteLength raw := by
  intro raw l
  obtain ⟨hterm, hliteral, -, hclauses, -, -, hnested⟩ :=
    readSliced_returns raw 7 6 11 (by decide)
  have ht : Term.read 7 raw = .ok (.app "p" [.const "é", .app "f" [.var ⟨"X", 7⟩]]) :=
    eq_ok_of_toOption (by decide +kernel)
  have hl : Literal.read 7 raw = .ok l := eq_ok_of_toOption (by decide +kernel)
  have hcs : readClauses 6 raw = .ok [⟨7, [l]⟩] := eq_ok_of_toOption (by decide +kernel)
  have hmax : lastIdAfter 6 (readClauses 6 raw) ≤ maxId := by
    rw [hcs]
    decide
  have hsplit : splitArguments "é,f(X)".toList = .ok ["é".toList, "f(X)".toList] :=
    eq_ok_of_toOption (by decide +kernel)
  have hshape : Shape.ofText raw = .ok (.app "p".toList "é,f(X)".toList) :=
    eq_ok_of_toOption (by decide +kernel)
  rw [ht] at hterm
  rw [hl] at hliteral
  have hclauses' := hclauses hmax
  rw [hcs] at hclauses'
  exact ⟨hterm, hliteral, hclauses', hnested _ ⟨_, _, _, hshape, hsplit, by simp⟩⟩

end Refutation
