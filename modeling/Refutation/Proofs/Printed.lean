import Refutation.Proofs.Freshness
import Refutation.Proofs.Legible

/-!
# Reading the printed form

A clause is printed as one flat text.  A variable is its name, an underscore and the number of its
clause; the arguments of an application stand in parentheses after its name.  If names in terms have
none of the marks that the text is made of, everything can be found again: the literals at the bars,
the name of a predicate before the first opening parenthesis, arguments at the outer commas, and the
name of a variable before its underscore.  A predicate may have blanks, commas and closing
parentheses in its name, for it is only looked for up to that first parenthesis.

## Main definitions

* `IsNameChar`, `IsBareName` — names in terms.
* `Term.Printable`, `Literal.Printable`, `Clause.Printable` — names do not interfere with marks.

## Main results

* `Term.Printable.whole_squeeze` — a printed term is in one piece.
* `Term.eq_of_text_eq`, `Literal.eq_of_text_eq` — printed terms and literals can be told apart.
* `Clause.Printable.eq_of_text_eq` — a printed clause tells its number and its literals.
-/

namespace Refutation

open Text

/-! ### Names -/

/-- A character that can stand in a name: no blank, and no mark of the printed form. -/
def IsNameChar (c : Char) : Prop := isBlank c = false ∧ ¬ IsDelimiter c ∧ c ≠ '_' ∧ c ≠ '|'

instance : DecidablePred IsNameChar :=
  fun c => inferInstanceAs (Decidable (isBlank c = false ∧ ¬ IsDelimiter c ∧ c ≠ '_' ∧ c ≠ '|'))

/-- A name in a term. -/
structure IsBareName (name : String) : Prop where
  ne_nil : name.toList ≠ []
  chars : ∀ c ∈ name.toList, IsNameChar c

theorem isNameChar_of_isDigit {c : Char} (h : c.isDigit = true) : IsNameChar c := by
  have hmark : ∀ mark : Char, mark.isDigit = false → c ≠ mark := by
    rintro mark hmark rfl
    rw [h] at hmark
    cases hmark
  refine ⟨?_, ?_, hmark '_' rfl, hmark '|' rfl⟩
  · have hbounds : 48 ≤ c.toNat ∧ c.toNat ≤ 57 := Char.isDigit_iff_toNat.1 h
    simp [isBlank]
    omega
  · rintro (rfl | rfl | rfl)
    · cases h
    · cases h
    · cases h

variable {name name' : String} {n m : Nat} {pre pre' rest rest' : List Char} {mark : Char}

theorem isNameChar_of_mem_toDigits {c : Char} (h : c ∈ Nat.toDigits 10 n) : IsNameChar c :=
  isNameChar_of_isDigit (Nat.isDigit_of_mem_toDigits (by decide) (by decide) h)

namespace IsBareName

theorem squeeze_eq (h : IsBareName name) : squeeze name.toList = name.toList :=
  squeeze_eq_self fun c hc => (h.chars c hc).1

theorem notMem (h : IsBareName name) (hmark : ¬ IsNameChar mark) : mark ∉ name.toList :=
  fun hmem => hmark (h.chars mark hmem)

end IsBareName

theorem notMem_toDigits (hmark : ¬ IsNameChar mark) : mark ∉ Nat.toDigits 10 n :=
  fun hmem => hmark (isNameChar_of_mem_toDigits hmem)

theorem squeeze_toDigits (n : Nat) : squeeze (Nat.toDigits 10 n) = Nat.toDigits 10 n :=
  squeeze_eq_self fun _ hc => (isNameChar_of_mem_toDigits hc).1

/-- A text is cut at its first mark in one way only. -/
theorem append_cons_inj (h : pre ++ mark :: rest = pre' ++ mark :: rest') (hpre : mark ∉ pre)
    (hpre' : mark ∉ pre') : pre = pre' ∧ rest = rest' := by
  have hcut := (cutFirst?_eq_some_iff.2 ⟨rfl, hpre⟩).symm.trans (cutFirst?_eq_some_iff.2 ⟨h, hpre'⟩)
  exact Prod.mk.inj (Option.some.inj hcut)

/-- Lists are equal if their images are and no two members have one image. -/
theorem eq_of_map_eq {α β : Type} {f : α → β} {xs ys : List α}
    (hinj : ∀ x ∈ xs, ∀ y ∈ ys, f x = f y → x = y) (h : xs.map f = ys.map f) : xs = ys := by
  induction xs generalizing ys with
  | nil => exact (List.map_eq_nil_iff.1 h.symm).symm
  | cons x xs ih =>
    obtain ⟨y, ys, rfl, hy, hys⟩ := List.map_eq_cons_iff.1 h.symm
    have hrest : xs = ys := ih (fun x hx y hy => hinj x (List.mem_cons_of_mem _ hx) y
      (List.mem_cons_of_mem _ hy)) hys.symm
    rw [hinj x List.mem_cons_self y List.mem_cons_self hy.symm, hrest]

/-- Blanks after the commas of a list do not count. -/
theorem squeeze_intercalate (ls : List (List Char)) :
    squeeze ([',', ' '].intercalate ls) = [','].intercalate (ls.map squeeze) := by
  induction ls with
  | nil => rfl
  | cons l ls ih =>
    cases ls with
    | nil => simp
    | cons l' ls =>
      have hcomma : squeeze [',', ' '] = [','] := by decide
      rw [List.intercalate_cons_cons, squeeze_append, squeeze_append, ih, hcomma, List.map_cons,
        List.map_cons, List.map_cons, List.intercalate_cons_cons]

/-! ### Terms -/

namespace Term

/-- No name of a term has a mark in it. -/
inductive Printable : Term → Prop where
  /-- A variable with a bare name. -/
  | var {v : Var} : IsBareName v.name → Printable (.var v)
  /-- A constant with a bare name. -/
  | const {a : String} : IsBareName a → Printable (.const a)
  /-- An application with a bare name, of printable terms. -/
  | app {f : String} {ts : List Term} : IsBareName f → (∀ t ∈ ts, Printable t) →
    Printable (.app f ts)

/-- The printed form of a term without blanks. -/
def packed (t : Term) : List Char := squeeze t.text.toList

theorem packed_var {v : Var} (h : IsBareName v.name) :
    (var v).packed = v.name.toList ++ '_' :: Nat.toDigits 10 v.clause := by
  have hmark : isBlank '_' = false := by decide
  simp [packed, Var.text, h.squeeze_eq, squeeze_cons hmark, squeeze_toDigits]

theorem packed_const {a : String} (h : IsBareName a) : (const a).packed = a.toList := h.squeeze_eq

/-- Arguments are printed with a comma and a blank between them. -/
theorem squeeze_arguments (ts : List Term) :
    squeeze (", ".intercalate (ts.map text)).toList = [','].intercalate (ts.map packed) := by
  have hsep : ", ".toList = [',', ' '] := rfl
  rw [String.toList_intercalate, hsep, squeeze_intercalate, List.map_map, List.map_map]
  rfl

theorem packed_app {f : String} (h : IsBareName f) (ts : List Term) :
    (app f ts).packed = f.toList ++ '(' :: ([','].intercalate (ts.map packed) ++ [')']) := by
  have hopen : squeeze "(".toList = ['('] := by decide
  have hclose : squeeze ")".toList = [')'] := by decide
  rw [packed, text_app, String.toList_append, String.toList_append, String.toList_append,
    squeeze_append, squeeze_append, squeeze_append, h.squeeze_eq, squeeze_arguments, hopen, hclose]
  simp

variable {s t : Term} {ss ts : List Term}

theorem bar_notMem_intercalate (h : ∀ t ∈ ts, '|' ∉ t.packed) :
    '|' ∉ [','].intercalate (ts.map packed) := by
  intro hmem
  rcases eq_or_mem_of_mem_intercalate hmem with heq | ⟨l, hl, hmem⟩
  · cases heq
  · obtain ⟨t, ht, rfl⟩ := List.mem_map.1 hl
    exact h t ht hmem

namespace Printable

theorem packed_ne_nil (h : t.Printable) : t.packed ≠ [] := by
  cases h with
  | var hname => simp [packed_var hname]
  | const hname => simpa [packed_const hname] using hname.ne_nil
  | app hname => simp [packed_app hname]

/-- A printed term is in one piece. -/
theorem whole_packed (h : t.Printable) : Whole t.packed := by
  induction h with
  | @var v hname =>
    rw [packed_var hname]
    refine whole_of_forall fun c hc => ?_
    rcases List.mem_append.1 hc with hc | hc
    · exact (hname.chars c hc).2.1
    · rcases List.mem_cons.1 hc with rfl | hc
      · decide
      · exact (isNameChar_of_mem_toDigits hc).2.1
  | const hname =>
    rw [packed_const hname]
    exact whole_of_forall fun c hc => (hname.chars c hc).2.1
  | app hname _ ih =>
    rw [packed_app hname]
    refine (whole_of_forall fun c hc => (hname.chars c hc).2.1).app (wholeInside_intercalate ?_)
    simpa using ih

/-- No bar is printed in a term. -/
theorem bar_notMem (h : t.Printable) : '|' ∉ t.packed := by
  have hbar : ¬ IsNameChar '|' := by decide
  induction h with
  | var hname =>
    rw [packed_var hname]
    simp [hname.notMem hbar, notMem_toDigits hbar]
  | const hname =>
    rw [packed_const hname]
    exact hname.notMem hbar
  | @app f ts hname _ ih =>
    rw [packed_app hname]
    simp [hname.notMem hbar, bar_notMem_intercalate ih]

end Printable

/-- Only an empty list of arguments is printed as nothing. -/
theorem eq_nil_of_intercalate (hts : ∀ t ∈ ts, t.Printable)
    (h : [','].intercalate (ts.map packed) = []) : ts = [] := by
  cases ts with
  | nil => rfl
  | cons t ts =>
    obtain ⟨rest, hrest⟩ := exists_intercalate_cons ',' t.packed (ts.map packed)
    rw [List.map_cons, hrest] at h
    exact absurd (List.append_eq_nil_iff.1 h).1 (hts t List.mem_cons_self).packed_ne_nil

/-- Joined arguments come apart again. -/
theorem map_packed_eq_of_intercalate (hss : ∀ s ∈ ss, s.Printable) (hts : ∀ t ∈ ts, t.Printable)
    (h : [','].intercalate (ss.map packed) = [','].intercalate (ts.map packed)) :
    ss.map packed = ts.map packed := by
  have hwhole : ∀ {us : List Term}, (∀ u ∈ us, u.Printable) → ∀ p ∈ us.map packed, Whole p := by
    intro us hus p hp
    obtain ⟨u, hu, rfl⟩ := List.mem_map.1 hp
    exact (hus u hu).whole_packed
  by_cases hnil : ss = []
  · rw [hnil] at h ⊢
    rw [eq_nil_of_intercalate hts h.symm]
  · have hne : ts ≠ [] := by
      rintro rfl
      exact hnil (eq_nil_of_intercalate hss h)
    have hsplit := splitArguments_intercalate (by simpa using hnil) (hwhole hss)
    rw [h, splitArguments_intercalate (by simpa using hne) (hwhole hts)] at hsplit
    exact (Except.ok.inj hsplit).symm

theorem open_notMem_var {v : Var} (h : IsBareName v.name) : '(' ∉ (var v).packed := by
  have hopen : ¬ IsNameChar '(' := by decide
  rw [packed_var h]
  simp [h.notMem hopen, notMem_toDigits hopen]

theorem open_notMem_const {a : String} (h : IsBareName a) : '(' ∉ (const a).packed := by
  rw [packed_const h]
  exact h.notMem (by decide)

/-- Only an application is printed with parentheses. -/
theorem packed_ne_app {f : String} (hf : IsBareName f) (h : '(' ∉ s.packed) (ts : List Term) :
    s.packed ≠ (app f ts).packed := by
  intro heq
  rw [heq, packed_app hf] at h
  simp at h

/-- Only a variable is printed with an underscore. -/
theorem packed_var_ne_const {v : Var} {a : String} (hv : IsBareName v.name) (ha : IsBareName a) :
    (var v).packed ≠ (const a).packed := by
  intro heq
  have hunder : '_' ∉ a.toList := ha.notMem (by decide)
  rw [← packed_const ha, ← heq, packed_var hv] at hunder
  simp at hunder

/-- Printable terms can be told apart. -/
theorem eq_of_packed_eq (hs : s.Printable) (ht : t.Printable) (h : s.packed = t.packed) :
    s = t := by
  induction hs generalizing t with
  | @var v hv =>
    cases ht with
    | @var w hw =>
      rw [packed_var hv, packed_var hw] at h
      obtain ⟨hname, hclause⟩ :=
        append_cons_inj h (hv.notMem (by decide)) (hw.notMem (by decide))
      have heq : v = w := by
        cases v
        cases w
        rw [Var.mk.injEq]
        exact ⟨String.toList_inj.1 hname, toDigits_injective hclause⟩
      rw [heq]
    | const hb => exact absurd h (packed_var_ne_const hv hb)
    | app hg _ => exact absurd h (packed_ne_app hg (open_notMem_var hv) _)
  | @const a ha =>
    cases ht with
    | var hw => exact absurd h.symm (packed_var_ne_const hw ha)
    | @const b hb =>
      rw [packed_const ha, packed_const hb] at h
      rw [String.toList_inj.1 h]
    | app hg _ => exact absurd h (packed_ne_app hg (open_notMem_const ha) _)
  | @app f ss hf hss ih =>
    cases ht with
    | var hw => exact absurd h.symm (packed_ne_app hf (open_notMem_var hw) _)
    | const hb => exact absurd h.symm (packed_ne_app hf (open_notMem_const hb) _)
    | @app g ts hg hts =>
      rw [packed_app hf, packed_app hg] at h
      obtain ⟨hname, hargs⟩ :=
        append_cons_inj h (hf.notMem (by decide)) (hg.notMem (by decide))
      have hmap := map_packed_eq_of_intercalate hss hts (List.append_cancel_right hargs)
      rw [String.toList_inj.1 hname, eq_of_map_eq (fun s hs t ht => ih s hs (hts t ht)) hmap]

/-- Lists of printable terms can be told apart. -/
theorem eq_of_arguments_eq (hss : ∀ s ∈ ss, s.Printable) (hts : ∀ t ∈ ts, t.Printable)
    (h : ", ".intercalate (ss.map text) = ", ".intercalate (ts.map text)) : ss = ts := by
  refine eq_of_map_eq (fun s hs t ht => eq_of_packed_eq (hss s hs) (hts t ht)) ?_
  refine map_packed_eq_of_intercalate hss hts ?_
  rw [← squeeze_arguments, ← squeeze_arguments, h]

end Term

/-! ### Literals -/

namespace Literal

/-- The name of a literal ends where the first parenthesis opens, and no name or sign is taken for
another. -/
structure Printable (l : Literal) : Prop where
  no_parenthesis : '(' ∉ l.predicate.toList
  no_bar : '|' ∉ l.predicate.toList
  no_minus : l.positive = true → l.predicate.toList.head? ≠ some '-'
  args : ∀ t ∈ l.args, t.Printable

/-- The printed form of a literal up to its first parenthesis. -/
def front (l : Literal) : List Char := (if l.positive then [] else ['-']) ++ l.predicate.toList

theorem toList_text (l : Literal) :
    l.text.toList =
      l.front ++ '(' :: ((", ".intercalate (l.args.map Term.text)).toList ++ [')']) := by
  unfold text front
  cases l.positive with
  | true => simp
  | false => simp

variable {l m : Literal}

namespace Printable

theorem open_notMem_front (h : l.Printable) : '(' ∉ l.front := by
  unfold front
  split
  · simpa using h.no_parenthesis
  · simpa using h.no_parenthesis

/-- No bar is printed in a literal. -/
theorem bar_notMem (h : l.Printable) : '|' ∉ l.text.toList := by
  have hfront : '|' ∉ l.front := by
    unfold front
    split
    · simpa using h.no_bar
    · simpa using h.no_bar
  have hargs : '|' ∉ (", ".intercalate (l.args.map Term.text)).toList := by
    intro hmem
    have hsqueeze := mem_squeeze.2 ⟨hmem, (by decide : isBlank '|' = false)⟩
    rw [Term.squeeze_arguments] at hsqueeze
    exact Term.bar_notMem_intercalate (fun t ht => (h.args t ht).bar_notMem) hsqueeze
  rw [toList_text]
  simpa [hfront] using hargs

end Printable

/-- The minus sign is not part of a name. -/
theorem eq_of_front_eq (hl : l.Printable) (hm : m.Printable) (h : l.front = m.front) :
    l.positive = m.positive ∧ l.predicate = m.predicate := by
  unfold front at h
  cases hpos : l.positive with
  | true =>
    cases hpos' : m.positive with
    | true => exact ⟨rfl, String.toList_inj.1 (by simpa [hpos, hpos'] using h)⟩
    | false =>
      have hhead := hl.no_minus hpos
      simp [hpos, hpos'] at h
      simp [h] at hhead
  | false =>
    cases hpos' : m.positive with
    | true =>
      have hhead := hm.no_minus hpos'
      simp [hpos, hpos'] at h
      simp [← h] at hhead
    | false => exact ⟨rfl, String.toList_inj.1 (by simpa [hpos, hpos'] using h)⟩

/-- Printable literals can be told apart. -/
theorem eq_of_text_eq (hl : l.Printable) (hm : m.Printable) (h : l.text = m.text) : l = m := by
  have hlist := congrArg String.toList h
  rw [toList_text, toList_text] at hlist
  obtain ⟨hfront, hrest⟩ := append_cons_inj hlist hl.open_notMem_front hm.open_notMem_front
  obtain ⟨hpositive, hpredicate⟩ := eq_of_front_eq hl hm hfront
  have hargs : l.args = m.args :=
    Term.eq_of_arguments_eq hl.args hm.args (String.toList_inj.1 (List.append_cancel_right hrest))
  cases l
  cases m
  rw [Literal.mk.injEq]
  exact ⟨hpositive, hpredicate, hargs⟩

end Literal

/-! ### Clauses -/

namespace Clause

/-- A clause of printable literals, at least one. -/
structure Printable (c : Clause) : Prop where
  ne_nil : c.literals ≠ []
  literals : ∀ l ∈ c.literals, l.Printable

variable {c d : Clause}

theorem toList_text (c : Clause) :
    c.text.toList = "Clause ".toList ++ (Nat.toDigits 10 c.id ++
      ':' :: ' ' :: ['|'].intercalate (c.literals.map fun l => l.text.toList)) := by
  have hbar : "|".toList = ['|'] := rfl
  simp [text, String.toList_intercalate, hbar, Function.comp_def]

/-- The literals come apart at the bars. -/
theorem Printable.splitOn_eq (h : c.Printable) :
    (['|'].intercalate (c.literals.map fun l => l.text.toList)).splitOn '|' =
      c.literals.map fun l => l.text.toList := by
  refine List.splitOn_intercalate '|' ?_ (by simpa using h.ne_nil)
  intro text htext
  obtain ⟨l, hl, rfl⟩ := List.mem_map.1 htext
  exact (h.literals l hl).bar_notMem

/-- A printed clause tells its number and its literals. -/
theorem Printable.eq_of_text_eq (hc : c.Printable) (hd : d.Printable) (h : c.text = d.text) :
    c.id = d.id ∧ c.literals = d.literals := by
  have hcolon : ∀ n, ':' ∉ Nat.toDigits 10 n := fun n hmem =>
    absurd (Nat.isDigit_of_mem_toDigits (by decide) (by decide) hmem) (by decide)
  have hlist := congrArg String.toList h
  rw [toList_text, toList_text] at hlist
  obtain ⟨hid, hrest⟩ := append_cons_inj (List.append_cancel_left hlist) (hcolon _) (hcolon _)
  have hliterals : (c.literals.map fun l => l.text.toList) =
      d.literals.map fun l => l.text.toList := by
    rw [← hc.splitOn_eq, ← hd.splitOn_eq, (List.cons.inj hrest).2]
  refine ⟨toDigits_injective hid, eq_of_map_eq ?_ hliterals⟩
  intro l hl m hm htext
  exact Literal.eq_of_text_eq (hc.literals l hl) (hd.literals m hm) (String.toList_inj.1 htext)

end Clause

end Refutation
