import Refutation.Proofs.Balance
import Refutation.Source.Sliced

/-!
# What an argument list comes apart into

An argument list comes apart exactly if its parentheses balance, and then in one way only: into
texts that balance as well, have every comma inside parentheses, and give the list when they are
joined by commas.  If it does not come apart, either some prefix closes a parenthesis too many or
the end is reached with some of them open.

The list is taken apart in a single pass.  After each character the pass knows how many parentheses
are open and at which offset the part under way began, and its parts are those of the text so far.

## Main definitions

* `CommasInside` — every comma stands inside parentheses.
* `PartsOf` — texts are what an argument list comes apart into.

## Main results

* `leads_of_splitAtDepth_error` — why a text does not come apart.
* `splitAtDepth_append` — a text stays in one piece if its commas stand inside parentheses.
* `splitArguments_eq_ok_iff` — the parts of an argument list.
* `Pass.run_eq` — what is left of the pass, from any offset on.
* `splitArguments_exact` — **an argument list comes apart exactly at its outer commas**.
-/

namespace Refutation

open Text

/-- Every comma of a text stands inside parentheses, when `depth` of them are open before it. -/
def CommasInside (depth : Nat) (text : List Char) : Prop :=
  ∀ pre post, text = pre ++ ',' :: post → depth + pre.count '(' ≠ pre.count ')'

/-- Some texts, at least one, are balanced and have no outer comma, and they are joined by commas in
the given text. -/
structure PartsOf (text : List Char) (parts : List (List Char)) : Prop where
  ne_nil : parts ≠ []
  join : [','].intercalate parts = text
  balanced : ∀ p ∈ parts, Balanced p
  commas : ∀ p ∈ parts, CommasInside 0 p

variable {c : Char} {d e k depth : Nat} {text part cur pre rest p : List Char}
  {parts : List (List Char)} {fault : Fault}

/-! ### Commas -/

theorem CommasInside.cons (hclose : ¬ (d = 0 ∧ c = ')')) (hcomma : ¬ (d = 0 ∧ c = ','))
    (h : CommasInside (nesting d c) text) : CommasInside d (c :: text) := by
  intro pre post htext
  cases pre with
  | nil =>
    cases htext
    simpa using hcomma
  | cons c' pre =>
    cases htext
    have hne := h pre post rfl
    have hopen := add_count_cons hclose pre
    omega

theorem CommasInside.of_cons (hclose : ¬ (d = 0 ∧ c = ')')) (h : CommasInside d (c :: text)) :
    ¬ (d = 0 ∧ c = ',') ∧ CommasInside (nesting d c) text := by
  refine ⟨?_, ?_⟩
  · rintro ⟨rfl, rfl⟩
    exact h [] text rfl rfl
  · intro pre post htext
    have hne := h (c :: pre) post (by rw [htext]; rfl)
    have hopen := add_count_cons hclose pre
    omega

/-- What leads on from some parentheses does so after its first character. -/
theorem Leads.of_cons (h : Leads d e (c :: text)) :
    ¬ (d = 0 ∧ c = ')') ∧ Leads (nesting d c) e text := by
  have hclose : ¬ (d = 0 ∧ c = ')') := by
    rintro ⟨rfl, rfl⟩
    have hle := h.le [')'] (by simp)
    simp at hle
  refine ⟨hclose, ?_, ?_⟩
  · intro p hp
    have hle := h.le (c :: p) (by simpa using hp)
    have hopen := add_count_cons hclose p
    omega
  · have heq := h.eq
    have hopen := add_count_cons hclose text
    omega

/-! ### Texts that do not come apart -/

/-- A text that does not come apart closes a parenthesis too many, or leaves some open. -/
theorem leads_of_splitAtDepth_error (h : splitAtDepth d text = .error fault) :
    (fault = .unopened ∧ ∃ p, p <+: text ∧ d + p.count '(' < p.count ')') ∨
      (fault = .unclosed ∧ ∃ e, 0 < e ∧ Leads d e text) := by
  induction text generalizing d with
  | nil =>
    rw [splitAtDepth] at h
    split at h
    · cases h
    · next hd =>
      cases h
      exact Or.inr ⟨rfl, d, by omega, .nil⟩
  | cons c text ih =>
    by_cases hclose : d = 0 ∧ c = ')'
    · obtain ⟨rfl, rfl⟩ := hclose
      rw [splitAtDepth_zero_close] at h
      cases h
      exact Or.inl ⟨rfl, [')'], by simp, by simp⟩
    · -- whatever else the character is, the fault is one of the rest
      have hrest : splitAtDepth (nesting d c) text = .error fault := by
        rw [splitAtDepth, if_neg hclose] at h
        split at h
        · next hcomma =>
          obtain ⟨rfl, rfl⟩ := hcomma
          exact map_eq_error_iff.1 h
        · exact map_eq_error_iff.1 h
      rcases ih hrest with ⟨hfault, p, hp, hlt⟩ | ⟨hfault, e, he, hleads⟩
      · have hopen := add_count_cons hclose p
        exact Or.inl ⟨hfault, c :: p, by simpa using hp, by omega⟩
      · exact Or.inr ⟨hfault, e, he, hleads.cons hclose⟩

/-- No prefix of a balanced text closes a parenthesis too many. -/
theorem not_exists_prefix (h : Balanced text) :
    ¬ ∃ p, p <+: text ∧ p.count '(' < p.count ')' := by
  rintro ⟨p, hp, hlt⟩
  have hle := h.1 p hp
  omega

/-- What becomes of an argument list. -/
theorem splitArguments_cases (text : List Char) :
    (∃ parts, splitArguments text = .ok parts) ∧ Balanced text ∨
      splitArguments text = .error .unopened ∧ (∃ p, p <+: text ∧ p.count '(' < p.count ')') ∨
      splitArguments text = .error .unclosed ∧ ¬ Balanced text ∧
        ¬ ∃ p, p <+: text ∧ p.count '(' < p.count ')' := by
  cases hsplit : splitArguments text with
  | ok parts => exact Or.inl ⟨⟨parts, rfl⟩, balanced_iff_leads.2 (leads_of_splitArguments hsplit)⟩
  | error fault =>
    rcases leads_of_splitAtDepth_error (map_eq_error_iff.1 hsplit) with
      ⟨rfl, p, hp, hlt⟩ | ⟨rfl, e, he, hleads⟩
    · exact Or.inr (Or.inl ⟨rfl, p, hp, by omega⟩)
    · refine Or.inr (Or.inr ⟨rfl, fun hbalanced => ?_, ?_⟩)
      · have htotal := hbalanced.2
        have heq := hleads.eq
        omega
      · rintro ⟨p, hp, hlt⟩
        have hle := hleads.le p hp
        omega

/-! ### Parts -/

/-- The parts are joined by commas in the text. -/
theorem intercalate_of_splitAtDepth (h : splitAtDepth d text = .ok (part, parts)) :
    [','].intercalate (part :: parts) = text := by
  induction text generalizing d part parts with
  | nil =>
    obtain ⟨-, rfl, rfl⟩ := splitAtDepth_nil_eq_ok h
    rfl
  | cons c text ih =>
    rcases splitAtDepth_cons_eq_ok h with
      ⟨-, rfl, rfl, part', parts', hr, rfl⟩ | ⟨-, -, part', hr, rfl⟩
    · rw [List.intercalate_cons_cons, ih hr]
      rfl
    · have hjoin := ih hr
      cases parts with
      | nil =>
        rw [List.intercalate_singleton] at hjoin ⊢
        rw [hjoin]
      | cons q parts =>
        rw [List.intercalate_cons_cons] at hjoin ⊢
        rw [← hjoin]
        rfl

/-- A text in one piece has its commas inside parentheses. -/
theorem commasInside_of_splitAtDepth (h : splitAtDepth d text = .ok (part, [])) :
    CommasInside d text := by
  induction text generalizing d part with
  | nil =>
    intro pre post htext
    simp at htext
  | cons c text ih =>
    rcases splitAtDepth_cons_eq_ok h with
      ⟨-, -, -, part', parts', -, hnil⟩ | ⟨hclose, hcomma, part', hr, -⟩
    · cases hnil
    · exact .cons hclose hcomma (ih hr)

/-- A text with its commas inside parentheses stays in one piece. -/
theorem splitAtDepth_append (hleads : Leads d e p) (hcommas : CommasInside d p) (k : Nat)
    (text : List Char) :
    splitAtDepth (d + k) (p ++ text) = (splitAtDepth (e + k) text).map (before p) := by
  induction p generalizing d with
  | nil =>
    have heq : d = e := by simpa using hleads.eq
    rw [heq]
    exact whole_nil (e + k) text
  | cons c p ih =>
    obtain ⟨hclose, hleads'⟩ := hleads.of_cons
    obtain ⟨hcomma, hcommas'⟩ := hcommas.of_cons hclose
    have hnesting : nesting (d + k) c = nesting d c + k := by
      unfold nesting
      grind
    have hfirst : ¬ (d + k = 0 ∧ c = ')') := fun h => hclose ⟨by omega, h.2⟩
    have hsecond : ¬ (d + k = 0 ∧ c = ',') := fun h => hcomma ⟨by omega, h.2⟩
    rw [List.cons_append, splitAtDepth, if_neg hfirst, if_neg hsecond, hnesting,
      ih hleads' hcommas']
    exact map_before_map_before (p := [c]) (splitAtDepth (e + k) text)

/-- A balanced text without outer commas stays in one piece wherever it comes. -/
theorem whole_of_balanced (h : Balanced p) (hcommas : CommasInside 0 p) : Whole p := by
  intro depth text
  have happend := splitAtDepth_append (balanced_iff_leads.1 h) hcommas depth text
  rwa [Nat.zero_add] at happend

/-- The parts of an argument list are the texts without outer commas that it is joined of. -/
theorem splitArguments_eq_ok_iff : splitArguments text = .ok parts ↔ PartsOf text parts := by
  constructor
  · intro h
    obtain ⟨⟨part, parts'⟩, hr, rfl⟩ := map_eq_ok_iff.1 h
    refine ⟨List.cons_ne_nil _ _, intercalate_of_splitAtDepth hr, fun p hp => ?_, fun p hp => ?_⟩
    · exact balanced_iff_leads.2 (leads_of_splitAtDepth (splitAtDepth_of_mem h hp))
    · exact commasInside_of_splitAtDepth (splitAtDepth_of_mem h hp)
  · rintro ⟨hne, rfl, hbalanced, hcommas⟩
    refine splitArguments_intercalate hne fun p hp => ?_
    exact whole_of_balanced (hbalanced p hp) (hcommas p hp)

/-! ### The pass -/

namespace Pass

open Reading

variable {offset start : Nat}

theorem step_close : step text ⟨0, start, parts⟩ offset ')' = throw .unopened := rfl

/-- An outer comma ends the part under way. -/
theorem step_comma (htext : text = pre ++ (cur ++ rest)) (hstart : byteLength pre = start)
    (hoffset : byteLength (pre ++ cur) = offset) :
    step text ⟨0, start, parts⟩ offset ',' = pure ⟨0, offset + 1, parts ++ [cur]⟩ := by
  show (slice text start offset >>= fun part =>
    pure (⟨0, offset + 1, parts ++ [part]⟩ : Pass)) = _
  rw [slice_eq pre cur rest htext hstart hoffset, pure_bind]

/-- Any other character is counted. -/
theorem step_of_not (hclose : ¬ (depth = 0 ∧ c = ')')) (hcomma : ¬ (depth = 0 ∧ c = ',')) :
    step text ⟨depth, start, parts⟩ offset c = pure ⟨nesting depth c, start, parts⟩ := by
  unfold step nesting
  grind

/-- From any offset on, the pass adds what the rest of the text comes apart into, and the part under
way is put before the first of these. -/
theorem run_eq (pre cur : List Char) (htext : text = pre ++ (cur ++ rest))
    (hstart : byteLength pre = start) (hoffset : byteLength (pre ++ cur) = offset) :
    run text ⟨depth, start, parts⟩ offset rest =
      returns ((splitAtDepth depth rest).map fun r => parts ++ (cur ++ r.1) :: r.2) := by
  induction rest generalizing pre cur depth start parts offset with
  | nil =>
    rw [run, splitAtDepth]
    by_cases hdepth : depth = 0
    · have hslice : slice text start (byteLength text) = (pure cur : Reading Fault _) :=
        slice_eq pre cur [] htext hstart (by rw [htext, List.append_nil])
      simp [hdepth, hslice, Except.map, returns_ok]
    · rw [if_pos (by simp; omega), if_neg hdepth]
      rfl
  | cons c rest ih =>
    rw [run]
    by_cases hclose : depth = 0 ∧ c = ')'
    · obtain ⟨rfl, rfl⟩ := hclose
      rw [step_close, splitAtDepth_zero_close]
      rfl
    · by_cases hcomma : depth = 0 ∧ c = ','
      · -- the part under way is over, and the next begins after the comma
        obtain ⟨rfl, rfl⟩ := hcomma
        have hsize : Char.utf8Size ',' = 1 := rfl
        have hend : byteLength (pre ++ cur ++ [',']) = offset + 1 := by
          rw [byteLength_concat _ rfl, hoffset]
        rw [step_comma htext hstart hoffset, pure_bind, hsize,
          ih (pre ++ cur ++ [',']) [] (by simp [htext]) hend (by rw [List.append_nil, hend]),
          splitAtDepth_zero_comma]
        cases splitAtDepth 0 rest with
        | error fault => rfl
        | ok r => simp [Except.map]
      · rw [step_of_not hclose hcomma, pure_bind,
          ih pre (cur ++ [c]) (by simp [htext]) hstart (by simp [← hoffset, Nat.add_assoc]),
          splitAtDepth, if_neg hclose, if_neg hcomma]
        cases splitAtDepth (nesting depth c) rest with
        | error fault => rfl
        | ok r => simp [Except.map]

end Pass

/-- The pass comes to its end, with the parts of the text. -/
theorem splitSliced_eq (text : List Char) : splitSliced text = .returns (splitArguments text) :=
  Pass.run_eq [] [] rfl rfl rfl

/-! ### Exactness -/

/-- **An argument list comes apart exactly at its outer commas.** It comes apart if its parentheses
balance.  Its parts are the only texts, at least one of them, that balance, have no outer comma and
give the list when they are joined by commas.  Otherwise there is a parenthesis that was never
opened if some prefix closes more than it opens, and one that is never closed in all other cases.  A
single pass over the offsets finds all this, and each slice that it takes is there. -/
theorem splitArguments_exact (text : List Char) :
    ((∃ parts, splitArguments text = .ok parts) ↔ Balanced text) ∧
    (∀ parts, splitArguments text = .ok parts ↔ PartsOf text parts) ∧
    (splitArguments text = .error .unopened ↔ ∃ p, p <+: text ∧ p.count '(' < p.count ')') ∧
    (splitArguments text = .error .unclosed ↔
      ¬ Balanced text ∧ ¬ ∃ p, p <+: text ∧ p.count '(' < p.count ')') ∧
    splitSliced text = .returns (splitArguments text) := by
  have hfates : ((∃ parts, splitArguments text = .ok parts) ↔ Balanced text) ∧
      (splitArguments text = .error .unopened ↔ ∃ p, p <+: text ∧ p.count '(' < p.count ')') ∧
      (splitArguments text = .error .unclosed ↔
        ¬ Balanced text ∧ ¬ ∃ p, p <+: text ∧ p.count '(' < p.count ')') := by
    rcases splitArguments_cases text with ⟨⟨parts, h⟩, hbalanced⟩ | ⟨h, hprefix⟩ | ⟨h, hnot, hnone⟩
    · simp only [h, hbalanced, not_exists_prefix hbalanced]
      simp
    · have hnot : ¬ Balanced text := fun hbalanced => not_exists_prefix hbalanced hprefix
      simp only [h, hnot, hprefix]
      simp
    · simp only [h, hnot, hnone]
      simp
  obtain ⟨hok, hunopened, hunclosed⟩ := hfates
  exact ⟨hok, fun parts => splitArguments_eq_ok_iff, hunopened, hunclosed, splitSliced_eq text⟩

end Refutation
