import Refutation.Proofs.Candidate
import Refutation.Proofs.Herbrand

/-!
# Cancelling to the end

One cancellation takes out the first complementary pair of a clause, where pairs are compared by the
place of their first literal and then by that of their second.  Cancellations can follow one another
until nothing cancels.  Which occurrences of a literal are left then depends on the order of the
literals, but how many are left does not: each cancellation takes as many positive as negative
occurrences of an atom, and in the end there are none left of one of the two.

## Main definitions

* `FirstPair` — the places of the first complementary pair.
* `Clause.Cancels` — a clause is another one without its first complementary pair.
* `Clause.residue` — what is left when nothing cancels any more.
* `Clause.tally` — the occurrences of an atom with one sign.

## Main results

* `exists_firstPair` — a cancellation takes out the first complementary pair.
* `Clause.forall_of_cancellations` — what one cancellation keeps is kept to the end.
* `Clause.cancellations_tally` — **cancelling ends, and how often an atom is left is determined**.
-/

namespace Refutation

/-! ### The first complementary pair -/

/-- The literals at places `i` and `j` have the same atom and opposite signs, and those of no
earlier pair do. -/
structure FirstPair (ls : List Literal) (i j : Nat) : Prop where
  lt : i < j
  opposed : ∃ l, ls[i]? = some l ∧ ls[j]? = some l.compl
  first : ∀ i' j' l, i' < j' → i' < i ∨ i' = i ∧ j' < j → ls[i']? = some l →
    ls[j']? ≠ some l.compl

variable {ls ms pre post : List Literal} {i j : Nat} {l : Literal}

/-- The first pair is at the front if the first literal has a complement. -/
theorem firstPair_zero (hpre : l.compl ∉ pre) :
    FirstPair (l :: (pre ++ l.compl :: post)) 0 (pre.length + 1) where
  lt := Nat.succ_pos _
  opposed := ⟨l, rfl, by simp⟩
  first := by
    rintro i' j' k hlt (hi | ⟨rfl, hj⟩) hk hcompl
    · exact absurd hi (Nat.not_lt_zero i')
    · obtain ⟨n, rfl⟩ := Nat.exists_eq_add_one_of_ne_zero hlt.ne'
      cases hk
      rw [List.getElem?_cons_succ, List.getElem?_append_left (by omega)] at hcompl
      exact hpre (List.mem_of_getElem? hcompl)

/-- A literal without a complement may come before the others. -/
theorem FirstPair.cons (h : FirstPair ls i j) (hl : l.compl ∉ ls) :
    FirstPair (l :: ls) (i + 1) (j + 1) where
  lt := Nat.succ_lt_succ h.lt
  opposed := h.opposed
  first := by
    intro i' j' k hlt hbefore hk hcompl
    obtain ⟨j', rfl⟩ := Nat.exists_eq_add_one_of_ne_zero (Nat.ne_zero_of_lt hlt)
    rw [List.getElem?_cons_succ] at hcompl
    cases i' with
    | zero =>
      cases hk
      exact hl (List.mem_of_getElem? hcompl)
    | succ i' =>
      rw [List.getElem?_cons_succ] at hk
      exact h.first i' j' k (by omega) (by omega) hk hcompl

/-- A literal has a complement among others exactly if the literal of opposite sign is there. -/
theorem any_complements_iff : ls.any l.complements = true ↔ l.compl ∈ ls := by
  simp [List.any_eq_true, Literal.complements_iff_eq_compl]

/-- A cancellation takes out the first complementary pair. -/
theorem exists_firstPair (h : cancelPair? ls = some ms) :
    ∃ i j, FirstPair ls i j ∧ ms = (ls.eraseIdx j).eraseIdx i := by
  induction ls generalizing ms with
  | nil => cases h
  | cons l ls ih =>
    rw [cancelPair?] at h
    split at h
    · next hany =>
      cases h
      obtain ⟨m, hm, hlm⟩ := List.any_eq_true.1 hany
      obtain ⟨k, pre, post, hpre, hlk, rfl, hrest⟩ := List.exists_of_eraseP hm hlm
      obtain rfl := Literal.complements_iff_eq_compl.1 hlk
      have hno : l.compl ∉ pre := fun hmem => hpre _ hmem hlk
      refine ⟨0, pre.length + 1, firstPair_zero hno, ?_⟩
      rw [hrest, List.eraseIdx_cons_succ, List.eraseIdx_cons_zero,
        List.eraseIdx_append_of_length_le le_rfl, Nat.sub_self, List.eraseIdx_cons_zero]
    · next hany =>
      obtain ⟨ms, hms, rfl⟩ := Option.map_eq_some_iff.1 h
      obtain ⟨i, j, hfirst, rfl⟩ := ih hms
      exact ⟨i + 1, j + 1, hfirst.cons (mt any_complements_iff.2 hany), rfl⟩

/-- Where nothing cancels, no literal has a complement. -/
theorem compl_notMem_of_cancelPair? (h : cancelPair? ls = none) : ∀ l ∈ ls, l.compl ∉ ls := by
  induction ls with
  | nil => exact fun l hl => by cases hl
  | cons k ls ih =>
    rw [cancelPair?] at h
    split at h
    · cases h
    · next hany =>
      have hk : k.compl ∉ ls := mt any_complements_iff.2 hany
      refine List.forall_mem_cons.2 ⟨?_, fun l hl hmem => ?_⟩
      · rw [List.mem_cons, not_or]
        exact ⟨k.compl_ne, hk⟩
      · rcases List.mem_cons.1 hmem with rfl | hmem
        · rw [Literal.compl_compl] at hk
          exact hk hl
        · exact ih (Option.map_eq_none_iff.1 h) l hl hmem

/-! ### One cancellation after the other -/

namespace Clause

variable {c d e : Clause} {positive : Bool} {a : Atom}

/-- The clause `d` is `c` without its first complementary pair.  The literals of the pair go, the
others stay in their order, and so does the number. -/
def Cancels (c d : Clause) : Prop :=
  ∃ i j, FirstPair c.literals i j ∧ d = ⟨c.id, (c.literals.eraseIdx j).eraseIdx i⟩

theorem cancels_of_cancel? (h : c.cancel? = some d) : c.Cancels d := by
  obtain ⟨ls, hls, rfl⟩ := Option.map_eq_some_iff.1 h
  obtain ⟨i, j, hfirst, rfl⟩ := exists_firstPair hls
  exact ⟨i, j, hfirst, rfl⟩

theorem cancellations_of_none (h : c.cancel? = none) : c.cancellations = [] := by
  rw [cancellations]
  split
  · rfl
  · next hsome =>
    rw [h] at hsome
    cases hsome

theorem cancellations_of_some (h : c.cancel? = some d) :
    c.cancellations = d :: d.cancellations := by
  rw [cancellations]
  split
  · next hnone =>
    rw [h] at hnone
    cases hnone
  · next hsome =>
    rw [h] at hsome
    cases hsome
    rfl

/-- What is left of a clause when nothing cancels any more. -/
def residue (c : Clause) : Clause := c.cancellations.getLastD c

theorem residue_of_none (h : c.cancel? = none) : c.residue = c := by
  rw [residue, cancellations_of_none h, List.getLastD_nil]

theorem residue_of_some (h : c.cancel? = some d) : c.residue = d.residue := by
  rw [residue, cancellations_of_some h, List.getLastD_cons, residue]

/-- Nothing cancels in what is left. -/
theorem cancel?_residue (c : Clause) : c.residue.cancel? = none := by
  induction c using cancellations.induct with
  | case1 c h => rwa [residue_of_none h]
  | case2 c d h ih => rwa [residue_of_some h]

/-- Each clause comes from the one before by one cancellation. -/
theorem isChain_cancellations (c : Clause) :
    (c :: c.cancellations).IsChain fun d e => d.cancel? = some e ∧ d.Cancels e := by
  induction c using cancellations.induct with
  | case1 c h =>
    rw [cancellations_of_none h]
    exact .singleton c
  | case2 c d h ih =>
    rw [cancellations_of_some h]
    exact List.isChain_cons_cons.2 ⟨⟨h, cancels_of_cancel? h⟩, ih⟩

/-- What one cancellation keeps is kept to the end. -/
theorem forall_of_cancellations {p : Clause → Prop} (hc : p c)
    (hstep : ∀ {d e : Clause}, d.cancel? = some e → p d → p e) :
    p c.residue ∧ ∀ d ∈ c.cancellations, p d := by
  induction c using cancellations.induct with
  | case1 c h =>
    rw [residue_of_none h, cancellations_of_none h]
    exact ⟨hc, List.forall_mem_nil p⟩
  | case2 c d h ih =>
    rw [residue_of_some h, cancellations_of_some h]
    have hd := hstep h hc
    exact ⟨(ih hd).1, List.forall_mem_cons.2 ⟨hd, (ih hd).2⟩⟩

/-- All literals are either left or have gone two at a time. -/
theorem size_residue_add (c : Clause) : c.residue.size + 2 * c.cancellations.length = c.size := by
  induction c using cancellations.induct with
  | case1 c h =>
    rw [residue_of_none h, cancellations_of_none h, List.length_nil, Nat.mul_zero, Nat.add_zero]
  | case2 c d h ih =>
    have hsize : d.size + 2 = c.size := length_of_cancelPair? (cancelPair?_of_cancel? h)
    rw [residue_of_some h, cancellations_of_some h, List.length_cons]
    omega

/-! ### Counting -/

/-- How many literals of a clause have the given sign and atom. -/
def tally (c : Clause) (positive : Bool) (a : Atom) : Nat :=
  c.literals.count ⟨positive, a.1, a.2⟩

/-- A cancellation takes as many positive as negative occurrences of an atom. -/
theorem exists_tally_add (h : c.cancel? = some d) (a : Atom) :
    ∃ n, ∀ positive, c.tally positive a = d.tally positive a + n := by
  obtain ⟨l, m, hlm, hperm⟩ := perm_of_cancelPair? (cancelPair?_of_cancel? h)
  obtain rfl := Literal.complements_iff_eq_compl.1 hlm
  have hcompl : ∀ positive : Bool,
      l.compl = ⟨positive, a.1, a.2⟩ ↔ l = ⟨!positive, a.1, a.2⟩ := by
    intro positive
    constructor
    · intro heq
      rw [← l.compl_compl, heq]
      rfl
    · rintro rfl
      rw [Literal.compl, Bool.not_not]
  refine ⟨(if l = ⟨true, a.1, a.2⟩ then 1 else 0) + (if l = ⟨false, a.1, a.2⟩ then 1 else 0), ?_⟩
  intro positive
  simp only [tally, hperm.count_eq, List.count_cons, beq_iff_eq, hcompl]
  cases positive with
  | true => exact (Nat.add_assoc _ _ _).trans (congrArg _ (Nat.add_comm _ _))
  | false => exact Nat.add_assoc _ _ _

/-- In a clause where nothing cancels, an atom does not occur with both signs. -/
theorem tally_eq_zero_or (h : c.cancel? = none) (a : Atom) :
    c.tally true a = 0 ∨ c.tally false a = 0 := by
  rw [or_iff_not_imp_left, tally, tally, List.count_eq_zero, List.count_eq_zero, not_not]
  exact compl_notMem_of_cancelPair? (Option.map_eq_none_iff.1 h) _

/-- **Cancelling ends, and how often an atom is left is determined.**  Each cancellation takes out
the first complementary pair and leaves the other literals in their order, so there are at most half
as many cancellations as literals.  In the end no two literals are complementary.  Of an atom that
occurs `p` times positively and `q` times negatively, `p - q` positive and `q - p` negative
occurrences are left, so all that are left have the sign of the majority. -/
theorem cancellations_tally (c : Clause) :
    (c :: c.cancellations).IsChain (fun d e => d.cancel? = some e ∧ d.Cancels e) ∧
    c.residue.cancel? = none ∧
    2 * c.cancellations.length ≤ c.size ∧
    (∀ l ∈ c.residue.literals, l.compl ∉ c.residue.literals) ∧
    (∀ a, c.residue.tally true a = c.tally true a - c.tally false a ∧
      c.residue.tally false a = c.tally false a - c.tally true a) ∧
    ∀ d ∈ c.cancellations, d.id = c.id := by
  have hend := c.cancel?_residue
  have hsize := c.size_residue_add
  refine ⟨c.isChain_cancellations, hend, by omega,
    compl_notMem_of_cancelPair? (Option.map_eq_none_iff.1 hend), ?_, ?_⟩
  · intro a
    -- the surplus of an atom is the same after every cancellation
    have hsurplus := (forall_of_cancellations (c := c)
      (p := fun d => d.tally true a + c.tally false a = c.tally true a + d.tally false a) rfl ?_).1
    · have hnone := tally_eq_zero_or hend a
      omega
    · intro d e hde hd
      obtain ⟨n, hn⟩ := exists_tally_add hde a
      have htrue := hn true
      have hfalse := hn false
      omega
  · exact (forall_of_cancellations (p := fun d => d.id = c.id) rfl
      fun hde hd => (id_of_cancel? hde).trans hd).2

/-- The first positive and the first negative occurrence go, and then the second of each. -/
example : (Clause.mk 7 [⟨true, "p", []⟩, ⟨true, "p", []⟩, ⟨false, "p", []⟩, ⟨true, "q", []⟩,
    ⟨false, "p", []⟩, ⟨false, "p", []⟩]).residue =
      ⟨7, [⟨true, "q", []⟩, ⟨false, "p", []⟩]⟩ := by
  decide +kernel

end Clause
end Refutation
