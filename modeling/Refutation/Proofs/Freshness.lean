import Refutation.Renaming
import Mathlib.Data.List.Basic
import Mathlib.Data.Set.Function

/-!
# Fresh variables

The names for new variables are all different, however many there are, so a canonical renaming
keeps different variables apart and can be taken back.

## Main results

* `freshName_injective` — no name is given twice.
* `Var.canonical_injOn` — different variables are renamed to different ones.
* `Term.exists_subst_rename` — a replacement of the old variables can be had by one of the new.
* `Literal.clause_of_mem_canonicalAll` — the new variables are all in the scope of the new clause.
-/

namespace Refutation

/-! ### Names -/

theorem toList_freshName (i : Nat) :
    (freshName i).toList =
      Char.ofNat ('A'.toNat + i % 26) ::
        if i < 26 then [] else Nat.toDigits 10 (i / 26) := by
  unfold freshName
  split <;> simp

theorem letter_injective {i j : Nat} (hi : i < 26) (hj : j < 26)
    (h : Char.ofNat ('A'.toNat + i) = Char.ofNat ('A'.toNat + j)) : i = j := by
  have hvalid : ∀ k < 26, (Char.ofNat ('A'.toNat + k)).toNat = 'A'.toNat + k := by decide
  have hnat := congrArg Char.toNat h
  rw [hvalid i hi, hvalid j hj] at hnat
  omega

theorem toDigits_injective {m n : Nat} (h : Nat.toDigits 10 m = Nat.toDigits 10 n) : m = n := by
  rw [← Nat.ofDigitChars_ten_toDigits (n := m), h, Nat.ofDigitChars_ten_toDigits]

/-- No name is given to two places: the letter gives the remainder, and the number the round. -/
theorem freshName_injective : Function.Injective freshName := by
  intro i j h
  have hlist := congrArg String.toList h
  rw [toList_freshName, toList_freshName, List.cons.injEq] at hlist
  obtain ⟨hletter, hround⟩ := hlist
  have hmod := letter_injective (Nat.mod_lt i (by decide)) (Nat.mod_lt j (by decide)) hletter
  have hdiv : i / 26 = j / 26 := by
    split at hround
    · split at hround
      · omega
      · exact absurd hround.symm Nat.toDigits_ne_nil
    · split at hround
      · exact absurd hround Nat.toDigits_ne_nil
      · exact toDigits_injective hround
  omega

/-! ### Variables -/

/-- Different variables are renamed to different ones. -/
theorem Var.canonical_injOn (id : Nat) (vs : List Var) :
    Set.InjOn (Var.canonical id vs) { v | v ∈ vs } := by
  intro v hv w _ h
  have hname := congrArg Var.name h
  exact (List.idxOf_inj hv).1 (freshName_injective hname)

/-- What becomes of renamed terms under a replacement of the new variables can be anything that
becomes of the terms under a replacement of the old ones. -/
theorem Term.exists_subst_rename (id : Nat) (vs : List Var) (θ : Var → Term) :
    ∃ η : Var → Term, ∀ t : Term, (∀ v ∈ t.occurrences, v ∈ vs) →
      (t.rename (Var.canonical id vs)).subst η = t.subst θ := by
  have hinv := (Var.canonical_injOn id vs).leftInvOn_invFunOn
  refine ⟨fun w => θ (Function.invFunOn (Var.canonical id vs) { v | v ∈ vs } w), ?_⟩
  intro t ht
  rw [rename, subst_subst]
  refine subst_congr ?_
  intro v hv
  rw [subst_var, hinv (ht v hv)]

/-- The variables of literals that have been renamed are in the scope of the new clause. -/
theorem Literal.clause_of_mem_canonicalAll {id : Nat} {ls : List Literal} {v : Var}
    (h : v ∈ (canonicalAll id ls).flatMap occurrences) : v.clause = id := by
  unfold canonicalAll at h
  obtain ⟨_, hl, hv⟩ := List.mem_flatMap.1 h
  obtain ⟨l, -, rfl⟩ := List.mem_map.1 hl
  obtain ⟨_, ht, hv⟩ := List.mem_flatMap.1 hv
  obtain ⟨t, -, rfl⟩ := List.mem_map.1 ht
  rw [Term.occurrences_rename] at hv
  obtain ⟨w, -, rfl⟩ := List.mem_map.1 hv
  rfl

end Refutation
