import Refutation.Clause

/-!
# Cancelling complementary literals

One cancellation removes from a clause the first pair of complementary literals, if there is one:
the first literal that has a complement after it, and the first such complement.

## Main definitions

* `cancelPair?` — one cancellation in a list of literals.
* `Clause.cancel?` — one cancellation in a clause.
* `Clause.cancellations` — all cancellations in a row.

## Main results

* `length_of_cancelPair?` — a cancellation removes two literals, so there is an end to them.
-/

namespace Refutation

/-- The literals without the first complementary pair, or `none` if no two are complementary. -/
def cancelPair? : List Literal → Option (List Literal)
  | [] => none
  | l :: ls =>
    if ls.any l.complements then some (ls.eraseP l.complements)
    else (cancelPair? ls).map (l :: ·)

/-- A cancellation removes exactly two literals. -/
theorem length_of_cancelPair? {ls ms : List Literal} (h : cancelPair? ls = some ms) :
    ms.length + 2 = ls.length := by
  induction ls generalizing ms with
  | nil => cases h
  | cons l ls ih =>
    rw [cancelPair?] at h
    split at h
    · next hany =>
      cases h
      -- the first literal goes, and the complement found later in the list
      obtain ⟨m, hm, hlm⟩ := List.any_eq_true.1 hany
      have hpos := List.length_pos_of_mem hm
      rw [List.length_eraseP_of_mem hm hlm, List.length_cons]
      omega
    · obtain ⟨ms', hms, rfl⟩ := Option.map_eq_some_iff.1 h
      have := ih hms
      simp only [List.length_cons]
      omega

namespace Clause

/-- The clause without its first complementary pair, or `none` if no two literals are
complementary. -/
def cancel? (c : Clause) : Option Clause := (cancelPair? c.literals).map (Clause.mk c.id)

/-- A cancellation leaves a smaller clause. -/
theorem size_lt_of_cancel? {c d : Clause} (h : c.cancel? = some d) : d.size < c.size := by
  obtain ⟨ls, hls, rfl⟩ := Option.map_eq_some_iff.1 h
  have := length_of_cancelPair? hls
  simp only [size]
  omega

/-- The clauses left by one cancellation, by two, and so on until nothing cancels. -/
def cancellations (c : Clause) : List Clause :=
  match _h : c.cancel? with
  | none => []
  | some d => d :: d.cancellations
termination_by c.size
decreasing_by exact size_lt_of_cancel? _h

end Clause
end Refutation
