import Refutation.Proofs.Apart
import Refutation.Proofs.Births
import Refutation.Proofs.Exception

/-!
# Runs without a limit are complete

A run that saturates and keeps every resolvent has worked off all clauses but the last, if that was
added to them.  What has been worked off is satisfiable, and the clauses that the run began with are
among it.  So they are satisfiable, although clauses are not resolved with themselves, no factors
are formed, only one pair of literals is cancelled, and the last clause does not meet all others.

## Main definitions

* `Run.history` — how the clauses of a run have come about.

## Main results

* `Run.satisfiable_of_yields` — **the answer that clauses are satisfiable is right**.
-/

namespace Refutation
namespace Run

variable {s : Saturation} {n : Nat} {L c d x : Clause} {k : Link}

/-! ### What is made -/

/-- A clause in the store was there at the start or has been stored by some step. -/
theorem mem_or_exists_keeps {r : Run} (hx : x ∈ (steps n r).state.store.toList) :
    x ∈ r.state.store.toList ∨ ∃ t c d, (steps t r).Keeps c d x := by
  obtain ⟨i, hi⟩ := Store.exists_get?_of_mem hx
  by_cases hlt : i < r.state.store.size
  · obtain ⟨y, hy⟩ := Store.exists_get?_of_lt hlt
    cases (Store.get?_of_isPrefix (isPrefix_toList_steps n r) hy).symm.trans hi
    exact Or.inl (Store.mem_of_get? hy)
  · obtain ⟨t, -, c, d, hkeeps⟩ := exists_keeps_of_get? hi (Nat.le_of_not_lt hlt)
    exact Or.inr ⟨t, c, d, hkeeps⟩

/-- A clause that is to be stored has a literal. -/
theorem Keeps.ne_nil {r : Run} (h : r.Keeps c d x) : x.literals ≠ [] := by
  obtain ⟨-, -, -, hempty, -⟩ := Clause.resolventOn_of_mem_kept h.2
  intro hnil
  rw [Clause.isEmpty, hnil] at hempty
  cases hempty

/-- What is made is in the store in the end. -/
theorem Made.mem_final {r : Run} (h : (steps n r).status = .finished .satisfiable)
    (hmade : r.Made c k x) : x ∈ (steps n r).state.store.toList := by
  obtain ⟨t, d, hkeeps, -⟩ := hmade.exists_keeps
  exact (isPrefix_toList_of_finished h _).subset (hkeeps.mem_steps h)

/-- What the parents of a clause have in common: they are stored before it. -/
theorem Made.of_parents {r : Run} (h : (steps n r).status = .finished .satisfiable)
    (hnum : r.state.Numbered) (hL : (steps n r).state.store.toList.getLast? = some L)
    (hmade : r.Made c k x) {e : Clause} (he : e = k.pos ∨ e = k.neg) :
    e ∈ (steps n r).state.store.toList ∧ e.id < x.id ∧ e ≠ L := by
  obtain ⟨t, d, hkeeps, hparents⟩ := hmade.exists_keeps
  have hstored : e ∈ (steps t r).state.store.toList := by
    obtain ⟨hc, hd⟩ := mem_of_action_eq_resolve hkeeps.1
    rcases hparents with ⟨hpos, hneg⟩ | ⟨hpos, hneg⟩
    · rcases he with rfl | rfl
      · rwa [hpos]
      · rwa [hneg]
    · rcases he with rfl | rfl
      · rwa [hpos]
      · rwa [hneg]
  refine ⟨(isPrefix_toList_of_finished h t).subset hstored, hkeeps.id_lt h hnum hstored, ?_⟩
  rintro rfl
  -- the last place comes after what has been stored by now
  obtain ⟨i, hi⟩ := Store.exists_get?_of_mem hstored
  rw [List.getLast?_eq_getElem?, Store.getElem?_toList, Store.length_toList] at hL
  have hplace := (numbered_steps h hnum n).eq_of_get?_eq (get?_final h hi) hL
  have hlt := Store.lt_size_of_get? hi
  have hgrown := hkeeps.size_lt h
  have hle := size_le_of_finished h (t + 1)
  omega

/-- What is made in the turn of a clause is resolved with it. -/
theorem Made.meets (h : (steps n (start s)).status = .finished .satisfiable) (hnum : s.Numbered)
    (hmade : (start s).Made c k x) : (start s).Meets c x := by
  obtain ⟨t, d, hkeeps, -⟩ := hmade.exists_keeps
  obtain ⟨-, -, hc, -, -⟩ := action_eq_resolve_iff.1 hkeeps.1
  have hid := hkeeps.id_lt h hnum (Store.mem_of_get? hc)
  obtain ⟨j, hj⟩ := Store.exists_get?_of_mem (hkeeps.mem_steps h)
  have hij : (steps t (start s)).cursor < j := by
    by_contra hle
    -- otherwise the clause would have been there before
    have hlt := (Nat.le_of_not_lt hle).trans_lt (Store.lt_size_of_get? hc)
    have hx := Store.mem_of_get? (get?_of_final h hlt (get?_final h hj))
    exact Nat.lt_irrefl _ (hkeeps.id_lt h hnum hx)
  refine meets_of_inTime h hij ⟨t + 1, ?_, Store.lt_size_of_get? hj⟩ (get?_final h hc)
    (get?_final h hj) (Nat.ne_of_lt hid)
  rw [steps_succ_last, (goesOn_of_satisfiable (finished_of_steps h t) hkeeps.1).cursor]

/-! ### What is resolved -/

theorem Meets.id_ne {r : Run} (hmeets : r.Meets c d) : c.id ≠ d.id := by
  obtain ⟨t, hact⟩ := hmeets
  exact (action_eq_resolve_iff.1 hact).2.2.2.2

/-- A clause other than the last is resolved with all that were there at the start. -/
theorem meets_initial (h : (steps n (start s)).status = .finished .satisfiable)
    (hL : (steps n (start s)).state.store.toList.getLast? = some L)
    (hc : c ∈ (steps n (start s)).state.store.toList) (hcL : c ≠ L) (hd : d ∈ s.store.toList)
    (hid : c.id ≠ d.id) : (start s).Meets c d := by
  obtain ⟨i, hi, hmore⟩ := Store.exists_get?_of_ne_last hL hc hcL
  obtain ⟨j, hj⟩ := Store.exists_get?_of_mem hd
  obtain ⟨t, hrun, rfl, hindex⟩ := exists_steps_enter h hmore
  have hend := steps_steps_of_not_running (ne_running_of_finished h) t
  refine meets_of_cursor h hrun
    (cursor_lt_of_satisfiable (finished_of_steps h t) hrun (by rw [hend]; exact hmore))
    (hindex ▸ Nat.zero_le j) ?_ hi (get?_final (k := 0) h hj) hid
  exact (Store.lt_size_of_get? hj).trans_le (size_le_size_steps t (start s))

/-- All clauses are resolved with one another if the last was there at the start. -/
theorem meets_or_meets_of_mem (h : (steps n (start s)).status = .finished .satisfiable)
    (hnum : s.Numbered) (hL : (steps n (start s)).state.store.toList.getLast? = some L)
    (hmem : L ∈ s.store.toList) (hc : c ∈ (steps n (start s)).state.store.toList)
    (hd : d ∈ (steps n (start s)).state.store.toList) (hid : c.id ≠ d.id) :
    (start s).Meets c d ∨ (start s).Meets d c := by
  refine (forall_meets_or_meets_iff h hnum).2 ?_ c hc d hd hid
  obtain ⟨i, hi⟩ := Store.exists_get?_of_mem hmem
  rw [List.getLast?_eq_getElem?, Store.getElem?_toList, Store.length_toList] at hL
  have hplace := (numbered_steps (r := start s) h hnum n).eq_of_get?_eq
    (get?_final (k := 0) h hi) hL
  have hlt := Store.lt_size_of_get? hi
  have hle : s.store.size ≤ (steps n (start s)).state.store.size := size_le_size_steps n (start s)
  omega

/-- The clauses that have been worked off, which are all but the last if that was not there from the
start, are resolved with one another. -/
theorem meets_or_meets_of_worked (h : (steps n (start s)).status = .finished .satisfiable)
    (hnum : s.Numbered) (hL : (steps n (start s)).state.store.toList.getLast? = some L)
    (hc : c ∈ (steps n (start s)).state.store.toList ∧ (c ∈ s.store.toList ∨ c ≠ L))
    (hd : d ∈ (steps n (start s)).state.store.toList ∧ (d ∈ s.store.toList ∨ d ≠ L))
    (hcd : c ≠ d) : (start s).Meets c d ∨ (start s).Meets d c := by
  have hid := mt ((numbered_steps (r := start s) h hnum n).eq_of_id_eq hc.1 hd.1) hcd
  by_cases hmem : L ∈ s.store.toList
  · exact meets_or_meets_of_mem h hnum hL hmem hc.1 hd.1 hid
  · have hother : ∀ {e : Clause}, (e ∈ s.store.toList ∨ e ≠ L) → e ≠ L := by
      rintro e (he | he) rfl
      · exact hmem he
      · exact he rfl
    exact meets_or_meets_of_ne_last h hL hc.1 hd.1 (hother hc.2) (hother hd.2) hid

/-- No clause that a run stores is empty, if none was at the start. -/
theorem ne_nil_steps {r : Run} (hne : ∀ c ∈ r.state.store.toList, c.literals ≠ [])
    (hc : c ∈ (steps n r).state.store.toList) : c.literals ≠ [] := by
  rcases mem_or_exists_keeps hc with hc | ⟨t, d, e, hkeeps⟩
  · exact hne c hc
  · exact hkeeps.ne_nil

/-! ### The history of a run -/

/-- How the clauses of a run that saturates have come about.  All have been worked off but the last,
if that was not there from the start. -/
def history (h : (steps n (start s)).status = .finished .satisfiable) (hnum : s.Numbered)
    (howns : ∀ c ∈ s.store.toList, c.OwnsVars) (hne : ∀ c ∈ s.store.toList, c.literals ≠ [])
    (hadmits : ∀ m, s.limit.admits m = true)
    (hL : (steps n (start s)).state.store.toList.getLast? = some L) : History where
  clauses := { c | c ∈ (steps n (start s)).state.store.toList ∧ (c ∈ s.store.toList ∨ c ≠ L) }
  first := { c | c ∈ s.store.toList }
  last := L
  Meets := (start s).Meets
  Made := (start s).Made
  finite := (List.finite_toSet _).subset fun _ hc => hc.1
  ownsVars hc := ownsVars_steps (r := start s) howns n _ hc.1
  eq_of_id_eq hc hd := (numbered_steps (r := start s) h hnum n).eq_of_id_eq hc.1 hd.1
  ne_nil hc := ne_nil_steps (r := start s) hne hc.1
  meets hc hd hcd := meets_or_meets_of_worked h hnum hL hc hd hcd
  meets_first := by
    rintro c d ⟨hc, -⟩ hcL hd hcd
    have hd' := (isPrefix_toList_of_finished h 0).subset hd
    exact meets_initial h hL hc hcL hd
      (mt ((numbered_steps (r := start s) h hnum n).eq_of_id_eq hc hd') hcd)
  meets_made hmade _ := hmade.meets h hnum
  exists_made_pos hpos hneg hk hmeets :=
    (exists_made_of_meets h (hadmits _) (ownsVars_steps (r := start s) howns n _ hpos.1)
      (ownsVars_steps (r := start s) howns n _ hneg.1) hmeets.id_ne hk).1 hmeets
  exists_made_neg hpos hneg hk hmeets :=
    (exists_made_of_meets h (hadmits _) (ownsVars_steps (r := start s) howns n _ hpos.1)
      (ownsVars_steps (r := start s) howns n _ hneg.1) hmeets.id_ne.symm hk).2 hmeets
  mem_or_eq_last := by
    intro c x k hmade
    by_cases hx : x = L
    · exact Or.inr hx
    · exact Or.inl ⟨hmade.mem_final h, Or.inr hx⟩
  resolvent := Made.resolvent h
  mem_pos hmade :=
    have hpos := hmade.of_parents h hnum hL (Or.inl rfl)
    ⟨hpos.1, Or.inr hpos.2.2⟩
  mem_neg hmade :=
    have hneg := hmade.of_parents h hnum hL (Or.inr rfl)
    ⟨hneg.1, Or.inr hneg.2.2⟩
  pos_lt hmade := (hmade.of_parents h hnum hL (Or.inl rfl)).2.1
  neg_lt hmade := (hmade.of_parents h hnum hL (Or.inr rfl)).2.1
  made_inj hx hx' := hx.inj h hnum hx'
  exists_made := by
    rintro x ⟨hx, -⟩ hfirst
    rcases mem_or_exists_keeps hx with hx | ⟨t, c, d, hkeeps⟩
    · exact absurd hx hfirst
    · obtain ⟨k, hmade⟩ := exists_made_of_keeps h hkeeps
      exact ⟨c, k, hmade⟩

/-- The clauses of a run that saturates and leaves nothing out are satisfiable. -/
theorem satisfiable_of_finished (h : (steps n (start s)).status = .finished .satisfiable)
    (hnum : s.Numbered) (howns : ∀ c ∈ s.store.toList, c.OwnsVars)
    (hne : ∀ c ∈ s.store.toList, c.literals ≠ []) (hadmits : ∀ m, s.limit.admits m = true) :
    Satisfiable.{0} s.store.toList := by
  have hkept := (isPrefix_toList_of_finished h 0).subset
  cases hL : (steps n (start s)).state.store.toList.getLast? with
  | none =>
    rw [List.getLast?_eq_none_iff] at hL
    refine ⟨Unit, ⟨()⟩, ⟨fun _ => (), fun _ _ => (), fun _ _ => True⟩, ?_⟩
    intro d hd
    rw [hL] at hkept
    cases hkept hd
  | some L =>
    obtain ⟨H, hH⟩ := (history h hnum howns hne hadmits hL).exists_models
    exact ⟨Term, inferInstance, herbrand H, fun d hd => hH d ⟨hkept hd, Or.inl hd⟩⟩

end Run

/-! ### Clauses that are read -/

/-- A clause that is read has a literal. -/
theorem ne_nil_of_readClauses {lastId : Nat} {source : List Char} {cs : List Clause}
    (h : readClauses lastId source = .ok cs) : ∀ c ∈ cs, c.literals ≠ [] := by
  intro c hc
  obtain ⟨id, line, -, hread⟩ := exists_read_of_mem h hc
  obtain ⟨ls, hls, rfl⟩ := map_eq_ok_iff.1 hread
  rintro rfl
  exact List.splitOn_ne_nil '|' line.text (List.map_eq_nil_iff.1 (mapM_eq_ok_iff.1 hls))

/-- **The answer that clauses are satisfiable is right**, if there is no limit: the clauses that
were read are true together in some interpretation. -/
theorem Run.satisfiable_of_yields {source : List Char} {cs : List Clause}
    (hread : readClauses 0 source = .ok cs)
    (h : (start (.ofRead cs .unlimited)).Yields .satisfiable) : Satisfiable.{0} cs := by
  obtain ⟨n, hn⟩ := h
  exact satisfiable_of_finished hn (numbered_of_readClauses hread _)
    (ownsVars_of_readClauses hread) (ne_nil_of_readClauses hread) fun _ => rfl

/-- Four clauses are in the store in the end, and the last of them does not meet the first. -/
theorem Run.satisfiable_of_yields_four :
    let cs : List Clause := [⟨1, [⟨true, "p", [.const "a"]⟩, ⟨true, "q", [.const "b"]⟩]⟩,
      ⟨2, [⟨false, "p", [.var ⟨"X", 2⟩]⟩]⟩]
    readClauses 0 "p(a)|q(b)\n-p(X)".toList = .ok cs ∧
      (start (.ofRead cs .unlimited)).Yields .satisfiable ∧ Satisfiable.{0} cs := by
  intro cs
  have hread : readClauses 0 "p(a)|q(b)\n-p(X)".toList = .ok cs :=
    eq_ok_of_toOption (by decide +kernel)
  have hyields : (start (.ofRead cs .unlimited)).Yields .satisfiable := ⟨15, by decide +kernel⟩
  exact ⟨hread, hyields, satisfiable_of_yields hread hyields⟩

end Refutation
