import Refutation.Proofs.Bookkeeping
import Refutation.Proofs.Scopes

/-!
# Clauses are apart

The reader puts every variable of a clause into the scope of the clause, however deep it stands, and
resolving renames all variables into the scope of the new clause.  No number is given twice, so no
two stored clauses have a variable in common, and unification never needs to rename anything.

## Main results

* `Term.clause_of_read` — the variables of a term that is read belong to the clause being read.
* `ownsVars_of_readClauses` — clauses that are read own their variables.
* `Run.ownsVars_and_apart` — **stored clauses own their variables and share none**.
-/

namespace Refutation

/-! ### Reading -/

/-- Arguments that are read have been read from parts of the text, each no longer than the text. -/
theorem Term.exists_read_of_readAll {clause : Nat} {text : List Char} {ts : List Term} {t : Term}
    (h : readAll clause text = .ok ts) (ht : t ∈ ts) :
    ∃ part : List Char, part.length ≤ text.length ∧ read clause part = .ok t := by
  unfold readAll at h
  cases hparts : splitArguments text with
  | error fault =>
    rw [hparts] at h
    cases h
  | ok parts =>
    rw [hparts] at h
    have hmap : parts.map (read clause) = ts.map .ok := mapM_eq_ok_iff.1 h
    obtain ⟨part, hpart, hread⟩ := exists_mem_of_map_eq hmap ht
    exact ⟨part, length_le_of_mem_splitArguments hparts hpart, hread⟩

theorem Term.clause_of_readAtom {clause : Nat} {text : List Char} {t : Term} {v : Var}
    (h : readAtom clause text = .ok t) (hv : v ∈ t.occurrences) : v.clause = clause := by
  unfold readAtom at h
  split at h
  · cases h
  · split at h
    · split at h
      · cases h
      · cases h
        cases hv
    · cases h
      rw [List.mem_singleton.1 hv]

/-- The variables of a term that is read belong to the clause being read. -/
theorem Term.clause_of_read {clause : Nat} {raw : List Char} {t : Term} {v : Var}
    (h : read clause raw = .ok t) (hv : v ∈ t.occurrences) : v.clause = clause := by
  -- the induction is on the length of the text, for arguments are read from parts of it
  induction hn : raw.length using Nat.strong_induction_on generalizing raw t with
  | _ n ih =>
    rw [read_eq] at h
    split at h
    · cases h
    · exact clause_of_readAtom h hv
    · next hshape =>
      obtain ⟨ts, hts, rfl⟩ := map_eq_ok_iff.1 h
      rw [occurrences_app, List.mem_flatMap] at hv
      obtain ⟨t, ht, hv⟩ := hv
      obtain ⟨part, hle, hread⟩ := exists_read_of_readAll hts ht
      have hlt := Shape.length_lt_of_app hshape
      exact ih part.length (by omega) hread hv rfl

theorem Literal.clause_of_read {clause : Nat} {raw : List Char} {l : Literal} {v : Var}
    (h : read clause raw = .ok l) (hv : v ∈ l.occurrences) : v.clause = clause := by
  unfold read at h
  dsimp only at h
  split at h
  · cases h
  · split at h
    · cases h
    · split at h
      · cases h
      · split at h
        · cases h
        · split at h
          · cases h
          · obtain ⟨args, hargs, rfl⟩ := map_eq_ok_iff.1 h
            obtain ⟨t, ht, hv⟩ := List.mem_flatMap.1 hv
            unfold readArgs at hargs
            split at hargs
            · cases hargs
              cases ht
            · obtain ⟨part, -, hread⟩ := Term.exists_read_of_readAll hargs ht
              exact Term.clause_of_read hread hv

/-- A clause that is read owns its variables. -/
theorem Clause.ownsVars_of_read {id : Nat} {text : List Char} {c : Clause}
    (h : read id text = .ok c) : c.OwnsVars := by
  obtain ⟨ls, hls, rfl⟩ := map_eq_ok_iff.1 h
  intro v hv
  obtain ⟨l, hl, hv⟩ := List.mem_flatMap.1 hv
  obtain ⟨raw, -, hraw⟩ := exists_mem_of_map_eq (mapM_eq_ok_iff.1 hls) hl
  exact Literal.clause_of_read hraw hv

/-- Every clause of a source text has been read by itself, from a live line. -/
theorem exists_read_of_mem {lastId : Nat} {source : List Char} {cs : List Clause} {c : Clause}
    (h : readClauses lastId source = .ok cs) (hc : c ∈ cs) :
    ∃ id, ∃ line ∈ liveLines source, Clause.read id line.text = .ok c := by
  obtain ⟨⟨line, id⟩, hmem, hline⟩ := exists_mem_of_map_eq (mapM_eq_ok_iff.1 h) hc
  refine ⟨id, line, List.fst_mem_of_mem_zipIdx hmem, ?_⟩
  dsimp only at hline
  unfold Line.read at hline
  split at hline
  · cases hline
  · next hread =>
    cases hline
    exact hread

/-- Clauses that are read own their variables. -/
theorem ownsVars_of_readClauses {lastId : Nat} {source : List Char} {cs : List Clause}
    (h : readClauses lastId source = .ok cs) : ∀ c ∈ cs, c.OwnsVars := by
  intro c hc
  obtain ⟨id, line, -, hread⟩ := exists_read_of_mem h hc
  exact Clause.ownsVars_of_read hread

/-- Clauses that are read together have different numbers, none above the last one issued. -/
theorem nodup_and_le_of_readClauses {lastId : Nat} {source : List Char} {cs : List Clause}
    (h : readClauses lastId source = .ok cs) :
    (cs.map Clause.id).Nodup ∧ ∀ c ∈ cs, c.id ≤ lastId + cs.length := by
  have hids := map_id_of_readClauses h
  constructor
  · rw [hids]
    exact List.nodup_range'
  · intro c hc
    have hmem : c.id ∈ cs.map Clause.id := List.mem_map_of_mem hc
    rw [hids, List.mem_range'_1] at hmem
    omega

/-! ### Runs -/

/-- Clauses that own their variables and have different numbers have no variable in common. -/
theorem Clause.notMem_occurrences {c d : Clause} {v : Var} (hc : c.OwnsVars) (hd : d.OwnsVars)
    (hid : c.id ≠ d.id) (hv : v ∈ c.occurrences) : v ∉ d.occurrences := by
  intro hv'
  exact hid ((hc v hv).symm.trans (hd v hv'))

namespace Run

/-- Stored clauses at different places have different numbers, at every step of a run. -/
theorem id_ne_of_get?_steps {cs : List Clause} {lastId : Nat} {limit : Limit} {n i j : Nat}
    {c d : Clause} (hlast : lastId ≤ maxId) (hnodup : (cs.map Clause.id).Nodup)
    (hids : ∀ c ∈ cs, c.id ≤ lastId) (hij : i ≠ j)
    (hc : (steps n (start (.initial cs lastId limit))).state.store.get? i = some c)
    (hd : (steps n (start (.initial cs lastId limit))).state.store.get? j = some d) :
    c.id ≠ d.id := by
  obtain ⟨⟨added, hbooks⟩, -⟩ :=
    (Saturation.Reaches.start (s := .initial cs lastId limit).steps n).exists_books hlast hids
  have hnum : (steps n (start (.initial cs lastId limit))).state.Numbered :=
    ⟨hbooks.nodup_id hnodup, hbooks.le_lastId⟩
  exact hnum.id_ne_of_get? hij hc hd

/-- **Stored clauses own their variables and share none.**  This holds at every step of a run on
clauses that were read together, and what is built from two clauses owns its variables whatever is
substituted. -/
theorem ownsVars_and_apart {lastId : Nat} {source : List Char} {cs : List Clause} (limit : Limit)
    (hread : readClauses lastId source = .ok cs) (hlast : lastId + cs.length ≤ maxId) :
    (∀ n,
      (∀ c ∈ (steps n (start (.initial cs (lastId + cs.length) limit))).state.store.toList,
        c.OwnsVars) ∧
      ∀ i j c d, i ≠ j →
        (steps n (start (.initial cs (lastId + cs.length) limit))).state.store.get? i = some c →
        (steps n (start (.initial cs (lastId + cs.length) limit))).state.store.get? j = some d →
        ∀ v ∈ c.occurrences, v ∉ d.occurrences) ∧
    ∀ id σ c d, (Clause.candidate id σ c d).OwnsVars := by
  refine ⟨?_, Clause.ownsVars_candidate⟩
  intro n
  obtain ⟨hnodup, hids⟩ := nodup_and_le_of_readClauses hread
  have howns := ownsVars_steps (r := start (.initial cs (lastId + cs.length) limit))
    (ownsVars_of_readClauses hread) n
  refine ⟨howns, ?_⟩
  intro i j c d hij hc hd v hv
  exact Clause.notMem_occurrences (howns c (Store.mem_of_get? hc)) (howns d (Store.mem_of_get? hd))
    (id_ne_of_get?_steps hlast hnodup hids hij hc hd) hv

/-- The third clause is derived from the others, and has their variables under names of its own. -/
theorem ownsVars_and_apart_derived :
    let c : Clause := ⟨1, [⟨true, "p", [.var ⟨"A", 1⟩]⟩,
      ⟨true, "q", [.var ⟨"A", 1⟩, .app "f" [.var ⟨"Y", 1⟩]]⟩]⟩
    let d : Clause := ⟨2, [⟨false, "p", [.app "g" [.var ⟨"A", 2⟩]]⟩]⟩
    let e : Clause := ⟨3, [⟨true, "q", [.app "g" [.var ⟨"A", 3⟩], .app "f" [.var ⟨"B", 3⟩]]⟩]⟩
    readClauses 0 "p(A)|q(A,f(Y))\n-p(g(A))".toList = .ok [c, d] ∧ 0 + [c, d].length ≤ maxId ∧
      (steps 2 (start (.initial [c, d] (0 + [c, d].length) .unlimited))).state.store.toList =
        [c, d, e] ∧
      e.OwnsVars ∧ (∀ v ∈ c.occurrences, v ∉ e.occurrences) ∧
      (Clause.candidate 4 [⟨⟨"A", 1⟩, .var ⟨"Z", 9⟩⟩] c d).OwnsVars := by
  intro c d e
  have hread : readClauses 0 "p(A)|q(A,f(Y))\n-p(g(A))".toList = .ok [c, d] :=
    eq_ok_of_toOption (by decide +kernel)
  have hstore :
      (steps 2 (start (.initial [c, d] (0 + [c, d].length) .unlimited))).state.store.toList =
        [c, d, e] := by
    decide +kernel
  obtain ⟨hrun, hcandidate⟩ := ownsVars_and_apart .unlimited hread (by decide)
  obtain ⟨howns, hapart⟩ := hrun 2
  refine ⟨hread, by decide, hstore, howns e ?_, ?_, hcandidate 4 _ c d⟩
  · rw [hstore]
    exact List.mem_cons_of_mem c (List.mem_cons_of_mem d List.mem_cons_self)
  · refine hapart 0 2 c e (by decide) ?_ ?_
    · rw [← Store.getElem?_toList, hstore]
      rfl
    · rw [← Store.getElem?_toList, hstore]
      rfl

end Run
end Refutation
