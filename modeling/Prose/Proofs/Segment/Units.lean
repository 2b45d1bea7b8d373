import Prose.Proofs.Segment.Sentences

namespace Prose.Sentence

/-- The first of the segments go on with a conditional by the slices `taken`, and `rest` is what they
leave: any number of `otherwise if`, then `otherwise` or a segment that is no clause. -/
inductive Continues : List Segment → List Slice → List Segment → Prop
  | stop {segments} (h : StartsFresh segments) : Continues segments [] segments
  | last {s segments} (h : s.startsWith .otherwise = true) :
      Continues (.statement s :: segments) [s] segments
  | further {s segments taken rest} (h : s.startsWith .otherwiseIf = true)
      (hrest : Continues segments taken rest) :
      Continues (.statement s :: segments) (s :: taken) rest

inductive Units : List Segment → List Sentence → Prop
  | nil : Units [] []
  | chain {s segments taken rest units} (h : s.startsWith .ifWord = true)
      (htaken : Continues segments taken rest) (hrest : Units rest units) :
      Units (.statement s :: segments) (.chain (s :: taken) :: units)
  | orphan {s segments units} (h : isClause s = true) (hrest : Units segments units) :
      Units (.statement s :: segments) (.orphan s :: units)
  | plain {s segments units} (hif : s.startsWith .ifWord = false) (hclause : isClause s = false)
      (hrest : Units segments units) : Units (.statement s :: segments) (.plain s :: units)
  | broken {s p segments units} (hrest : Units segments units) :
      Units (.broken s p :: segments) (.broken s p :: units)

section keywords

variable {s : Slice} {k : Keyword}

/-- A slice starts with one keyword. -/
theorem startsWith_eq_false (h : s.startsWith k = true) (k' : Keyword) (hne : k ≠ k') :
    s.startsWith k' = false := by
  unfold Slice.startsWith at h ⊢
  obtain ⟨t, ht, hk⟩ := (Option.any_eq_true ..).mp h
  rw [ht, Option.any_some, beq_eq_false_iff_ne, eq_of_beq hk]
  exact hne

theorem isClause_of_startsWith_ifWord (h : s.startsWith .ifWord = true) : isClause s = false := by
  rw [isClause, startsWith_eq_false h .otherwiseIf (by decide),
    startsWith_eq_false h .otherwise (by decide)]
  rfl

theorem isClause_of_startsWith_otherwise (h : s.startsWith .otherwise = true) :
    isClause s = true := by
  rw [isClause, h, Bool.or_true]

theorem isClause_of_startsWith_otherwiseIf (h : s.startsWith .otherwiseIf = true) :
    isClause s = true := by
  rw [isClause, h, Bool.true_or]

end keywords

section unique

variable {segments rest rest' : List Segment} {taken taken' : List Slice}

/-- A conditional ends in one way only. -/
theorem Continues.unique (h : Continues segments taken rest)
    (h' : Continues segments taken' rest') : taken = taken' ∧ rest = rest' := by
  -- The segment behind tells the three ways apart: it is no clause, an `otherwise` or an `otherwise
  -- if`.
  induction h generalizing taken' with
  | stop hfresh =>
    cases h' with
    | stop => exact ⟨rfl, rfl⟩
    | last hlast =>
      rw [startsFresh_statement, isClause_of_startsWith_otherwise hlast] at hfresh
      cases hfresh
    | further hfurther =>
      rw [startsFresh_statement, isClause_of_startsWith_otherwiseIf hfurther] at hfresh
      cases hfresh
  | last hlast =>
    cases h' with
    | stop hfresh =>
      rw [startsFresh_statement, isClause_of_startsWith_otherwise hlast] at hfresh
      cases hfresh
    | last => exact ⟨rfl, rfl⟩
    | further hfurther =>
      rw [startsWith_eq_false hlast .otherwiseIf (by decide)] at hfurther
      cases hfurther
  | further hfurther _ ih =>
    cases h' with
    | stop hfresh =>
      rw [startsFresh_statement, isClause_of_startsWith_otherwiseIf hfurther] at hfresh
      cases hfresh
    | last hlast =>
      rw [startsWith_eq_false hfurther .otherwise (by decide)] at hlast
      cases hlast
    | further _ hrest =>
      obtain ⟨htaken, hleft⟩ := ih hrest
      exact ⟨congrArg (_ :: ·) htaken, hleft⟩

/-- Segments have one list of units. -/
theorem Units.unique {units units' : List Sentence} (h : Units segments units)
    (h' : Units segments units') : units = units' := by
  -- The first segment says which rule was used; of a chain it also says how far it goes.
  induction h generalizing units' with
  | nil =>
    cases h'
    rfl
  | chain hif htaken _ ih =>
    cases h' with
    | chain _ htaken' hrest' =>
      obtain ⟨rfl, rfl⟩ := htaken.unique htaken'
      rw [ih hrest']
    | orphan hclause =>
      rw [isClause_of_startsWith_ifWord hif] at hclause
      cases hclause
    | plain hplain =>
      rw [hif] at hplain
      cases hplain
  | orphan hclause _ ih =>
    cases h' with
    | chain hif =>
      rw [isClause_of_startsWith_ifWord hif] at hclause
      cases hclause
    | orphan _ hrest' => rw [ih hrest']
    | plain _ hplain =>
      rw [hclause] at hplain
      cases hplain
  | plain hif hclause _ ih =>
    cases h' with
    | chain hchain =>
      rw [hif] at hchain
      cases hchain
    | orphan horphan =>
      rw [hclause] at horphan
      cases horphan
    | plain _ _ hrest' => rw [ih hrest']
  | broken _ ih =>
    cases h' with
    | broken hrest' => rw [ih hrest']

end unique

section existence

variable {slices : List Slice} {segments : List Segment} {units : List Sentence}

/-- The clauses are what goes on with a conditional, in front of a segment that does not. -/
theorem continues_clauses (slices : List Slice) (h : StartsFresh segments) :
    Continues (slices.map .statement ++ segments) (clauses slices)
      ((slices.drop (clauses slices).length).map .statement ++ segments) := by
  induction slices with
  | nil => exact .stop h
  | cons s slices ih =>
    rw [clauses_cons]
    cases hfurther : s.startsWith .otherwiseIf with
    | true => exact .further hfurther ih
    | false =>
      cases hlast : s.startsWith .otherwise with
      | true => exact .last hlast
      | false =>
        apply Continues.stop
        apply startsFresh_statement.mpr
        rw [isClause, hfurther, hlast]
        rfl

/-- The sentences of slices, and the units of what stands behind them. -/
theorem units_ofSlices {n : Nat} (hn : slices.length ≤ n) (h : StartsFresh segments)
    (hunits : Units segments units) :
    Units (slices.map .statement ++ segments) (ofSlices n slices ++ units) := by
  induction n generalizing slices with
  | zero =>
    cases List.eq_nil_of_length_eq_zero (Nat.le_zero.mp hn)
    exact hunits
  | succ n ih =>
    cases slices with
    | nil => exact hunits
    | cons s slices =>
      have hrest : slices.length ≤ n := Nat.le_of_succ_le_succ hn
      have hdrop : (slices.drop (clauses slices).length).length ≤ n := by
        rw [List.length_drop]
        omega
      -- A chain takes its clauses with it; every other sentence is a unit of its own.
      rw [ofSlices]
      cases hif : s.startsWith .ifWord with
      | true => exact .chain hif (continues_clauses slices h) (ih hdrop)
      | false =>
        cases hclause : isClause s with
        | true =>
          unfold isClause at hclause
          rw [hclause]
          exact .orphan hclause (ih hrest)
        | false =>
          unfold isClause at hclause
          rw [hclause]
          exact .plain hif hclause (ih hrest)

/-- The run of slices in front of a broken segment, or at the end, is complete. -/
theorem units_ofSegments (run : List Slice) (segments : List Segment) :
    Units (run.map .statement ++ segments) (ofSegments run segments) := by
  induction segments generalizing run with
  | nil =>
    have hrun := units_ofSlices (Nat.le_refl run.length) startsFresh_nil Units.nil
    rwa [List.append_nil (ofSlices run.length run)] at hrun
  | cons segment segments ih =>
    cases segment with
    | statement s =>
      have hrun := ih (run ++ [s])
      rwa [List.map_append, List.append_assoc] at hrun
    | broken s p =>
      have hrest : Units segments (ofSegments [] segments) := ih []
      exact units_ofSlices (Nat.le_refl run.length) (startsFresh_broken s p segments)
        (.broken hrest)

/-- The sentences of a block are the units of its segments. -/
theorem units_ofBlock (strict : Bool) (s : Slice) :
    Units (Segment.divide strict s).segments (ofBlock strict s) :=
  units_ofSegments [] _

end existence

section members

variable {segments rest : List Segment} {units : List Sentence} {s : Slice} {p : Problem}

theorem broken_mem_of_cons {r : Slice} (h : .broken s p ∈ .statement r :: segments) :
    .broken s p ∈ segments := by
  rcases List.mem_cons.mp h with heq | hlater
  · cases heq
  · exact hlater

/-- A conditional takes no broken segment. -/
theorem Continues.broken_mem {taken : List Slice} (h : Continues segments taken rest)
    (hmem : .broken s p ∈ segments) : .broken s p ∈ rest := by
  induction h with
  | stop => exact hmem
  | last => exact broken_mem_of_cons hmem
  | further _ _ ih => exact ih (broken_mem_of_cons hmem)

/-- Every broken segment is a unit. -/
theorem Units.broken_mem (h : Units segments units)
    (hmem : .broken s p ∈ segments) : .broken s p ∈ units := by
  induction h with
  | nil => cases hmem
  | chain _ htaken _ ih =>
    exact List.mem_cons_of_mem _ (ih (htaken.broken_mem (broken_mem_of_cons hmem)))
  | orphan _ _ ih => exact List.mem_cons_of_mem _ (ih (broken_mem_of_cons hmem))
  | plain _ _ _ ih => exact List.mem_cons_of_mem _ (ih (broken_mem_of_cons hmem))
  | broken _ ih =>
    rcases List.mem_cons.mp hmem with heq | hlater
    · cases heq
      exact List.mem_cons_self ..
    · exact List.mem_cons_of_mem _ (ih hlater)

theorem Continues.subset {taken : List Slice} (h : Continues segments taken rest) :
    rest ⊆ segments := by
  induction h with
  | stop => exact List.Subset.refl _
  | last => exact List.subset_cons_self ..
  | further _ _ ih => exact List.subset_cons_of_subset _ ih

/-- A unit is a broken segment, or it begins with a statement of the block. -/
theorem Units.exists_of_mem {x : Sentence} (h : Units segments units) (hx : x ∈ units) :
    (∃ s p, x = .broken s p) ∨ ∃ s, x.slices.head? = some s ∧ .statement s ∈ segments := by
  induction h with
  | nil => cases hx
  | chain _ htaken _ ih =>
    rcases List.mem_cons.mp hx with rfl | hlater
    · exact .inr ⟨_, rfl, List.mem_cons_self ..⟩
    · rcases ih hlater with hbroken | ⟨s, hs, hmem⟩
      · exact .inl hbroken
      · exact .inr ⟨s, hs, List.mem_cons_of_mem _ (htaken.subset hmem)⟩
  | orphan _ _ ih =>
    rcases List.mem_cons.mp hx with rfl | hlater
    · exact .inr ⟨_, rfl, List.mem_cons_self ..⟩
    · exact (ih hlater).imp_right fun ⟨s, hs, hmem⟩ => ⟨s, hs, List.mem_cons_of_mem _ hmem⟩
  | plain _ _ _ ih =>
    rcases List.mem_cons.mp hx with rfl | hlater
    · exact .inr ⟨_, rfl, List.mem_cons_self ..⟩
    · exact (ih hlater).imp_right fun ⟨s, hs, hmem⟩ => ⟨s, hs, List.mem_cons_of_mem _ hmem⟩
  | broken _ ih =>
    rcases List.mem_cons.mp hx with rfl | hlater
    · exact .inl ⟨_, _, rfl⟩
    · exact (ih hlater).imp_right fun ⟨s, hs, hmem⟩ => ⟨s, hs, List.mem_cons_of_mem _ hmem⟩

end members

end Prose.Sentence
