import Prose.Proofs.Segment.Boundary

namespace Prose

namespace Sentence

variable {slices rest : List Slice} {n m : Nat}

def isClause (s : Slice) : Bool :=
  s.startsWith .otherwiseIf || s.startsWith .otherwise

/-- No conditional is continued by the first of the slices. -/
def Fresh (slices : List Slice) : Prop :=
  ∀ s ∈ slices.head?, isClause s = false

/-- The clauses of a conditional, slice by slice. -/
theorem clauses_cons (s : Slice) (rest : List Slice) :
    clauses (s :: rest) =
      if s.startsWith .otherwiseIf then s :: clauses rest
      else if s.startsWith .otherwise then [s] else [] := by
  unfold clauses
  rw [List.takeWhile_cons]
  split
  · simp only [List.length_cons, List.drop_succ_cons]
    cases rest.drop (rest.takeWhile (·.startsWith .otherwiseIf)).length with
    | nil => rfl
    | cons r _ =>
      simp only
      split <;> rfl
  · simp only [List.length_nil, List.drop_zero, List.nil_append]

/-- A slice that is no clause ends a conditional. -/
theorem clauses_append (h : Fresh rest) : clauses (slices ++ rest) = clauses slices := by
  induction slices with
  | nil =>
    cases rest with
    | nil => rfl
    | cons r rest =>
      obtain ⟨hfurther, hlast⟩ := Bool.or_eq_false_iff.mp (h r rfl)
      rw [List.nil_append, clauses_cons, hfurther, hlast]
      rfl
  | cons s slices ih => rw [List.cons_append, clauses_cons, clauses_cons, ih]

/-- The clauses are some of the slices. -/
theorem length_clauses_le (slices : List Slice) : (clauses slices).length ≤ slices.length :=
  (isPrefix_clauses slices).length_le

/-- As many steps as slices are enough. -/
theorem ofSlices_eq (hn : slices.length ≤ n) (hm : slices.length ≤ m) :
    ofSlices n slices = ofSlices m slices := by
  induction n generalizing m slices with
  | zero =>
    cases List.eq_nil_of_length_eq_zero (Nat.le_zero.mp hn)
    cases m <;> rfl
  | succ n ih =>
    cases slices with
    | nil => cases m <;> rfl
    | cons s rest =>
      cases m with
      | zero => cases hm
      | succ m =>
        have hrest : rest.length ≤ n := Nat.le_of_succ_le_succ hn
        have hrest' : rest.length ≤ m := Nat.le_of_succ_le_succ hm
        have hdrop (i : Nat) : (rest.drop i).length ≤ rest.length := by
          rw [List.length_drop]
          omega
        rw [ofSlices, ofSlices, ih hrest hrest',
          ih (Nat.le_trans (hdrop _) hrest) (Nat.le_trans (hdrop _) hrest')]

/-- A conditional does not reach across a slice that is no clause. -/
theorem ofSlices_append (h : Fresh rest) (hn : slices.length + rest.length ≤ n) :
    ofSlices n (slices ++ rest) =
      ofSlices slices.length slices ++ ofSlices rest.length rest := by
  induction n generalizing slices with
  | zero =>
    cases List.eq_nil_of_length_eq_zero (by omega : slices.length = 0)
    exact ofSlices_eq (by rw [List.nil_append]; omega) (Nat.le_refl _)
  | succ n ih =>
    cases slices with
    | nil => exact ofSlices_eq (by rw [List.nil_append]; omega) (Nat.le_refl _)
    | cons s slices =>
      rw [List.length_cons] at hn
      have hclauses := length_clauses_le slices
      have hdrop : (slices.drop (clauses slices).length).length ≤ slices.length := by
        rw [List.length_drop]
        omega
      -- What is left is shorter, so the rest of the first slices may be taken in as many steps.
      have hleft : ofSlices n (slices.drop (clauses slices).length ++ rest) =
          ofSlices slices.length (slices.drop (clauses slices).length) ++
            ofSlices rest.length rest := by
        rw [ih (by omega), ofSlices_eq (Nat.le_refl _) hdrop]
      rw [List.cons_append, List.length_cons, ofSlices, ofSlices, clauses_append h,
        List.drop_append_of_le_length hclauses, hleft, ih (by omega)]
      split
      · rfl
      · split <;> rfl

def StartsFresh (segments : List Segment) : Prop :=
  ∀ s, segments.head? = some (.statement s) → isClause s = false

theorem startsFresh_nil : StartsFresh [] := by
  intro s hs
  cases hs

theorem startsFresh_broken (s : Slice) (p : Problem) (segments : List Segment) :
    StartsFresh (.broken s p :: segments) := by
  intro r hr
  cases hr

theorem startsFresh_statement {s : Slice} {segments : List Segment} :
    StartsFresh (.statement s :: segments) ↔ isClause s = false := by
  constructor
  · intro h
    exact h s rfl
  · intro h r hr
    cases hr
    exact h

/-- A run of slices that no clause follows is complete. -/
theorem ofSegments_run (run : List Slice) {slices : List Slice} {segments : List Segment}
    (h : Fresh slices) (hsegments : slices = [] → StartsFresh segments) :
    ofSegments (run ++ slices) segments =
      ofSlices run.length run ++ ofSegments slices segments := by
  induction segments generalizing slices with
  | nil =>
    rw [ofSegments, ofSegments]
    exact ofSlices_append h (by rw [List.length_append])
  | cons segment segments ih =>
    cases segment with
    | statement s =>
      rw [ofSegments, ofSegments, List.append_assoc]
      apply ih
      · cases slices with
        | nil =>
          intro r hr
          cases hr
          exact hsegments rfl s rfl
        | cons r rest => exact h
      · intro hnil
        cases List.append_eq_nil_iff.mp hnil |>.2
    | broken s p =>
      rw [ofSegments, ofSegments, ← List.append_assoc]
      congr 1
      exact ofSlices_append h (by rw [List.length_append])

/-- The sentences of segments behind which no conditional goes on. -/
theorem ofSegments_append {run : List Slice} {segments later : List Segment}
    (h : StartsFresh later) :
    ofSegments run (segments ++ later) = ofSegments run segments ++ ofSegments [] later := by
  induction segments generalizing run with
  | nil =>
    have hnil : Fresh [] := fun s hs => by cases hs
    have hrun := ofSegments_run run hnil fun _ => h
    rwa [List.append_nil] at hrun
  | cons segment segments ih =>
    cases segment with
    | statement s =>
      rw [List.cons_append, ofSegments, ofSegments]
      exact ih
    | broken s p =>
      rw [List.cons_append, ofSegments, ofSegments, ih, List.append_assoc]
      rfl

/-- A block whose first token but `.` begins no clause. -/
theorem startsFresh_divide {b : List Token} (strict : Bool)
    (hb : ∀ t ∈ b.find? (·.keyword != .endOfStatement),
      t.keyword ≠ .otherwise ∧ t.keyword ≠ .otherwiseIf) :
    StartsFresh (Segment.divide strict (.ofTokens b)).segments := by
  intro r hr
  have hfind : b.find? (·.keyword != .endOfStatement) = r.tokens.head? :=
    Segment.find?_eq_of_head? hr
  rw [hfind] at hb
  unfold isClause Slice.startsWith
  cases hhead : r.tokens.head? with
  | none => rfl
  | some t =>
    obtain ⟨hotherwise, hotherwiseIf⟩ := hb t hhead
    simp [hotherwise, hotherwiseIf]

/-- What begins no clause does so elsewhere. -/
theorem StartsFresh.relocate {segments : List Segment} (h : StartsFresh segments)
    (ρ : Relocation) : StartsFresh (Relocates.relocate ρ segments) := by
  cases segments with
  | nil => exact startsFresh_nil
  | cons segment segments =>
    cases segment with
    | broken r p => exact startsFresh_broken _ _ _
    | statement r =>
      apply startsFresh_statement.mpr
      rw [isClause, Slice.startsWith_relocate, Slice.startsWith_relocate]
      exact startsFresh_statement.mp h

end Sentence

end Prose
