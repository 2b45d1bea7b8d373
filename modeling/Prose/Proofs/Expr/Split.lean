import Prose.Proofs.Expr.Alone
import Prose.Proofs.Expr.Division
import Prose.Proofs.Expr.Indices
import Prose.Proofs.Token.Regular

namespace Prose

open Prose.Expr Grammar

def Slice.operandAlone (o : Options) (n level : Nat) (side : Side) (s : Slice) :
    Except Problem Operand :=
  (((operand level side s).run (Parse.read standard)).run.run (.start o n)).1

/-- The operator of the level at an index splits the slice: both sides, each alone in a new session,
are operands of it. -/
def Slice.SplitsAt (o : Options) (n : Nat) (l : OperatorLevel) (s : Slice) (i : Nat) (e : Expr) :
    Prop :=
  (Form.operators l).Divides s i ∧ ∃ op left right, operatorAt? s l i = some op ∧
    (s.take i).operandAlone o n l.level .before = .ok (.bound left) ∧
    (s.drop (i + 1)).operandAlone o n l.level .after = .ok (.bound right) ∧
    e = .binary s.position left op right

/-- A side of the operator at an index fails alone in a new session. The right side counts only if
the left one is an operand: it is not read otherwise. -/
def Slice.FailsAt (o : Options) (n : Nat) (l : OperatorLevel) (s : Slice) (i : Nat) (p : Problem) :
    Prop :=
  (Form.operators l).Divides s i ∧
    ((s.take i).operandAlone o n l.level .before = .error p ∨
      (∃ left, (s.take i).operandAlone o n l.level .before = .ok (.bound left)) ∧
        (s.drop (i + 1)).operandAlone o n l.level .after = .error p)

/-- Of two operators of the level the first index is tried before the second one: powers from the
first on, all others from the last on. -/
def Expr.OperatorLevel.Prefers (l : OperatorLevel) (i j : Nat) : Prop :=
  if l.groupsRight then i < j else j < i

instance (l : OperatorLevel) (i j : Nat) : Decidable (l.Prefers i j) := by
  unfold OperatorLevel.Prefers
  infer_instance

variable {s : Slice} {l : OperatorLevel} {i j : Nat} {is : List Nat} {e : Expr} {p : Problem}
  {o : Options} {n : Nat}

theorem operandAlone_eq_resolve {level : Nat} {side : Side} (hroom : s.length ≤ o.maxNestingDepth) :
    s.operandAlone o n level side = (operand level side s).resolve standard.outcome := by
  -- The session goes on answering with outcomes, as there is room for every part of the slice.
  obtain ⟨r, τ, hrun, -, rfl | ⟨p, hp, -⟩⟩ := Inquiry.run_resolve (P := (·.IsPartOf s))
    (I := fun τ => τ.Recalls standard s ∧ (Session.start o n).Alike τ) (E := fun _ => False)
    (Parse.read standard) standard.outcome
    (fun q hq σ hσ => by
      have hle := hq.length_le
      have hroom' : σ.depth + q.length ≤ σ.options.maxNestingDepth := by
        rw [hσ.2.depth, hσ.2.options]
        simp only [Session.start]
        omega
      obtain ⟨τ, hrun, hτ, halike⟩ := Parse.read_run hq hσ.1 hroom'
      exact ⟨_, τ, hrun, ⟨hτ, hσ.2.trans halike⟩, .inl rfl⟩)
    (asks_operand level side fun q hq => hq)
    ⟨Session.recalls_start standard s o n, .refl _⟩
  · rw [Slice.operandAlone, hrun]
  · exact hp.elim

section attempts

def readAt (s : Slice) (l : OperatorLevel) (i : Nat) : Query (Option Expr) :=
  match operatorAt? s l i with
  | none => pure none
  | some op => do
    match ← operand l.level .before (s.take i) with
    | .bound left =>
      match ← operand l.level .after (s.drop (i + 1)) with
      | .bound right => pure (some (.binary s.position left op right))
      | _ => pure none
    | _ => pure none

/-- The operators behind the first one are tried only if that one passes. -/
theorem resolve_readSplit_cons :
    (readSplit s l (i :: is)).resolve standard.outcome =
      ((readAt s l i).resolve standard.outcome).bind fun r =>
        match r with
        | some e => .ok (some e)
        | none => (readSplit s l is).resolve standard.outcome := by
  cases hop : operatorAt? s l i with
  | none => simp [readSplit_cons_of_none hop, readAt, hop, Except.bind]
  | some op =>
    rw [readSplit_cons hop]
    simp only [readAt, hop, Inquiry.resolve_bind]
    rcases (operand l.level .before (s.take i)).resolve standard.outcome with _ | left | _ | _
    · rfl
    · simp only [Except.bind, Inquiry.resolve_bind]
      rcases (operand l.level .after (s.drop (i + 1))).resolve standard.outcome with
        _ | right | _ | _ <;> rfl
    · rfl
    · rfl

/-- The first operator that does not pass decides what the level comes to. -/
theorem resolve_readSplit_of_first {before after : List Nat} {r : Except Problem Expr}
    (hbefore : ∀ j ∈ before, (readAt s l j).resolve standard.outcome = .ok none)
    (hi : (readAt s l i).resolve standard.outcome = r.map some) :
    (readSplit s l (before ++ i :: after)).resolve standard.outcome = r.map some := by
  induction before with
  | nil =>
    rw [List.nil_append, resolve_readSplit_cons, hi]
    cases r <;> rfl
  | cons j before ih =>
    rw [List.forall_mem_cons] at hbefore
    rw [List.cons_append, resolve_readSplit_cons, hbefore.1]
    exact ih hbefore.2

/-- A level passes over a slice if the left side of each of its operators is not read. -/
theorem verdict_operators_of_unread
    (h : ∀ i, (Form.operators l).Divides s i → standard.outcome (s.take i) = .ok none) :
    standard.verdict (.operators l) s = .ok none := by
  -- For any list of indices, since the induction leaves out those that were tried.
  have hnone : ∀ is : List Nat, (∀ i ∈ is, i ∈ s.positionsOf (l.operators.map (·.1))) →
      (readSplit s l is).resolve standard.outcome = .ok none := by
    intro is his
    induction is with
    | nil => rfl
    | cons i is ih =>
      rw [List.forall_mem_cons] at his
      cases hop : operatorAt? s l i with
      | none =>
        rw [readSplit_cons_of_none hop]
        exact ih his.2
      | some op =>
        have hunread := h i (divides_of_operatorAt? hop his.1)
        rw [readSplit_cons hop, Inquiry.resolve_bind, resolve_operand,
          view_of_outcome_none hunread]
        exact ih his.2
  rw [verdict, Form.read, readOperators_eq]
  refine hnone _ fun i hi => ?_
  split at hi
  · exact hi
  · exact List.mem_reverse.mp hi

/-- What the sides come to, each alone, says what the operator makes of them. -/
theorem attempt_iff_of_divides (hroom : s.length ≤ o.maxNestingDepth)
    (h : (Form.operators l).Divides s i) :
    (∀ e, s.SplitsAt o n l i e ↔ (readAt s l i).resolve standard.outcome = .ok (some e)) ∧
      ∀ p, s.FailsAt o n l i p ↔ (readAt s l i).resolve standard.outcome = .error p := by
  obtain ⟨-, op, hop⟩ := exists_operatorAt? h
  have hbefore : (s.take i).operandAlone o n l.level .before = _ :=
    operandAlone_eq_resolve (Nat.le_trans (s.isPartOf_take i).length_le hroom)
  have hafter : (s.drop (i + 1)).operandAlone o n l.level .after = _ :=
    operandAlone_eq_resolve (Nat.le_trans (s.isPartOf_drop (i + 1)).length_le hroom)
  simp only [Slice.SplitsAt, Slice.FailsAt, hbefore, hafter, h, true_and, readAt, hop,
    Inquiry.resolve_bind]
  -- The right side is asked for only behind a left one that is an operand.
  rcases (operand l.level .before (s.take i)).resolve standard.outcome with _ | left | _ | _
  · simp [Except.bind]
  · simp only [Except.bind, Inquiry.resolve_bind]
    rcases (operand l.level .after (s.drop (i + 1))).resolve standard.outcome with
      _ | right | _ | _ <;> simp [eq_comm]
  · simp [Except.bind]
  · simp [Except.bind]

end attempts

section order

/-- The indices of a level in the order in which they are tried. -/
def triedPositions (s : Slice) (l : OperatorLevel) : List Nat :=
  if l.groupsRight then s.positionsOf (l.operators.map (·.1))
  else (s.positionsOf (l.operators.map (·.1))).reverse

theorem mem_triedPositions_iff :
    i ∈ triedPositions s l ↔ i ∈ s.positionsOf (l.operators.map (·.1)) := by
  unfold triedPositions
  split
  · exact Iff.rfl
  · exact List.mem_reverse

theorem mem_triedPositions_of_divides (h : (Form.operators l).Divides s i) :
    i ∈ triedPositions s l :=
  mem_triedPositions_iff.mpr (exists_operatorAt? h).1

/-- Where the level does not pass, it divides the slice. -/
theorem divides_of_readAt (hi : i ∈ triedPositions s l)
    (h : (readAt s l i).resolve standard.outcome ≠ .ok none) : (Form.operators l).Divides s i := by
  cases hop : operatorAt? s l i with
  | none => exact absurd (by rw [readAt, hop]; rfl) h
  | some op => exact divides_of_operatorAt? hop (mem_triedPositions_iff.mp hi)

theorem splitsAt_iff (hroom : s.length ≤ o.maxNestingDepth) :
    s.SplitsAt o n l i e ↔
      i ∈ triedPositions s l ∧ (readAt s l i).resolve standard.outcome = .ok (some e) := by
  constructor
  · intro h
    exact ⟨mem_triedPositions_of_divides h.1, ((attempt_iff_of_divides hroom h.1).1 e).mp h⟩
  · rintro ⟨hi, he⟩
    have hdivides := divides_of_readAt hi (by simp [he])
    exact ((attempt_iff_of_divides hroom hdivides).1 e).mpr he

theorem failsAt_iff (hroom : s.length ≤ o.maxNestingDepth) :
    s.FailsAt o n l i p ↔
      i ∈ triedPositions s l ∧ (readAt s l i).resolve standard.outcome = .error p := by
  constructor
  · intro h
    exact ⟨mem_triedPositions_of_divides h.1, ((attempt_iff_of_divides hroom h.1).2 p).mp h⟩
  · rintro ⟨hi, hp⟩
    have hdivides := divides_of_readAt hi (by simp [hp])
    exact ((attempt_iff_of_divides hroom hdivides).2 p).mpr hp

theorem pairwise_positionsOf (s : Slice) (ks : List Keyword) :
    (s.positionsOf ks).Pairwise (· ≤ ·) := by
  rw [Slice.positionsOf, List.pairwise_flatMap]
  refine ⟨fun en _ => List.pairwise_replicate.mpr (.inr (Nat.le_refl _)), ?_⟩
  refine (pairwise_depthZero 0 0 s.tokens).imp fun {en en'} hlt i hi j hj => ?_
  rw [List.eq_of_mem_replicate hi, List.eq_of_mem_replicate hj]
  exact Nat.le_of_lt hlt

theorem pairwise_triedPositions (s : Slice) (l : OperatorLevel) :
    (triedPositions s l).Pairwise fun i j => i = j ∨ l.Prefers i j := by
  have hordered := pairwise_positionsOf s (l.operators.map (·.1))
  unfold triedPositions OperatorLevel.Prefers
  cases l.groupsRight with
  | true =>
    simp only [if_true]
    exact hordered.imp fun hle => (Nat.lt_or_eq_of_le hle).symm
  | false =>
    simp only [Bool.false_eq_true, if_false, List.pairwise_reverse]
    exact hordered.imp fun hle => ((Nat.lt_or_eq_of_le hle).imp_right Eq.symm).symm

theorem Expr.OperatorLevel.Prefers.asymm (h : l.Prefers i j) : ¬ l.Prefers j i := by
  unfold OperatorLevel.Prefers at h ⊢
  split at h
  · rename_i hright
    rw [if_pos hright]
    exact Nat.lt_asymm h
  · rename_i hright
    rw [if_neg hright]
    exact Nat.lt_asymm h

theorem Expr.OperatorLevel.Prefers.trans {k : Nat} (h : l.Prefers i j) (h' : l.Prefers j k) :
    l.Prefers i k := by
  unfold OperatorLevel.Prefers at h h' ⊢
  split at h
  · rename_i hright
    rw [if_pos hright] at h' ⊢
    exact Nat.lt_trans h h'
  · rename_i hright
    rw [if_neg hright] at h' ⊢
    exact Nat.lt_trans h' h

/-- Of the tried indices with a property one is tried first. -/
theorem exists_tried_first_of {P : Nat → Prop} (h : ∃ i ∈ triedPositions s l, P i) :
    ∃ before i after, triedPositions s l = before ++ i :: after ∧ P i ∧ (∀ j ∈ before, ¬ P j) ∧
      ∀ j ∈ triedPositions s l, P j → i = j ∨ l.Prefers i j := by
  classical
  obtain ⟨i, hi⟩ : ∃ i, (triedPositions s l).find? (P ·) = some i := by
    simpa [← Option.isSome_iff_exists, List.find?_isSome] using h
  obtain ⟨hP, before, after, hsplit, hbefore⟩ := List.find?_eq_some_iff_append.mp hi
  have hbefore' : ∀ j ∈ before, ¬ P j := by simpa using hbefore
  refine ⟨before, i, after, hsplit, by simpa using hP, hbefore', fun j hj hPj => ?_⟩
  -- A keyword given twice would stand twice in the list, hence the equality in the order.
  have hordered := pairwise_triedPositions s l
  rw [hsplit, List.pairwise_append, List.pairwise_cons] at hordered
  rw [hsplit, List.mem_append, List.mem_cons] at hj
  rcases hj with hj | rfl | hj
  · exact absurd hPj (hbefore' j hj)
  · exact .inl rfl
  · exact hordered.2.1.1 j hj

/-- Of the indices at which the level does not pass the one that is tried first decides. -/
theorem exists_decides (h : ∃ i ∈ triedPositions s l,
    (readAt s l i).resolve standard.outcome ≠ .ok none) :
    ∃ i ∈ triedPositions s l, ∃ r : Except Problem Expr,
      (readAt s l i).resolve standard.outcome = r.map some ∧
      standard.verdict (.operators l) s = r.map some ∧
      ∀ j ∈ triedPositions s l, (readAt s l j).resolve standard.outcome ≠ .ok none →
        i = j ∨ l.Prefers i j := by
  obtain ⟨before, i, after, hsplit, hi, hbefore, hfirst⟩ := exists_tried_first_of h
  obtain ⟨r, hr⟩ : ∃ r : Except Problem Expr,
      (readAt s l i).resolve standard.outcome = r.map some := by
    match hi' : (readAt s l i).resolve standard.outcome with
    | .ok none => exact absurd hi' hi
    | .ok (some e) => exact ⟨.ok e, rfl⟩
    | .error p => exact ⟨.error p, rfl⟩
  refine ⟨i, by simp [hsplit], r, hr, ?_, hfirst⟩
  have hread : Form.read (.operators l) s = readSplit s l (triedPositions s l) :=
    readOperators_eq l s
  rw [verdict, hread, hsplit]
  exact resolve_readSplit_of_first (fun j hj => not_not.mp (hbefore j hj)) hr

/-- Two indices of which neither is tried before the other one are the same. -/
theorem eq_of_prefers (h : i = j ∨ l.Prefers i j) (h' : j = i ∨ l.Prefers j i) : i = j := by
  rcases h with heq | h
  · exact heq
  · exact h'.elim Eq.symm fun h' => absurd h' h.asymm

/-- The index that is tried before all others at which the level does not pass decides. -/
theorem verdict_operators_of_preferred {r : Except Problem Expr} (hi : i ∈ triedPositions s l)
    (hr : (readAt s l i).resolve standard.outcome = r.map some)
    (hfirst : ∀ j ∈ triedPositions s l, (readAt s l j).resolve standard.outcome ≠ .ok none →
      i = j ∨ l.Prefers i j) : standard.verdict (.operators l) s = r.map some := by
  have hnone (r' : Except Problem Expr) : r'.map some ≠ .ok none := by
    cases r' <;> simp [Except.map]
  have hdecides : (readAt s l i).resolve standard.outcome ≠ .ok none := hr ▸ hnone r
  obtain ⟨k, hk, r', hr', hverdict, hpreferred⟩ := exists_decides ⟨i, hi, hdecides⟩
  have hik : i = k := eq_of_prefers (hfirst k hk (hr' ▸ hnone r')) (hpreferred i hi hdecides)
  subst hik
  rw [hverdict, ← hr', hr]

end order

/-- Where an operator of the level splits the slice, the level accepts it at the split that is tried
first, the last one or for powers the first, exactly if no operator with a failing side is tried
before it. Otherwise the level fails as the first of these does; it never passes over the slice. -/
theorem alone_operators_of_splitsAt (hroom : s.length < o.maxNestingDepth)
    (h : ∃ i e, s.SplitsAt o n l i e) :
    ∃ i e, s.SplitsAt o n l i e ∧ (∀ j e', s.SplitsAt o n l j e' → i = j ∨ l.Prefers i j) ∧
      ((Form.operators l).alone o n s = .ok (some e) ↔ ∀ j p, s.FailsAt o n l j p → l.Prefers i j) ∧
      ∀ j p, s.FailsAt o n l j p → l.Prefers j i →
        (∀ j' p', s.FailsAt o n l j' p' → j = j' ∨ l.Prefers j j') →
          (Form.operators l).alone o n s = .error p := by
  have hroom' := Nat.le_of_lt hroom
  simp only [alone_eq_verdict hroom', splitsAt_iff hroom', failsAt_iff hroom'] at h ⊢
  obtain ⟨before, i, after, hsplit, ⟨e, he⟩, -, hfirst⟩ := exists_tried_first_of
    (P := fun i => ∃ e, (readAt s l i).resolve standard.outcome = .ok (some e)) (by
      obtain ⟨i, e, hi, he⟩ := h
      exact ⟨i, hi, e, he⟩)
  have hi : i ∈ triedPositions s l := by simp [hsplit]
  refine ⟨i, e, ⟨hi, he⟩, fun j e' hj => hfirst j hj.1 ⟨e', hj.2⟩, ⟨?_, fun hfails => ?_⟩, ?_⟩
  -- The operator that decides splits the slice, as the level accepts, so it is the split at hand.
  · intro haccepts j p hj
    have hdecides : (readAt s l i).resolve standard.outcome ≠ .ok none := by simp [he]
    obtain ⟨k, hk, r, hr, hverdict, hpreferred⟩ := exists_decides ⟨i, hi, hdecides⟩
    rw [← hr, haccepts] at hverdict
    have hik : i = k := eq_of_prefers (hfirst k hk ⟨e, hverdict.symm⟩) (hpreferred i hi hdecides)
    subst hik
    rcases hpreferred j hj.1 (by simp [hj.2]) with rfl | hij
    · rw [he] at hj
      cases hj.2
    · exact hij
  -- Everything that is tried before the split passes: it neither splits the slice nor fails.
  · refine verdict_operators_of_preferred (r := .ok e) hi he fun j hj hdecides => ?_
    match hr : (readAt s l j).resolve standard.outcome with
    | .ok none => exact absurd hr hdecides
    | .ok (some e') => exact hfirst j hj ⟨e', hr⟩
    | .error p => exact .inr (hfails j p ⟨hj, hr⟩)
  -- The first failure comes before all splits, as it comes before the first of them.
  · intro j p hj hji hfirst'
    refine verdict_operators_of_preferred (r := .error p) hj.1 hj.2 fun k hk hdecides => ?_
    match hr : (readAt s l k).resolve standard.outcome with
    | .ok none => exact absurd hr hdecides
    | .ok (some e') => exact .inr ((hfirst k hk ⟨e', hr⟩).elim (fun heq => heq ▸ hji) hji.trans)
    | .error p' => exact hfirst' k p' ⟨hk, hr⟩

section instances

theorem exists_eq_bound {r : Except Problem Operand} (h : (r matches .ok (.bound _)) = true) :
    ∃ e, r = .ok (.bound e) := by
  match r with
  | .ok (.bound e) => exact ⟨e, rfl⟩
  | .ok .looser => cases h
  | .ok .unread => cases h
  | .error p => cases h

/-- Between two operands an operator splits the slice. -/
theorem exists_splitsAt {k : Keyword} (hk : k ∈ (Form.operators l).signs) (hpos : 0 < i)
    (h : i + 1 < s.length ∧ (i, k) ∈ depthZero 0 0 s.tokens ∧
      ((s.take i).operandAlone o n l.level .before matches .ok (.bound _)) = true ∧
      ((s.drop (i + 1)).operandAlone o n l.level .after matches .ok (.bound _)) = true) :
    ∃ e, s.SplitsAt o n l i e := by
  obtain ⟨hi, hmem, hleft, hright⟩ := h
  have hdivides : (Form.operators l).Divides s i := ⟨hpos, hi, k, hk, hmem⟩
  obtain ⟨-, op, hop⟩ := exists_operatorAt? hdivides
  obtain ⟨left, hleft⟩ := exists_eq_bound hleft
  obtain ⟨right, hright⟩ := exists_eq_bound hright
  exact ⟨_, hdivides, op, left, right, hop, hleft, hright, rfl⟩

/-- A sum with another `plus` in the index of an element. The last `plus` cuts the index in two, so
its left side is no operand. -/
def indexedSum : Slice :=
  .ofSource "$a plus item 1 plus 2 of $x" "t"

/-- No side fails at the last `plus`, so the sum is split at the first one. -/
theorem alone_operators_indexedSum :
    indexedSum.length < ({} : Options).maxNestingDepth ∧
      (∃ i e, indexedSum.SplitsAt {} 0 .additive i e) ∧
        ∃ i e, indexedSum.SplitsAt {} 0 .additive i e ∧
          (Form.operators .additive).alone {} 0 indexedSum = .ok (some e) := by
  have hroom : indexedSum.length < ({} : Options).maxNestingDepth := by decide +kernel
  have hsplits : ∃ e, indexedSum.SplitsAt {} 0 .additive 1 e :=
    exists_splitsAt (k := .plus) (by decide) (by decide) (by decide +kernel)
  have htried : triedPositions indexedSum .additive = [4, 1] := by decide +kernel
  have hsound : ∀ j ∈ [4, 1], ((indexedSum.take j).operandAlone {} 0 OperatorLevel.additive.level
      .before).toOption.isNone = false ∧ ((indexedSum.drop (j + 1)).operandAlone {} 0
      OperatorLevel.additive.level .after).toOption.isNone = false := by
    decide +kernel
  obtain ⟨i, e, hi, -, haccepts, -⟩ := alone_operators_of_splitsAt hroom ⟨1, hsplits⟩
  refine ⟨hroom, ⟨1, hsplits⟩, i, e, hi, haccepts.mpr fun j p hj => ?_⟩
  obtain ⟨hdivides, hfails⟩ := hj
  obtain ⟨hbefore, hafter⟩ := hsound j (htried ▸ mem_triedPositions_of_divides hdivides)
  rcases hfails with hp | ⟨-, hp⟩
  · rw [hp] at hbefore
    cases hbefore
  · rw [hp] at hafter
    cases hafter

/-- A sum with another `plus` in the pattern of a match, which fails if its pattern is cut. -/
def matchedSum : Slice :=
  .ofSource "$a plus match $x with 1 plus 2 gives 3" "t"

/-- The first `plus` splits the slice, but the level fails at the last one. -/
theorem alone_operators_matchedSum :
    matchedSum.IsCondensed ∧ matchedSum.length < ({} : Options).maxNestingDepth ∧
      (∃ e, matchedSum.SplitsAt {} 0 .additive 1 e) ∧
        ∃ p, (Form.operators .additive).alone {} 0 matchedSum = .error p := by
  refine ⟨Slice.isCondensed_ofSource _ _, by decide +kernel, ?_, exists_eq_error ?_⟩
  · exact exists_splitsAt (k := .plus) (by decide) (by decide) (by decide +kernel)
  · decide +kernel

end instances

end Prose
