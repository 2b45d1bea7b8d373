import Mathlib.Algebra.Order.BigOperators.Group.List
import Mathlib.Algebra.Order.Group.Nat
import Prose.Proofs.Block.Parallel
import Prose.Proofs.Stmt.Ambiguity

namespace Prose

open Inquiry

inductive ChainCause where
  | withoutThen (clause : Slice)
  | withoutCondition (clause : Slice)
  | unreadCondition (part : Slice)
  | withoutBody (clause : Slice)
  | otherwiseNotLast (clause : Slice)
  | otherLead (clause : Slice)
  | insideCondition (p : Problem)
  | tooDeep (limit : Nat) (clause : Slice)

namespace ChainCause

/-- The cause is the chain itself, not what is inside a condition and not the limit of nesting. -/
def IsOfChain : ChainCause → Prop
  | insideCondition _ | tooDeep .. => False
  | _ => True

def IsWithoutBody : ChainCause → Prop
  | withoutBody _ => True
  | _ => False

def problem : ChainCause → Problem
  | withoutThen clause =>
    (Stmt.chainProblem (.withoutThen ((clause.head?.map (·.text)).getD "")) clause.tokens).withHelp
      "write `if CONDITION then ...`"
  | withoutCondition clause => Stmt.chainProblem (.missing "a condition") clause.tokens
  | unreadCondition part => Stmt.chainProblem (.invalid "a condition") part.tokens
  | withoutBody clause => Expr.missingPart Stmt.conditionalOrigin "a body" clause.tokens
  | otherwiseNotLast clause => Stmt.chainProblem .otherwiseNotLast clause.tokens
  | otherLead clause => Stmt.chainProblem .unexpectedClause clause.tokens
  | insideCondition p => p
  | tooDeep limit clause => Parse.tooDeep limit Stmt.conditionalOrigin clause.tokens

/-- Of the faults of a chain, only a missing body does not have the code of malformed chains. -/
theorem code_problem {cause : ChainCause} (h : cause.IsOfChain) :
    (cause.problem.code = .malformedChain ↔ ¬cause.IsWithoutBody) ∧
      (cause.IsWithoutBody → cause.problem.code = .missingPart) := by
  cases cause with
  | insideCondition | tooDeep => exact h.elim
  | withoutBody clause =>
    have hcode : (withoutBody clause).problem.code ≠ .malformedChain := fun h => by cases h
    exact ⟨iff_of_false hcode (not_not_intro trivial), fun _ => rfl⟩
  | withoutThen | withoutCondition | unreadCondition | otherwiseNotLast | otherLead =>
    exact ⟨iff_of_true rfl id, False.elim⟩

end ChainCause

namespace Parse

variable {g : Grammar} {σ τ υ : Session} {clause part : Slice} {cause : ChainCause} {p : Problem}

theorem exists_run_eq_ok {α : Type} {x : Parse α} (h : (x.run.run σ).1.toOption.isSome = true) :
    ∃ a τ, x.run.run σ = (.ok a, τ) := by
  generalize x.run.run σ = last at h
  obtain ⟨p | a, τ⟩ := last
  · cases h
  · exact ⟨a, τ, rfl⟩

section causes

variable (g)

/-- The body of a clause cannot be read: nothing but perhaps a `.` is there, or the block in it
would be too deep. -/
inductive BodyFails (σ : Session) (clause part : Slice) : ChainCause → Prop
  | withoutBody (h : part.withoutTerminator.isEmpty = true) :
      BodyFails σ clause part (.withoutBody clause)
  | tooDeep (h : part.withoutTerminator.isEmpty = false)
      (hdeep : σ.options.maxNestingDepth ≤ σ.depth) :
      BodyFails σ clause part (.tooDeep σ.options.maxNestingDepth clause)

/-- A clause that begins with a condition cannot be read. The last session is the one in which its
condition has been tried, if there is one. -/
inductive ClauseFails (σ : Session) (clause : Slice) : ChainCause → Session → Prop
  | withoutThen (hthen : clause.first .thenWord 1 = none) :
      ClauseFails σ clause (.withoutThen clause) σ
  | withoutCondition {i : Nat} (hthen : clause.first .thenWord 1 = some i)
      (hempty : (clause.extract 1 i).isEmpty = true) :
      ClauseFails σ clause (.withoutCondition clause) σ
  | unreadCondition {i : Nat} {τ : Session} (hthen : clause.first .thenWord 1 = some i)
      (hne : (clause.extract 1 i).isEmpty = false)
      (hread : (read g (clause.extract 1 i)).run.run σ = (.ok none, τ)) :
      ClauseFails σ clause (.unreadCondition (clause.extract 1 i)) τ
  | insideCondition {i : Nat} {p : Problem} {τ : Session}
      (hthen : clause.first .thenWord 1 = some i) (hne : (clause.extract 1 i).isEmpty = false)
      (hread : (read g (clause.extract 1 i)).run.run σ = (.error p, τ)) :
      ClauseFails σ clause (.insideCondition p) τ
  | body {i : Nat} {e : Expr.Rule × Expr} {τ : Session} {cause : ChainCause}
      (hthen : clause.first .thenWord 1 = some i) (hne : (clause.extract 1 i).isEmpty = false)
      (hread : (read g (clause.extract 1 i)).run.run σ = (.ok (some e), τ))
      (hbody : BodyFails τ clause (clause.drop (i + 1)) cause) : ClauseFails σ clause cause τ

def ClauseReads (σ : Session) (clause : Slice) (τ : Session) : Prop :=
  ∃ r, ((Stmt.readClause clause).run (reply g (block g))).run.run σ = (.ok r, τ)

inductive FurtherFails : Session → List Slice → ChainCause → Session → Prop
  | clause {σ τ : Session} {clause : Slice} {rest : List Slice} {cause : ChainCause}
      (hlead : clause.startsWith .otherwiseIf = true) (h : ClauseFails g σ clause cause τ) :
      FurtherFails σ (clause :: rest) cause τ
  | later {σ τ υ : Session} {clause : Slice} {rest : List Slice} {cause : ChainCause}
      (hlead : clause.startsWith .otherwiseIf = true) (hreads : ClauseReads g σ clause τ)
      (hrest : FurtherFails τ rest cause υ) : FurtherFails σ (clause :: rest) cause υ
  | last {σ : Session} {clause : Slice} {cause : ChainCause}
      (hlead : clause.startsWith .otherwise = true)
      (hbody : BodyFails σ clause (clause.drop 1) cause) : FurtherFails σ [clause] cause σ
  | notLast {σ : Session} {clause : Slice} {rest : List Slice}
      (hlead : clause.startsWith .otherwise = true) (hrest : rest ≠ []) :
      FurtherFails σ (clause :: rest) (.otherwiseNotLast clause) σ
  | otherLead {σ : Session} {clause : Slice} {rest : List Slice}
      (hif : clause.startsWith .otherwiseIf = false)
      (hotherwise : clause.startsWith .otherwise = false) :
      FurtherFails σ (clause :: rest) (.otherLead clause) σ

inductive ChainFails (σ : Session) : List Slice → ChainCause → Session → Prop
  | first {first : Slice} {rest : List Slice} {cause : ChainCause} {τ : Session}
      (h : ClauseFails g σ first cause τ) : ChainFails σ (first :: rest) cause τ
  | further {first : Slice} {rest : List Slice} {cause : ChainCause} {τ υ : Session}
      (hreads : ClauseReads g σ first τ) (hrest : FurtherFails g τ rest cause υ) :
      ChainFails σ (first :: rest) cause υ

end causes

variable {block' : Slice → StateM Session (List Stmt)}

section body

/-- An inquiry fails if all of it fails but the last step, which cannot. -/
theorem run_then_eq_error {α β : Type} {x : Stmt.Query α} {f : α → Stmt.Query β}
    {answer : (q : Stmt.Question) → Parse q.Reply} (hf : ∀ a, ∃ b, f a = pure b) :
    ((x >>= f).run answer).run.run σ = (.error p, τ) ↔
      (x.run answer).run.run σ = (.error p, τ) := by
  rw [run_bind_query, run_bind_eq_error]
  constructor
  · rintro (h | ⟨a, υ, -, h⟩)
    · exact h
    · obtain ⟨b, hb⟩ := hf a
      rw [hb] at h
      cases h
  · exact .inl

/-- The body of a clause fails for a cause of its own, before anything in it is read. -/
theorem body_fails_iff :
    ((Stmt.requiredBody Stmt.conditionalOrigin part clause.tokens).run
        (reply g block')).run.run σ = (.error p, τ) ↔
      ∃ cause, BodyFails σ clause part cause ∧ cause.problem = p ∧ σ = τ := by
  rw [requiredBody_run]
  constructor
  · intro h
    split at h
    · rename_i hempty
      cases h
      exact ⟨_, .withoutBody hempty, rfl, rfl⟩
    · rename_i hne
      rw [nested_run] at h
      split at h
      · rename_i hdeep
        cases h
        exact ⟨_, .tooDeep (Bool.not_eq_true _ ▸ hne) hdeep, rfl, rfl⟩
      -- The block itself does not fail.
      · cases h
  · rintro ⟨cause, hbody, rfl, rfl⟩
    cases hbody with
    | withoutBody hempty =>
      rw [if_pos hempty]
      rfl
    | tooDeep hne hdeep =>
      rw [if_neg (Bool.not_eq_true _ ▸ hne), nested_run, if_pos hdeep]
      rfl

end body

section clauses

/-- A clause with a `then` is its condition and, if this is read, its body. -/
theorem readClause_run {i : Nat} (hthen : clause.first .thenWord 1 = some i) (σ : Session) :
    ((Stmt.readClause clause).run (reply g block')).run.run σ =
      if (clause.extract 1 i).isEmpty then
        (.error (ChainCause.withoutCondition clause).problem, σ)
      else
        match (read g (clause.extract 1 i)).run.run σ with
        | (.ok (some (_, e)), τ) =>
          ((Stmt.requiredBody Stmt.conditionalOrigin (clause.drop (i + 1)) clause.tokens >>=
            fun body => pure (e, body)).run (reply g block')).run.run τ
        | (.ok none, τ) => (.error (ChainCause.unreadCondition (clause.extract 1 i)).problem, τ)
        | (.error p, τ) => (.error p, τ) := by
  rw [Stmt.readClause_eq, hthen]
  simp only
  rw [run_bind_query, run_bind, requiredOr_run]
  generalize (read g (clause.extract 1 i)).run.run σ = first
  split_ifs
  · rfl
  · obtain ⟨q | _ | ⟨rule, e⟩, τ⟩ := first <;> rfl

/-- A clause at fault fails with the problem of the fault. -/
theorem ClauseFails.run_eq (h : ClauseFails g σ clause cause τ) :
    ((Stmt.readClause clause).run (reply g block')).run.run σ = (.error cause.problem, τ) := by
  cases h with
  | withoutThen hthen =>
    rw [Stmt.readClause_eq, hthen]
    rfl
  | withoutCondition hthen hempty => rw [readClause_run hthen, if_pos hempty]
  | unreadCondition hthen hne hread =>
    rw [readClause_run hthen, hne, hread]
    rfl
  | insideCondition hthen hne hread =>
    rw [readClause_run hthen, hne, hread]
    rfl
  | body hthen hne hread hbody =>
    rw [readClause_run hthen, hne, hread]
    exact (run_then_eq_error fun body => ⟨_, rfl⟩).mpr (body_fails_iff.mpr ⟨_, hbody, rfl, rfl⟩)

/-- The condition is tried before the body, so a clause that fails is at fault in one of these
ways. -/
theorem exists_clauseFails
    (h : ((Stmt.readClause clause).run (reply g block')).run.run σ = (.error p, τ)) :
    ∃ cause, ClauseFails g σ clause cause τ ∧ cause.problem = p := by
  cases hthen : clause.first .thenWord 1 with
  | none =>
    rw [Stmt.readClause_eq, hthen] at h
    cases h
    exact ⟨_, .withoutThen hthen, rfl⟩
  | some i =>
    rw [readClause_run hthen] at h
    split at h
    · rename_i hempty
      cases h
      exact ⟨_, .withoutCondition hthen hempty, rfl⟩
    · rename_i hne
      rw [Bool.not_eq_true] at hne
      rcases hread : (read g (clause.extract 1 i)).run.run σ with ⟨q | _ | ⟨rule, e⟩, υ⟩ <;>
        rw [hread] at h
      · cases h
        exact ⟨_, .insideCondition hthen hne hread, rfl⟩
      · cases h
        exact ⟨_, .unreadCondition hthen hne hread, rfl⟩
      · have hfails := (run_then_eq_error fun body => ⟨_, rfl⟩).mp h
        obtain ⟨cause, hbody, hp, rfl⟩ := body_fails_iff.mp hfails
        exact ⟨cause, .body hthen hne hread hbody, hp⟩

/-- The first clause that fails ends the reading of the clauses behind the first. -/
theorem FurtherFails.run_eq {clauses : List Slice} (h : FurtherFails g σ clauses cause τ) :
    ((Stmt.readFurtherClauses clauses).run (reply g (block g))).run.run σ =
      (.error cause.problem, τ) := by
  induction h with
  | clause hlead h =>
    rw [Stmt.readFurtherClauses_cons, if_pos hlead, run_bind_query]
    exact run_bind_eq_error.mpr (.inl h.run_eq)
  | later hlead hreads _ ih =>
    obtain ⟨⟨c, body⟩, hreads⟩ := hreads
    rw [Stmt.readFurtherClauses_cons, if_pos hlead, run_bind_query]
    apply run_bind_eq_error.mpr
    exact .inr ⟨_, _, hreads, (run_then_eq_error fun further => ⟨_, rfl⟩).mpr ih⟩
  | last hlead hbody =>
    have hif := Sentence.startsWith_eq_false hlead .otherwiseIf (by decide)
    rw [Stmt.readFurtherClauses_cons, hif, hlead]
    exact (run_then_eq_error fun body => ⟨_, rfl⟩).mpr (body_fails_iff.mpr ⟨_, hbody, rfl, rfl⟩)
  | notLast hlead hrest =>
    have hif := Sentence.startsWith_eq_false hlead .otherwiseIf (by decide)
    rw [Stmt.readFurtherClauses_cons, hif, hlead, List.isEmpty_eq_false_iff.mpr hrest]
    rfl
  | otherLead hif hotherwise =>
    rw [Stmt.readFurtherClauses_cons, hif, hotherwise]
    rfl

/-- The clauses behind the first are read in turn, up to the first that fails. -/
theorem exists_furtherFails {clauses : List Slice}
    (h : ((Stmt.readFurtherClauses clauses).run (reply g (block g))).run.run σ =
      (.error p, τ)) :
    ∃ cause, FurtherFails g σ clauses cause τ ∧ cause.problem = p := by
  induction clauses generalizing σ with
  | nil => cases h
  | cons clause rest ih =>
    rw [Stmt.readFurtherClauses_cons] at h
    split_ifs at h with hif hotherwise hlast
    -- An `otherwise if` fails itself, or it is read and a clause behind it fails.
    · rw [run_bind_query, run_bind_eq_error] at h
      rcases h with h | ⟨r, υ, hreads, hrest⟩
      · obtain ⟨cause, hclause, hp⟩ := exists_clauseFails h
        exact ⟨cause, .clause hif hclause, hp⟩
      · have hlater := (run_then_eq_error fun further => ⟨_, rfl⟩).mp hrest
        obtain ⟨cause, hfails, hp⟩ := ih hlater
        exact ⟨cause, .later hif ⟨r, hreads⟩ hfails, hp⟩
    · obtain rfl := List.isEmpty_iff.mp hlast
      have hbody := (run_then_eq_error fun body => ⟨_, rfl⟩).mp h
      obtain ⟨cause, hfails, hp, rfl⟩ := body_fails_iff.mp hbody
      exact ⟨cause, .last hotherwise hfails, hp⟩
    · cases h
      exact ⟨_, .notLast hotherwise (fun hnil => hlast (List.isEmpty_iff.mpr hnil)), rfl⟩
    · rw [Bool.not_eq_true] at hif hotherwise
      cases h
      exact ⟨_, .otherLead hif hotherwise, rfl⟩

end clauses

section chain

variable {first : Slice} {more : List Slice}

/-- The blocks inside a conditional may be read without a bound. -/
theorem conditional_eq (chain : List Slice) :
    conditional g chain = (Stmt.readConditional chain).run (reply g (block g)) := by
  -- A conditional asks about blocks that are shorter than one of the slices of its chain.
  apply run_congr _ (Stmt.asks_readConditional chain)
  rintro q ⟨s, hs, hq⟩
  have hlength : s.length ≤ (chain.map (·.length)).foldr (· + ·) 0 :=
    List.le_sum_of_mem (List.mem_map_of_mem hs)
  apply reply_congr _ hq
  intro inner hinner
  have hshorter : inner.length < s.length := hinner.2
  exact (block_eq_blockWithin (by omega)).symm

/-- The clauses of a chain that begins with `if` begin with `if`. -/
theorem exists_clauses (hif : first.startsWith .ifWord = true) (more : List Slice) :
    ∃ c cs, (first :: more).flatMap Stmt.clauses = c :: cs ∧ c.startsWith .ifWord = true := by
  obtain ⟨c, cs, hclauses, hhead⟩ := Stmt.exists_clausesFrom_zero first (first.allOf .blockEnd)
  refine ⟨c, cs ++ more.flatMap Stmt.clauses, ?_, ?_⟩
  · rw [List.flatMap_cons, Stmt.clauses_eq_clausesFrom, hclauses]
    rfl
  · unfold Slice.startsWith at hif ⊢
    change c.tokens.head? = first.tokens.head? at hhead
    rw [hhead]
    exact hif

/-- A conditional fails for a cause, and with the problem of this cause. -/
theorem conditional_fails_iff (hif : first.startsWith .ifWord = true) :
    (conditional g (first :: more)).run.run σ = (.error p, τ) ↔
      ∃ cause, ChainFails g σ ((first :: more).flatMap Stmt.clauses) cause τ ∧
        cause.problem = p := by
  obtain ⟨c, cs, hclauses, hlead⟩ := exists_clauses hif more
  rw [conditional_eq, Stmt.readConditional_eq, hclauses]
  simp only [if_pos hlead]
  rw [run_bind_query, run_bind_eq_error]
  constructor
  · rintro (h | ⟨r, υ, hreads, h⟩)
    · obtain ⟨cause, hclause, hp⟩ := exists_clauseFails h
      exact ⟨cause, .first hclause, hp⟩
    · have hrest := (run_then_eq_error fun further => ⟨_, rfl⟩).mp h
      obtain ⟨cause, hfurther, hp⟩ := exists_furtherFails hrest
      exact ⟨cause, .further ⟨r, hreads⟩ hfurther, hp⟩
  · rintro ⟨cause, hfails, rfl⟩
    cases hfails with
    | first hclause => exact .inl hclause.run_eq
    | further hreads hfurther =>
      obtain ⟨⟨e, body⟩, hreads⟩ := hreads
      refine .inr ⟨(e, body), _, hreads, ?_⟩
      exact (run_then_eq_error fun further => ⟨_, rfl⟩).mpr hfurther.run_eq

/-- A conditional fails if and only if there is a cause: its first clause that cannot be read. If
the cause is the chain itself, the code of the problem is that of malformed chains, unless a body is
not there, which is a missing part. -/
theorem code_of_conditional (g : Grammar) (σ : Session) {first : Slice} {more : List Slice}
    (hif : first.startsWith .ifWord = true) :
    (∀ p τ, (conditional g (first :: more)).run.run σ = (.error p, τ) →
      ∃ cause, ChainFails g σ ((first :: more).flatMap Stmt.clauses) cause τ ∧
        cause.problem = p) ∧
    ∀ cause τ, ChainFails g σ ((first :: more).flatMap Stmt.clauses) cause τ →
      ∃ p, (conditional g (first :: more)).run.run σ = (.error p, τ) ∧ p = cause.problem ∧
        (cause.IsOfChain → (p.code = .malformedChain ↔ ¬cause.IsWithoutBody) ∧
          (cause.IsWithoutBody → p.code = .missingPart)) := by
  refine ⟨fun p τ h => (conditional_fails_iff hif).mp h, fun cause τ h => ?_⟩
  refine ⟨cause.problem, (conditional_fails_iff hif).mpr ⟨cause, h, rfl⟩, rfl, ?_⟩
  exact ChainCause.code_problem

def earlyOtherwise : Slice :=
  .ofSource "if $x then \x7b \x7d otherwise \x7b \x7d otherwise if $y then \x7b \x7d" "t"

/-- The first clause is read, and the second one is at fault. -/
theorem code_of_conditional_earlyOtherwise :
    earlyOtherwise.startsWith .ifWord = true ∧
      ∃ τ p, ChainFails .standard (.start {} 0) ([earlyOtherwise].flatMap Stmt.clauses)
          (.otherwiseNotLast (earlyOtherwise.extract 5 8)) τ ∧
        (conditional .standard [earlyOtherwise]).run.run (.start {} 0) = (.error p, τ) ∧
        p.code = .malformedChain := by
  have hif : earlyOtherwise.startsWith .ifWord = true := by decide +kernel
  have hclauses : [earlyOtherwise].flatMap Stmt.clauses =
      [earlyOtherwise.extract 0 5, earlyOtherwise.extract 5 8, earlyOtherwise.drop 8] := by
    decide +kernel
  obtain ⟨r, τ, hreads⟩ := exists_run_eq_ok (σ := .start {} 0)
    (x := (Stmt.readClause (earlyOtherwise.extract 0 5)).run (reply .standard (block .standard)))
    (by decide +kernel)
  have hlead : (earlyOtherwise.extract 5 8).startsWith .otherwise = true := by decide +kernel
  have hfails : ChainFails .standard (.start {} 0) ([earlyOtherwise].flatMap Stmt.clauses)
      (.otherwiseNotLast (earlyOtherwise.extract 5 8)) τ := by
    rw [hclauses]
    exact .further ⟨r, hreads⟩ (.notLast hlead (List.cons_ne_nil _ _))
  obtain ⟨p, hrun, -, hcode⟩ := (code_of_conditional .standard (.start {} 0) hif).2 _ _ hfails
  exact ⟨hif, τ, p, hfails, hrun, (hcode trivial).1.mpr id⟩

def emptyCheck : Slice :=
  .ofSource "if $x then ." "t"

/-- A body that is not there is a fault of the chain, but it has not the code of one. -/
theorem code_ne_malformedChain_emptyCheck :
    ChainCause.IsOfChain (.withoutBody emptyCheck) ∧
      ∃ τ p, ChainFails .standard (.start {} 0) ([emptyCheck].flatMap Stmt.clauses)
          (.withoutBody emptyCheck) τ ∧
        (conditional .standard [emptyCheck]).run.run (.start {} 0) = (.error p, τ) ∧
        p.code ≠ .malformedChain := by
  have hif : emptyCheck.startsWith .ifWord = true := by decide +kernel
  have hclauses : [emptyCheck].flatMap Stmt.clauses = [emptyCheck] := by decide +kernel
  have hthen : emptyCheck.first .thenWord 1 = some 2 := by decide +kernel
  have hne : (emptyCheck.extract 1 2).isEmpty = false := by decide +kernel
  obtain ⟨e, he⟩ := exists_eq_ok_some (r := ((read .standard (emptyCheck.extract 1 2)).run.run
    (.start {} 0)).1) (by decide +kernel)
  obtain ⟨τ, hread⟩ : ∃ τ, (read .standard (emptyCheck.extract 1 2)).run.run (.start {} 0) =
      (.ok (some e), τ) :=
    ⟨_, Prod.ext he rfl⟩
  have hempty : (emptyCheck.drop 3).withoutTerminator.isEmpty = true := by decide +kernel
  have hfails : ChainFails .standard (.start {} 0) ([emptyCheck].flatMap Stmt.clauses)
      (.withoutBody emptyCheck) τ := by
    rw [hclauses]
    exact .first (.body hthen hne hread (.withoutBody hempty))
  refine ⟨trivial, τ, _, hfails, (conditional_fails_iff hif).mpr ⟨_, hfails, rfl⟩, ?_⟩
  exact fun hcode => by cases hcode

end chain

end Parse
end Prose
