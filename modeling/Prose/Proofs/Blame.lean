import Prose.Proofs.Block.Blame
import Prose.Proofs.Condense
import Prose.Proofs.Program

/-! Every problem of a parse points at tokens: at the tokens of the unit in which it arose, and where
condensing fails at those of the number that cannot be read. -/
namespace Prose

open Slice

namespace Number

namespace Spelled

variable {run ts : List Token} {p q : Progress} {problem : Problem} {k : Nat}

/-- A fault costs the tokens up to the one that is wrong. -/
theorem exists_take_of_read (h : read run p k ts = .error (.problem problem)) :
    ∃ n, problem.tokens = run.take (n + 1) := by
  induction ts generalizing p k with
  | nil => cases h
  | cons t ts ih =>
    rw [read] at h
    cases hstep : step p t ts.head? with
    | stop =>
      rw [hstep] at h
      cases h
    | next p' =>
      rw [hstep] at h
      exact ih h
    | fault f =>
      rw [hstep] at h
      cases h
      exact ⟨k, rfl⟩
    | placesExhausted =>
      rw [hstep] at h
      cases h

/-- A number that is too large as a whole costs all its tokens. -/
theorem exists_take_of_token {negative : Bool} {place : Position}
    (hk : 0 < k ∨ ∃ u us, run = u :: us ∧ u.keyword = .numberWord)
    (h : token negative run k place = .error (.problem problem)) :
    ∃ n, problem.tokens = run.take (n + 1) := by
  rw [token] at h
  cases hread : read run .start k (run.drop k) with
  | error e =>
    rw [hread] at h
    cases h
    exact exists_take_of_read hread
  | ok r =>
    obtain ⟨progress, taken⟩ := r
    rw [hread] at h
    simp only [bind, Except.bind] at h
    cases hvalue : progress.value? with
    | some m =>
      rw [hvalue] at h
      cases h
    | none =>
      rw [hvalue] at h
      cases h
      have hpos := pos_of_read hk hread
      exact ⟨taken - 1, by rw [Nat.sub_add_cancel hpos]⟩

end Spelled

/-- The problem of a number points at the first tokens of it. -/
theorem exists_take_of_spelled? {t : Token} {ts : List Token} {p : Problem}
    (h : spelled? (t :: ts) = .error (.problem p)) : ∃ n, p.tokens = (t :: ts).take (n + 1) := by
  rw [spelled?.eq_def] at h
  simp only at h
  split at h
  · split at h
    · cases h
    · split at h
      · cases h
      · split at h
        · exact Spelled.exists_take_of_token (.inl Nat.one_pos) (map_some_eq_error_iff.mp h)
        · cases h
  · split at h
    · rename_i hword
      exact Spelled.exists_take_of_token (.inr ⟨t, ts, rfl, hword⟩) (map_some_eq_error_iff.mp h)
    · cases h

end Number

namespace Condense

variable {ts : List Token} {p : Problem}

/-- Only a number can be wrong with a group. -/
theorem spelled?_of_group {t : Token} (h : group t ts = .error (.problem p)) :
    Number.spelled? (t :: ts) = .error (.problem p) := by
  rw [group] at h
  cases hnumber : Number.spelled? (t :: ts) with
  | error e =>
    rw [hnumber] at h
    cases h
    rfl
  | ok r =>
    rw [hnumber] at h
    simp only [bind, Except.bind] at h
    split at h
    · cases h
    · split at h
      · cases h
      · split at h
        · cases h
        · cases h

theorem cites_of_groups {n : Nat} (h : groups n ts = .error (.problem p)) :
    (ofTokens ts).Cites p.tokens := by
  induction n generalizing ts with
  | zero => cases h
  | succ n ih =>
    cases ts with
    | nil => cases h
    | cons t ts =>
      rw [groups] at h
      cases hgroup : group t ts with
      | error e =>
        rw [hgroup] at h
        cases h
        -- Only a number can fail, and it shows the first tokens of its run.
        obtain ⟨k, hk⟩ := Number.exists_take_of_spelled? (spelled?_of_group hgroup)
        rw [hk]
        exact ⟨by simp, (List.take_prefix ..).isInfix⟩
      | ok r =>
        obtain ⟨u, taken⟩ := r
        rw [hgroup] at h
        simp only [bind, Except.bind] at h
        cases hrest : groups n ((t :: ts).drop taken) with
        | error e =>
          rw [hrest] at h
          cases h
          obtain ⟨hne, hinfix⟩ := ih hrest
          exact ⟨hne, hinfix.trans (List.drop_suffix ..).isInfix⟩
        | ok us =>
          rw [hrest] at h
          cases h

end Condense

namespace Parser

/-- The tokens that the problems of a parse point at: the condensed ones, or the given ones if they
cannot be condensed. -/
def shown (tokens : List Token) : Slice :=
  .ofTokens ((condense tokens).toOption.getD tokens)

/-- The problems of a parse without condensed tokens, and those of a block of all of them. -/
theorem cites_of_parse {p : Parser} {tokens : List Token} {r : Parsed}
    (h : p.parse tokens = some r) : ∀ e ∈ r.errors, (shown tokens).Cites e.tokens := by
  unfold parse at h
  match hcondensed : condense tokens with
  | .error (.problem q) =>
    rw [hcondensed] at h
    cases h
    intro e he
    rw [List.mem_singleton.mp he, shown, hcondensed]
    exact Condense.cites_of_groups hcondensed
  | .error .placesExhausted =>
    rw [hcondensed] at h
    cases h
  | .ok condensed =>
    rw [hcondensed] at h
    cases h
    obtain ⟨message, -, herrors⟩ := exists_of_program tokens.length condensed p.session
    have hreports := Parse.reports_blockWithin (g := .standard) (ofTokens condensed).length
      (ofTokens condensed) (p.session.log .debug message)
    intro e he
    rw [shown, hcondensed]
    refine hreports.forall_of_eq ?_ e he
    exact congrArg Array.toList herrors.symm

theorem isSome_position?_of_cites {s : Slice} {e : Problem} (h : s.Cites e.tokens) :
    e.position?.isSome = true := by
  obtain ⟨t, ts, ht⟩ := List.exists_cons_of_ne_nil h.1
  rw [Problem.position?, ht]
  rfl

open Parse in
/-- Every problem points at tokens that are there. In a parse it has a place, and its tokens are one or
more neighbours among the condensed tokens, or among the given ones if they cannot be condensed. In a
block the problems are those of its units, and the tokens of each are neighbours in a slice of the unit
in which it arose. -/
theorem cites_of_problems :
    (∀ (p : Parser) (tokens : List Token), ∀ r ∈ p.parse tokens, ∀ e ∈ r.errors,
      e.position?.isSome = true ∧ (shown tokens).Cites e.tokens) ∧
    ∀ (g : Grammar) (s : Slice) (σ : Session), ∃ units outcomes,
      (∀ xs, Sentence.Units (Segment.divide σ.options.requireTerminators s).segments xs ↔
        xs = units) ∧
      List.Forall₂ (Yields g σ.options σ.depth) units outcomes ∧
      ((block g s).run σ).2.errors.toList =
        σ.errors.toList ++ outcomes.flatMap Outcome.problems ∧
      ∀ x ∈ units, (∀ part ∈ x.slices, part.IsPartOf s) ∧
        ∀ o, Yields g σ.options σ.depth x o → ∀ e ∈ o.problems, CitedBy x.slices e.tokens := by
  constructor
  · intro p tokens r hr e he
    have hcited := cites_of_parse hr e he
    exact ⟨isSome_position?_of_cites hcited, hcited⟩
  · intro g s σ
    obtain ⟨outcomes, hall, -, hproblems⟩ := outcomes_of_block g s σ
    refine ⟨_, outcomes, units_iff_eq_ofBlock _ s, hall, hproblems, fun x hx => ⟨?_, ?_⟩⟩
    · exact fun part hpart => Sentence.isPartOf_of_mem_ofBlock hx hpart
    · exact fun o ho => ho.cites (Sentence.isFilled_of_mem_ofBlock hx)

open Parse in
theorem exists_of_mem_outcomes {g : Grammar} {options : Options} {depth : Nat} {xs : List Sentence}
    {outcomes : List Outcome} {o : Outcome} (h : List.Forall₂ (Yields g options depth) xs outcomes)
    (ho : o ∈ outcomes) : ∃ x ∈ xs, Yields g options depth x o := by
  induction h with
  | nil => cases ho
  | @cons x _ _ _ hyields _ ih =>
    rcases List.mem_cons.mp ho with rfl | hlater
    · exact ⟨x, List.mem_cons_self .., hyields⟩
    · obtain ⟨y, hy, hyields'⟩ := ih hlater
      exact ⟨y, List.mem_cons_of_mem x hy, hyields'⟩

def faultyLoop : List Token :=
  (tokenize "while $a do \x7b $b $c . set 5 equal to 6 . \x7d ) print 1 ." "t").toOption.getD []

def faultyNumber : List Token :=
  (tokenize "print two hundred point one hundred ." "t").toOption.getD []

open Parse in
/-- The loop has three problems and the number one. A unit of the loop has problems that point into
it. -/
theorem cites_of_problems_faultyLoop :
    (∃ r ∈ ({} : Parser).parse faultyLoop, r.errors.length = 3 ∧ ∀ e ∈ r.errors,
      e.position?.isSome = true ∧ (shown faultyLoop).Cites e.tokens) ∧
    (∃ r ∈ ({} : Parser).parse faultyNumber, r.errors.length = 1 ∧ ∀ e ∈ r.errors,
      e.position?.isSome = true ∧ (shown faultyNumber).Cites e.tokens) ∧
    ∃ x o, Yields .standard {} 0 x o ∧ o.problems ≠ [] ∧
      ∀ e ∈ o.problems, CitedBy x.slices e.tokens := by
  obtain ⟨hparse, hblock⟩ := cites_of_problems
  have hloop : ∃ r ∈ ({} : Parser).parse faultyLoop, r.errors.length = 3 := by decide +kernel
  have hnumber : ∃ r ∈ ({} : Parser).parse faultyNumber, r.errors.length = 1 := by decide +kernel
  obtain ⟨r, hr, hlength⟩ := hloop
  obtain ⟨r', hr', hlength'⟩ := hnumber
  refine ⟨⟨r, hr, hlength, hparse _ _ r hr⟩, ⟨r', hr', hlength', hparse _ _ r' hr'⟩, ?_⟩
  obtain ⟨units, outcomes, -, hall, hproblems, hunits⟩ :=
    hblock .standard (shown faultyLoop) (.start {} 0)
  have herrors : 0 < ((block .standard (shown faultyLoop)).run (.start {} 0)).2.errors.toList.length := by
    decide +kernel
  rw [hproblems] at herrors
  obtain ⟨e, he⟩ := List.exists_mem_of_length_pos herrors
  obtain ⟨o, ho, he⟩ := List.mem_flatMap.mp he
  obtain ⟨x, hx, hyields⟩ := exists_of_mem_outcomes hall ho
  exact ⟨x, o, hyields, List.ne_nil_of_mem he, (hunits x hx).2 o hyields⟩

end Parser

end Prose
