import Prose.Proofs.Expr.Composed
import Prose.Proofs.Session.Levels
import Prose.Proofs.Token.Regular

/-! The limit of nesting bounds how deep the cascade calls itself, and how high the expressions are that
it reads. A conditional that goes on with a further condition is not a level of its own: for these the
height of an expression goes beyond the limit. -/
namespace Prose

open Inquiry Session

namespace Grammar

variable (g : Grammar)

/-- Under a limit an expression is no higher than the levels that are left, but for the further
conditions in it. -/
theorem height_of_outcomeUnderWithin {limit n depth : Nat} {s : Slice} {rule : Expr.Rule} {e : Expr}
    (h : g.outcomeUnderWithin limit n depth s = .ok (some (rule, e))) :
    depth + e.height ≤ limit + e.chained := by
  induction n generalizing depth s rule e with
  | zero => cases h
  | succ n ih =>
    rw [outcomeUnderWithin] at h
    split at h
    · cases h
    split at h
    · cases h
    obtain ⟨before, after, -, -, hverdict⟩ := firstVerdict_eq_some_iff.mp h
    have hreaches := reaches_of_resolve (Expr.asks_form rule.form s) hverdict
    -- The parts are read one level deeper, so that there is one level less for them.
    have hparts : Reaches (Expr.Answers fun _ c => c.height ≤ limit - (depth + 1) + c.chained)
        (rule.form.read s) (some e) := by
      refine hreaches.mono ?_
      rintro q r ⟨-, hr⟩ rule' c rfl
      have hpart := ih hr
      omega
    have hheight := (Expr.composed_of_form rule.form hparts).height_le
    omega

end Grammar

namespace Parse

variable {g : Grammar}

/-- Answers that agree in some states give the same first reading there. -/
theorem firstReading_eq_of_keeps {I : Session → Prop} {s : Slice}
    {answer answer' : Slice → Parse Reading}
    (h : ∀ q : Slice, q.IsStrictPartOf s → ∀ σ, I σ →
      (answer q).run.run σ = (answer' q).run.run σ ∧ I ((answer q).run.run σ).2)
    (rules : List Expr.Rule) {σ : Session} (hσ : I σ) :
    (firstReading answer s rules).run.run σ = (firstReading answer' s rules).run.run σ := by
  induction rules generalizing σ with
  | nil => rfl
  | cons rule rules ih =>
    obtain ⟨hsame, hτ⟩ := run_eq_of_keeps h (Expr.asks_form rule.form s) hσ
    rw [firstReading, firstReading, run_bind, run_bind, ← hsame]
    generalize ((rule.form.read s).run answer).run.run σ = first at hτ
    obtain ⟨p | _ | e, τ⟩ := first
    · rfl
    · exact ih hτ
    · rfl

/-- The bound of the recursion is large enough for a slice: for all its tokens, or for all levels that
are left in the session. -/
def Suffices (n : Nat) (s : Slice) (σ : Session) : Prop :=
  s.length ≤ n ∨ σ.depth ≤ σ.options.maxNestingDepth ∧ σ.options.maxNestingDepth < σ.depth + n

/-- The cascade never calls itself more often than levels are left: from there on the bound of its
recursion makes no difference. -/
theorem readWithin_eq_of_suffices {n m : Nat} {s : Slice} {σ : Session} (hn : Suffices n s σ)
    (hm : Suffices m s σ) : (readWithin g n s).run.run σ = (readWithin g m s).run.run σ := by
  induction n generalizing m s σ with
  | zero =>
    have hempty : s.isEmpty = true := by
      rw [s.isEmpty_iff]
      rcases hn with hlength | ⟨hdepth, hlevels⟩
      · exact Nat.le_zero.mp hlength
      · omega
    rw [readWithin_empty hempty, readWithin_empty hempty]
  | succ n ih =>
    by_cases he : s.isEmpty = true
    · rw [readWithin_empty he, readWithin_empty he]
    cases m with
    | zero =>
      rw [s.isEmpty_iff] at he
      rcases hm with hlength | ⟨hdepth, hlevels⟩
      · exact absurd (Nat.le_zero.mp hlength) he
      · omega
    | succ m =>
      cases hfind : σ.memo.find? s with
      | some r => rw [readWithin_remembered he hfind, readWithin_remembered he hfind]
      | none =>
        by_cases hdeep : σ.options.maxNestingDepth ≤ σ.depth
        · rw [readWithin_tooDeep he hfind hdeep, readWithin_tooDeep he hfind hdeep]
        · rw [readWithin_forgotten he hfind, readWithin_forgotten he hfind, run_bind, run_bind,
            nested_run, nested_run, if_neg hdeep, if_neg hdeep]
          -- Both bounds suffice for the parts, which are shorter and stand one level deeper.
          have hpart {k : Nat} (hk : Suffices (k + 1) s σ) {q : Slice} (hq : q.IsStrictPartOf s)
              {τ : Session} (hτ : ({ σ with depth := σ.depth + 1 } : Session).Extends τ) :
              Suffices k q τ := by
            have hlength : q.length < s.length := hq.2
            have hoptions : τ.options = σ.options := hτ.options
            have hdepth : τ.depth = σ.depth + 1 := hτ.depth
            unfold Suffices at hk ⊢
            rw [hoptions, hdepth]
            omega
          have hfirst : (firstReading (readWithin g n) s g.expressions).run.run
                { σ with depth := σ.depth + 1 } =
              (firstReading (readWithin g m) s g.expressions).run.run
                { σ with depth := σ.depth + 1 } := by
            apply firstReading_eq_of_keeps
              (I := fun τ => ({ σ with depth := σ.depth + 1 } : Session).Extends τ)
            · intro q hq τ hτ
              exact ⟨ih (hpart hn hq hτ) (hpart hm hq hτ),
                hτ.trans ((needsAtMost_readWithin n q).keeps τ)⟩
            · exact .refl _
          rw [hfirst]

/-- In a new session the cascade calls itself at most once more than the limit says, however long the
tokens are. An expression that it reads is no higher than the limit, but for the conditionals on one
path that stand for what holds otherwise in another; unless the cascade that remembers nothing runs
into the limit, and the session was spared this by a reading it had made less deep. -/
theorem height_of_read (g : Grammar) (o : Options) (observers : Nat) (s : Slice) :
    (∀ n, o.maxNestingDepth < n →
      (readWithin g n s).run.run (.start o observers) = (read g s).run.run (.start o observers)) ∧
    ∀ rule e, ((read g s).run.run (.start o observers)).1 = .ok (some (rule, e)) →
      e.height ≤ o.maxNestingDepth + e.chained ∨
        FailsWith (TooDeep o.maxNestingDepth) (g.outcomeUnder o.maxNestingDepth 0 s) := by
  constructor
  · intro n hn
    have hlevels : Suffices n s (.start o observers) := .inr ⟨Nat.zero_le _, by
      show o.maxNestingDepth < 0 + n
      omega⟩
    exact readWithin_eq_of_suffices hlevels (.inl (Nat.le_refl s.length))
  · intro rule e hread
    by_cases hdeep : FailsWith (TooDeep o.maxNestingDepth) (g.outcomeUnder o.maxNestingDepth 0 s)
    · exact .inr hdeep
    · have hsame := read_eq_outcomeUnder (.refl s) (recalls_start g s o observers) hdeep
      have houtcome : g.outcomeUnder o.maxNestingDepth 0 s = .ok (some (rule, e)) :=
        hsame.symm.trans hread
      have hheight := g.height_of_outcomeUnderWithin houtcome
      exact .inl (by omega)

def chainedCheck : Slice :=
  .ofSource "if $a then $b otherwise if $a then $b otherwise $c" "t"

def twoLevels : Options :=
  { maxNestingDepth := 2 }

/-- The cascade calls itself three times at most, and the conditional is three nodes high. -/
theorem height_of_read_chainedCheck :
    twoLevels.maxNestingDepth < 3 ∧
      (readWithin .standard 3 chainedCheck).run.run (.start twoLevels 0) =
        (read .standard chainedCheck).run.run (.start twoLevels 0) ∧
      ∃ rule e, ((read .standard chainedCheck).run.run (.start twoLevels 0)).1 =
          .ok (some (rule, e)) ∧
        e.height ≤ twoLevels.maxNestingDepth + e.chained := by
  have hlimit : twoLevels.maxNestingDepth < 3 := by decide
  obtain ⟨hrecursion, hheight⟩ := height_of_read .standard twoLevels 0 chainedCheck
  have hsome : (((read .standard chainedCheck).run.run (.start twoLevels 0)).1.toOption.join).isSome =
      true := by
    decide +kernel
  have hunder : ((Grammar.standard.outcomeUnder 2 0 chainedCheck).toOption).isSome = true := by
    decide +kernel
  match hread : ((read .standard chainedCheck).run.run (.start twoLevels 0)).1 with
  | .ok (some (rule, e)) =>
    refine ⟨hlimit, hrecursion 3 hlimit, rule, e, rfl, ?_⟩
    apply (hheight rule e hread).resolve_right
    rintro ⟨p, -, hp⟩
    have hfails : Grammar.standard.outcomeUnder 2 0 chainedCheck = .error p := hp
    rw [hfails] at hunder
    cases hunder
  | .ok none =>
    rw [hread] at hsome
    cases hsome
  | .error p =>
    rw [hread] at hsome
    cases hsome

/-- Two levels are enough for a conditional that is three nodes high: the further condition is read on
the level of the first one. -/
theorem lt_height_chainedCheck :
    ∃ rule e, ((read .standard chainedCheck).run.run (.start twoLevels 0)).1 =
        .ok (some (rule, e)) ∧
      twoLevels.maxNestingDepth < e.height := by
  have hheight : (((read .standard chainedCheck).run.run (.start twoLevels 0)).1.toOption.join).map
      (fun r => r.2.height) = some 3 := by
    decide +kernel
  match hread : ((read .standard chainedCheck).run.run (.start twoLevels 0)).1 with
  | .ok (some (rule, e)) =>
    rw [hread] at hheight
    have hthree : e.height = 3 := Option.some.inj hheight
    refine ⟨rule, e, rfl, ?_⟩
    rw [hthree]
    decide
  | .ok none =>
    rw [hread] at hheight
    cases hheight
  | .error p =>
    rw [hread] at hheight
    cases hheight

end Parse

end Prose
