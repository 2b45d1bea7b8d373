import Prose.Proofs.Expr.Recall

namespace Prose

def TooDeep (limit : Nat) (p : Problem) : Prop :=
  ∃ origin tokens, p = Parse.tooDeep limit origin tokens

namespace Grammar

def outcomeUnderWithin (g : Grammar) (limit : Nat) : Nat → Nat → Slice → Except Problem Reading
  | 0, _, _ => .ok none
  | n + 1, depth, s =>
    if s.isEmpty then .ok none
    else if limit ≤ depth then .error (Parse.tooDeep limit "parse_expression" s.tokens)
    else
      firstVerdict (fun f => (f.read s).resolve (g.outcomeUnderWithin limit n (depth + 1)))
        g.expressions

/-- The outcome of the cascade on a slice at a depth of nesting under a limit. -/
def outcomeUnder (g : Grammar) (limit depth : Nat) (s : Slice) : Except Problem Reading :=
  g.outcomeUnderWithin limit s.length depth s

end Grammar

open Inquiry

/-- Where verdicts differ by problems of `E` only, so do the first verdicts. -/
theorem firstVerdict_eq_or {E : Problem → Prop}
    {verdict verdict' : Expr.Form → Except Problem (Option Expr)}
    (h : ∀ f, verdict' f = verdict f ∨ FailsWith E (verdict' f)) (rules : List Expr.Rule) :
    firstVerdict verdict' rules = firstVerdict verdict rules ∨
      FailsWith E (firstVerdict verdict' rules) := by
  induction rules with
  | nil => exact .inl rfl
  | cons rule rules ih =>
    rw [firstVerdict_cons, firstVerdict_cons]
    refine bind_eq_or (h rule.form) fun r => ?_
    cases r with
    | none => exact ih
    | some e => exact .inl rfl

/-- Under a limit the cascade comes to its outcome or runs into the limit. -/
theorem Grammar.outcomeUnderWithin_eq_or (g : Grammar) (limit : Nat) {n depth : Nat} {s : Slice}
    (hn : s.length ≤ n) :
    g.outcomeUnderWithin limit n depth s = g.outcome s ∨
      FailsWith (TooDeep limit) (g.outcomeUnderWithin limit n depth s) := by
  induction n generalizing depth s with
  | zero =>
    have he : s.isEmpty = true := s.isEmpty_iff.mpr (Nat.le_zero.mp hn)
    exact .inl (g.outcome_of_isEmpty he).symm
  | succ n ih =>
    simp only [outcomeUnderWithin]
    split
    · rename_i he
      exact .inl (g.outcome_of_isEmpty he).symm
    rename_i he
    split
    · exact .inr ⟨_, ⟨_, _, rfl⟩, rfl⟩
    · rw [g.outcome_eq_firstVerdict (s.length_pos_of_not_isEmpty he)]
      refine firstVerdict_eq_or (fun f => ?_) _
      refine resolve_eq_or (fun q hq => ih ?_) (Expr.asks_form f s)
      have hlt : q.length < s.length := hq.2
      omega

namespace Parse

open Session

variable {g : Grammar} {stream : Slice}

/-- Trying the rules in a session comes to the first verdict, or runs into the limit where the
verdicts under the limit do so, too. -/
theorem firstReading_run_or {I : Session → Prop} {E : Problem → Prop}
    (answer : Slice → Parse Reading) (reply reply' : Slice → Except Problem Reading) {s : Slice}
    (h : ∀ q : Slice, q.IsStrictPartOf s → ∀ σ, I σ → I ((answer q).run.run σ).2 ∧
      (((answer q).run.run σ).1 = reply q ∨
        FailsWith E ((answer q).run.run σ).1 ∧ FailsWith E (reply' q)))
    (h' : ∀ q : Slice, q.IsStrictPartOf s → reply' q = reply q ∨ FailsWith E (reply' q))
    (rules : List Expr.Rule) {σ : Session} (hσ : I σ) :
    ((firstReading answer s rules).run.run σ).1 =
        firstVerdict (fun f => (f.read s).resolve reply) rules ∨
      FailsWith E ((firstReading answer s rules).run.run σ).1 ∧
        FailsWith E (firstVerdict (fun f => (f.read s).resolve reply') rules) := by
  induction rules generalizing σ with
  | nil => exact .inl rfl
  | cons rule rules ih =>
    obtain ⟨hτ, hform⟩ := run_resolve_or answer reply reply' h h' (Expr.asks_form rule.form s) hσ
    have hverdict := resolve_eq_or h' (Expr.asks_form rule.form s)
    rw [firstReading, firstVerdict_cons, firstVerdict_cons]
    refine run_bind_or hform hverdict fun r τ hrun => ?_
    rw [hrun] at hτ
    cases r with
    | none => exact ih hτ
    | some e => exact .inl rfl

/-- In a session a slice is read as the cascade reads it. Only where the cascade that remembers
nothing runs into the limit at the depth of the session, the session may run into it, too. -/
theorem readWithin_run_or {n : Nat} {s : Slice} (hn : s.length ≤ n) (hs : s.IsPartOf stream)
    {σ : Session} (hσ : σ.Recalls g stream) :
    ((readWithin g n s).run.run σ).1 = g.outcome s ∨
      FailsWith (TooDeep σ.options.maxNestingDepth) ((readWithin g n s).run.run σ).1 ∧
        FailsWith (TooDeep σ.options.maxNestingDepth)
          (g.outcomeUnderWithin σ.options.maxNestingDepth n σ.depth s) := by
  induction n generalizing s σ with
  | zero =>
    have he : s.isEmpty = true := s.isEmpty_iff.mpr (Nat.le_zero.mp hn)
    exact .inl (g.outcome_of_isEmpty he).symm
  | succ n ih =>
    -- One level deeper every part is read so, by induction; its state matters only by its depth.
    have hrules := firstReading_run_or
      (I := fun τ => τ.Recalls g stream ∧ ({ σ with depth := σ.depth + 1 } : Session).Alike τ)
      (E := TooDeep σ.options.maxNestingDepth)
      (readWithin g n) g.outcome
      (g.outcomeUnderWithin σ.options.maxNestingDepth n (σ.depth + 1))
      (fun q hq τ hτ => by
        have hlt : q.length < s.length := hq.2
        have hpart := hq.1.trans hs
        obtain ⟨r, υ, hrun, ⟨hυ, halike⟩, -⟩ :=
          readWithin_run (n := n) (by omega) hpart hτ.1
        have hread := ih (by omega) hpart hτ.1
        have hoptions : τ.options = σ.options := hτ.2.options
        have hdepth : τ.depth = σ.depth + 1 := hτ.2.depth
        rw [hoptions, hdepth] at hread
        refine ⟨?_, hread⟩
        rw [hrun]
        exact ⟨hυ, hτ.2.trans halike⟩)
      (fun q hq => g.outcomeUnderWithin_eq_or _ (by have hlt : q.length < s.length := hq.2; omega))
      g.expressions (σ := { σ with depth := σ.depth + 1 }) ⟨hσ, .refl _⟩
    have hverdict (he : ¬s.isEmpty = true) :
        firstVerdict (fun f => (f.read s).resolve g.outcome) g.expressions = g.outcome s :=
      (g.outcome_eq_firstVerdict (s.length_pos_of_not_isEmpty he)).symm
    have hstep := readStep g n s σ
    generalize (readWithin g (n + 1) s).run.run σ = out at hstep ⊢
    cases hstep with
    | empty he => exact .inl (g.outcome_of_isEmpty he).symm
    | remembered _ hfind => exact .inl (hσ s hs _ hfind).symm
    | tooDeep he _ hdeep =>
      rw [Grammar.outcomeUnderWithin, if_neg he, if_pos hdeep]
      exact .inr ⟨⟨_, ⟨_, _, rfl⟩, rfl⟩, ⟨_, ⟨_, _, rfl⟩, rfl⟩⟩
    | failed he _ hdeep hfirst | completed he _ hdeep hfirst =>
      -- What is remembered behind the rules changes the state only.
      rw [hfirst, hverdict he] at hrules
      rw [Grammar.outcomeUnderWithin, if_neg he, if_neg hdeep]
      exact hrules

/-- Where the cascade that remembers nothing does not run into the limit, a session reads the slice
as that cascade does, whatever it has read before. -/
theorem read_eq_outcomeUnder {s : Slice} (hs : s.IsPartOf stream) {σ : Session}
    (hσ : σ.Recalls g stream)
    (h : ¬ FailsWith (TooDeep σ.options.maxNestingDepth)
      (g.outcomeUnder σ.options.maxNestingDepth σ.depth s)) :
    ((read g s).run.run σ).1 = g.outcomeUnder σ.options.maxNestingDepth σ.depth s := by
  have houtcome := (g.outcomeUnderWithin_eq_or _ (Nat.le_refl s.length)).resolve_right h
  have hread := (readWithin_run_or (Nat.le_refl s.length) hs hσ).resolve_right fun hdeep => h hdeep.2
  exact hread.trans houtcome.symm

end Parse

end Prose
