import Prose.Proofs.Session.Raised
import Prose.Proofs.Session.Room

namespace Prose

open Inquiry

def Session.HasRoom (σ : Session) (n : Nat) : Prop :=
  σ.depth + n ≤ σ.options.maxNestingDepth

namespace Session

variable {σ τ : Session} {n m : Nat}

theorem HasRoom.mono (h : σ.HasRoom m) (hnm : n ≤ m) : σ.HasRoom n :=
  Nat.le_trans (Nat.add_le_add_left hnm σ.depth) h

theorem HasRoom.of_extends (h : σ.HasRoom n) (hτ : σ.Extends τ) : τ.HasRoom n := by
  unfold HasRoom
  rw [hτ.options, hτ.depth]
  exact h

theorem HasRoom.deeper (h : σ.HasRoom (n + 1)) :
    ({ σ with depth := σ.depth + 1 } : Session).HasRoom n := by
  change σ.depth + 1 + n ≤ σ.options.maxNestingDepth
  rw [Nat.add_right_comm]
  exact h

theorem HasRoom.depth_lt (h : σ.HasRoom (n + 1)) : σ.depth < σ.options.maxNestingDepth :=
  Nat.lt_of_lt_of_le (Nat.lt_add_of_pos_right n.succ_pos) h

end Session

namespace Parse

open Session

/-- Where `n` levels are left, nothing in the step is too deep: it neither reports such a problem nor
fails with one. What it does does not depend on how many levels are left beyond these. -/
structure NeedsAtMost (n : Nat) {α : Type} (x : Parse α) : Prop extends Indifferent n x where
  enough : ∀ σ : Session, σ.HasRoom n →
    σ.Reports (·.code ≠ .nestingLimit) (x.run.run σ).2 ∧
      ∀ p, (x.run.run σ).1 = .error p → p.code ≠ .nestingLimit

namespace NeedsAtMost

variable {α β : Type} {n m : Nat}

theorem mono {x : Parse α} (h : NeedsAtMost n x) (hnm : n ≤ m) : NeedsAtMost m x :=
  ⟨h.toIndifferent.mono hnm, fun σ hroom => h.enough σ (hroom.mono hnm)⟩

theorem not_failsWith {x : Parse α} (h : NeedsAtMost n x) {σ : Session} (hroom : σ.HasRoom n) :
    ¬FailsWith (·.code = .nestingLimit) (x.run.run σ).1 :=
  fun ⟨p, hcode, hp⟩ => (h.enough σ hroom).2 p hp hcode

theorem pure (n : Nat) (a : α) : NeedsAtMost n (Pure.pure a : Parse α) :=
  ⟨.pure n a, fun _ _ => ⟨reports_of_errors_eq rfl, fun p hp => by cases hp⟩⟩

theorem throw (n : Nat) {p : Problem} (hp : p.code ≠ .nestingLimit) :
    NeedsAtMost n (throw p : Parse α) := by
  refine ⟨.throw n p, fun _ _ => ⟨reports_of_errors_eq rfl, fun q hq => ?_⟩⟩
  cases hq
  exact hp

theorem bind {x : Parse α} {f : α → Parse β} (hx : NeedsAtMost n x)
    (hf : ∀ a, NeedsAtMost n (f a)) : NeedsAtMost n (x >>= f) := by
  refine ⟨hx.toIndifferent.bind fun a => (hf a).toIndifferent, fun σ hroom => ?_⟩
  have hkeeps := hx.keeps σ
  obtain ⟨hreports, hfails⟩ := hx.enough σ hroom
  rw [run_bind]
  generalize x.run.run σ = first at hkeeps hreports hfails
  obtain ⟨p | a, τ⟩ := first
  · refine ⟨hreports, fun q hq => ?_⟩
    cases hq
    exact hfails p rfl
  -- The second step starts at the same depth, under the same limit.
  · obtain ⟨hlater, hfails⟩ := (hf a).enough τ (hroom.of_extends hkeeps)
    exact ⟨hreports.trans hlater, hfails⟩

/-- A step that reports the problem of another one, and goes on without it. -/
theorem recover {x : Parse α} {f : α → Parse β} {rest y : Parse β} (hx : NeedsAtMost n x)
    (hf : ∀ a, NeedsAtMost n (f a)) (hrest : NeedsAtMost n rest)
    (hy : ∀ σ, y.run.run σ =
      match x.run.run σ with
      | (.ok a, τ) => (f a).run.run τ
      | (.error p, τ) => rest.run.run (τ.report p)) :
    NeedsAtMost n y := by
  refine ⟨hx.toIndifferent.recover (fun a => (hf a).toIndifferent) hrest.toIndifferent hy,
    fun σ hroom => ?_⟩
  have hkeeps := hx.keeps σ
  obtain ⟨hreports, hfails⟩ := hx.enough σ hroom
  rw [hy]
  generalize x.run.run σ = first at hkeeps hreports hfails
  obtain ⟨p | a, τ⟩ := first
  · have hreported := hreports.trans (reports_report τ (hfails p rfl))
    have hroom' := hroom.of_extends (hkeeps.trans (extends_report τ p))
    obtain ⟨hlater, hfails⟩ := hrest.enough (τ.report p) hroom'
    exact ⟨hreported.trans hlater, hfails⟩
  · obtain ⟨hlater, hfails⟩ := (hf a).enough τ (hroom.of_extends hkeeps)
    exact ⟨hreports.trans hlater, hfails⟩

theorem modify {f : Session → Session} (hkeeps : ∀ σ : Session, σ.Extends (f σ))
    (hsame : ∀ (σ : Session) (limit depth : Nat),
      f (σ.under limit depth) = (f σ).under limit depth)
    (herrors : ∀ σ : Session, (f σ).errors = σ.errors) :
    NeedsAtMost n (MonadStateOf.modifyGet fun σ => ((), f σ) : Parse Unit) :=
  ⟨.modify hkeeps hsame,
    fun σ _ => ⟨reports_of_errors_eq (herrors σ), fun p hp => by cases hp⟩⟩

/-- A step may look at everything in its session but the limit and the depth. -/
theorem of_session {x : Parse β} {f : Session → Parse β} (hf : ∀ σ : Session, NeedsAtMost n (f σ))
    (hsame : ∀ (σ : Session) (limit depth : Nat), f (σ.under limit depth) = f σ)
    (hx : ∀ σ : Session, x.run.run σ = (f σ).run.run σ) : NeedsAtMost n x := by
  refine ⟨.of_session (fun σ => (hf σ).toIndifferent) hsame hx, fun σ hroom => ?_⟩
  rw [hx]
  exact (hf σ).enough σ hroom

theorem get_bind {f : Session → Parse β} (hf : ∀ σ : Session, NeedsAtMost n (f σ))
    (hsame : ∀ (σ : Session) (limit depth : Nat), f (σ.under limit depth) = f σ) :
    NeedsAtMost n (get >>= f : Parse β) :=
  of_session hf hsame fun _ => rfl

/-- One level deeper there is one level less. -/
theorem nested (origin : String) (tokens : List Token) {x : Parse α} (h : NeedsAtMost n x) :
    NeedsAtMost (n + 1) (nested origin tokens x) := by
  refine ⟨h.toIndifferent.nested origin tokens, fun σ hroom => ?_⟩
  rw [nested_run, if_neg (Nat.not_le_of_lt hroom.depth_lt)]
  exact h.enough { σ with depth := σ.depth + 1 } hroom.deeper

/-- An inquiry that has no problem of nesting by itself needs the levels that the answers to what it
asks need. -/
theorem run {Q : Type} {R : Q → Type} {P : Q → Prop} {answer : (q : Q) → Parse (R q)}
    (h : ∀ q, P q → NeedsAtMost n (answer q)) {x : Inquiry Q R α}
    (hx : Blames P (·.code ≠ .nestingLimit) x) : NeedsAtMost n (x.run answer) := by
  induction hx with
  | done a => exact .pure n a
  | fail hp => exact .throw n hp
  | ask hq _ ih => exact .bind (h _ hq) ih

end NeedsAtMost

section readings

variable {g : Grammar}

theorem needsAtMost_firstReading {n : Nat} {s : Slice} {answer : Slice → Parse Reading}
    (hs : 0 < s.length) (h : ∀ q : Slice, q.IsStrictPartOf s → NeedsAtMost n (answer q))
    (rules : List Expr.Rule) : NeedsAtMost n (firstReading answer s rules) := by
  induction rules with
  | nil => exact .pure n _
  | cons rule rules ih =>
    have hform := ((Expr.pointsInto_form s hs rule.form).of_asks (Expr.asks_form rule.form s)).mono
      (fun _ hq => hq.2) fun _ hp => hp.code
    apply NeedsAtMost.bind (.run h hform)
    intro r
    cases r with
    | none => exact ih
    | some e =>
      apply NeedsAtMost.bind
      · exact .modify (fun σ => extends_record σ _) (fun _ _ _ => rfl) fun _ => rfl
      · intro _
        exact .pure n _

/-- The measure of the recursion is the length of the slice: each reading takes one level and asks
about shorter slices. -/
theorem needsAtMost_readWithin (k : Nat) (s : Slice) : NeedsAtMost s.length (readWithin g k s) := by
  induction k generalizing s with
  | zero => exact .pure _ _
  | succ k ih =>
    rw [readWithin]
    split
    · exact .pure _ _
    · rename_i he
      have hs : 0 < s.length := s.length_pos_of_not_isEmpty he
      -- One level is for the cascade itself, so that one less is left for the parts.
      have hparts (q : Slice) (hq : q.IsStrictPartOf s) :
          NeedsAtMost (s.length - 1) (readWithin g k q) := by
        apply (ih q).mono
        exact Nat.le_sub_one_of_lt hq.2
      have hnested := (needsAtMost_firstReading hs hparts g.expressions).nested "parse_expression"
        s.tokens
      rw [Nat.sub_add_cancel hs] at hnested
      apply NeedsAtMost.get_bind
      · intro σ
        cases σ.memo.find? s with
        | some r => exact .pure _ _
        | none =>
          apply NeedsAtMost.bind hnested
          intro r
          apply NeedsAtMost.bind
          · exact .modify (fun σ => extends_remember σ s r) (fun _ _ _ => rfl) fun _ => rfl
          · intro _
            exact .pure _ _
      · intro σ limit depth
        rfl

theorem needsAtMost_read (s : Slice) : NeedsAtMost s.length (read g s) :=
  needsAtMost_readWithin s.length s

end readings

end Parse

end Prose
