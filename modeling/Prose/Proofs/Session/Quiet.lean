import Prose.Proofs.Session.Steps
import Prose.Proofs.Stmt.Place
import Prose.Proofs.Token.Regular

namespace Prose

open Inquiry

namespace Session

variable {σ τ : Session}

theorem alike_record (σ : Session) (r : TraceRecord) : σ.Alike (σ.record r) :=
  ⟨rfl, rfl, rfl, rfl, rfl, rfl⟩

theorem alike_remember (σ : Session) (s : Slice) (r : Reading) : σ.Alike (σ.remember s r) :=
  ⟨rfl, rfl, rfl, rfl, rfl, rfl⟩

end Session

namespace Parse

open Session

variable {g : Grammar}

section readings

variable {answer : Slice → Parse Reading} (hanswer : ∀ part, Lasts Alike (answer part).run)
include hanswer

/-- A form of expressions does nothing but ask for readings. -/
theorem alike_form (f : Expr.Form) (s : Slice) : Lasts Alike ((f.read s).run answer).run :=
  fun σ => (run_reaches Alike.refl Alike.trans answer (fun part _ => hanswer part)
    (Expr.asks_form f s) σ).1

theorem alike_firstReading (s : Slice) (rules : List Expr.Rule) :
    Lasts Alike (firstReading answer s rules).run := by
  intro σ
  induction rules generalizing σ with
  | nil => exact .refl σ
  | cons rule rules ih =>
    have hform := alike_form hanswer rule.form s σ
    change σ.Alike ((firstReading answer s (rule :: rules)).run.run σ).2
    change σ.Alike (((rule.form.read s).run answer).run.run σ).2 at hform
    rw [firstReading, run_bind]
    generalize ((rule.form.read s).run answer).run.run σ = first at hform
    obtain ⟨p | _ | e, τ⟩ := first
    · exact hform
    · exact hform.trans (ih τ)
    · exact hform.trans (alike_record τ _)

end readings

/-- Nothing but what is remembered and traced can be seen of a reading. -/
theorem alike_readWithin (n : Nat) (s : Slice) : Lasts Alike (readWithin g n s).run := by
  intro σ
  induction n generalizing s σ with
  | zero => exact .refl σ
  | succ n ih =>
    have hrules := alike_firstReading ih s g.expressions { σ with depth := σ.depth + 1 }
    have hstep := readStep g n s σ
    change σ.Alike ((readWithin g (n + 1) s).run.run σ).2
    generalize (readWithin g (n + 1) s).run.run σ = out at hstep ⊢
    cases hstep with
    | empty | remembered | tooDeep => exact .refl σ
    | failed _ _ _ hfirst =>
      rw [hfirst] at hrules
      exact hrules.leave
    | completed _ _ _ hfirst =>
      rw [hfirst] at hrules
      exact hrules.leave.trans (alike_remember _ s _)

theorem alike_read (s : Slice) : Lasts Alike (read g s).run :=
  alike_readWithin s.length s

def Level (σ τ : Session) : Prop :=
  τ.depth = σ.depth

/-- What a level adds to the depth is taken back behind it. -/
theorem Level.leave {σ τ : Session} (h : Level { σ with depth := σ.depth + 1 } τ) :
    Level σ { τ with depth := τ.depth - 1 } :=
  congrArg (· - 1) h

theorem isLasting_level : IsLasting Level where
  refl _ := rfl
  trans h h' := Eq.trans h' h
  record _ _ _ := rfl
  log _ _ _ := rfl
  report _ _ := rfl
  atDepth _ _ := rfl
  leave := Level.leave

section statements

variable {block : Slice → StateM Session (List Stmt)} {σ τ : Session}

/-- An inquiry that ends without a statement has asked for nothing but readings. -/
theorem alike_of_commits {p : Position} {x : Stmt.Query (Option Stmt)} (hx : Stmt.Commits p x)
    (hrun : (x.run (reply g block)).run.run σ = (.ok none, τ)) : σ.Alike τ := by
  induction hx generalizing σ with
  | reject =>
    cases hrun
    exact .refl _
  | accept h =>
    obtain ⟨st, hst, -⟩ := h.of_run hrun
    cases hst
  | @reading part next h ih =>
    have hread := alike_read (g := g) part σ
    change σ.Alike ((reply g block (.reading part)).run.run σ).2 at hread
    rw [Inquiry.run, run_bind] at hrun
    generalize (reply g block (.reading part)).run.run σ = first at hread hrun
    obtain ⟨q | r, υ⟩ := first
    · cases hrun
    · exact hread.trans (ih r hrun)

/-- Where the statements reject a slice, each of them left no trace. -/
theorem alike_of_firstStatement {s : Slice} {rules : List Stmt.Rule}
    (hrun : (firstStatement (reply g block) s rules).run.run σ = (.ok none, τ)) : σ.Alike τ := by
  induction rules generalizing σ with
  | nil =>
    cases hrun
    exact .refl _
  | cons rule rules ih =>
    rw [firstStatement, run_bind] at hrun
    match hform : ((rule.form.read s).run (reply g block)).run.run σ with
    | (.error p, υ) =>
      rw [hform] at hrun
      cases hrun
    | (.ok (some st), υ) =>
      rw [hform] at hrun
      cases hrun
    | (.ok none, υ) =>
      rw [hform] at hrun
      exact (alike_of_commits (Stmt.commits_form s rule.form) hform).trans (ih hrun)

/-- A slice that is rejected was rejected by every rule, one level deeper. -/
theorem alike_of_statement {s : Slice} (hrun : (statement g s).run.run σ = (.ok none, τ)) :
    σ.Alike τ := by
  unfold statement statementWith at hrun
  split at hrun
  · cases hrun
    exact .refl _
  · rw [nested_run] at hrun
    split at hrun
    · cases hrun
    · generalize hfirst : (firstStatement (reply g (blockWithin g s.length)) s g.statements).run.run
        { σ with depth := σ.depth + 1 } = first at hrun
      obtain ⟨r, υ⟩ := first
      cases hrun
      exact Alike.leave (alike_of_firstStatement hfirst)

end statements

/-- What is only tried leaves no trace. A form of expressions and the reading of a slice leave the
problems, the log, the depth and the observers as they are, whatever comes of them. So does a form of
statements that rejects the slice, and so do all of them together; whatever comes of it, the depth is
set back. -/
theorem alike_of_attempt (g : Grammar) (s : Slice) (σ : Session) :
    (∀ f : Expr.Form, σ.Alike (((f.read s).run (read g)).run.run σ).2) ∧
      σ.Alike ((read g s).run.run σ).2 ∧
      (∀ (f : Stmt.Form) (n : Nat) (r : Except Problem (Option Stmt)) (τ : Session),
        (inquire g n (f.read s)).run.run σ = (r, τ) →
          τ.depth = σ.depth ∧ (r = .ok none → σ.Alike τ)) ∧
      ∀ (r : Except Problem Selection) (τ : Session), (statement g s).run.run σ = (r, τ) →
        τ.depth = σ.depth ∧ (r = .ok none → σ.Alike τ) := by
  have hread (part : Slice) (_ : part.IsPartOf s) : Lasts Level (read g part).run :=
    fun σ => (alike_read part σ).depth
  have hblock (n : Nat) : LastsBlocks Level s (blockWithin g n) :=
    lasts_blockWithin isLasting_level hread n
  refine ⟨fun f => alike_form alike_read f s σ, alike_read s σ, ?_, ?_⟩
  · intro f n r τ hrun
    have hdepth := lasts_form isLasting_level hread (hblock n) (.refl s) f σ
    rw [show ((f.read s).run (reply g (blockWithin g n))).run.run σ = (r, τ) from hrun] at hdepth
    refine ⟨hdepth, ?_⟩
    rintro rfl
    exact alike_of_commits (Stmt.commits_form s f) hrun
  · intro r τ hrun
    have hdepth := lasts_statementWith isLasting_level hread (hblock s.length) (.refl s) σ
    rw [show (statementWith g (reply g (blockWithin g s.length)) s).run.run σ = (r, τ) from hrun]
      at hdepth
    refine ⟨hdepth, ?_⟩
    rintro rfl
    exact alike_of_statement hrun

def twoNames : Slice :=
  .ofSource "$a $b ." "t"

theorem exists_run_eq {α : Type} (x : Parse (Option α)) (σ : Session)
    (h : (x.run.run σ).1.toOption.map Option.isNone = some true) :
    ∃ τ, x.run.run σ = (.ok none, τ) := by
  generalize x.run.run σ = result at h
  obtain ⟨p | _ | a, τ⟩ := result
  · cases h
  · exact ⟨τ, rfl⟩
  · cases h

/-- Under two observers and three levels deep, the names are read as an expression without success, and
no rule for statements accepts them. -/
theorem alike_of_attempt_twoNames :
    (∃ τ, (inquire .standard 3 (Stmt.Form.expression.read twoNames)).run.run
        { start {} 2 with depth := 3 } = (.ok none, τ) ∧
      ({ start {} 2 with depth := 3 } : Session).Alike τ) ∧
    ∃ τ, (statement .standard twoNames).run.run { start {} 2 with depth := 3 } = (.ok none, τ) ∧
      ({ start {} 2 with depth := 3 } : Session).Alike τ := by
  obtain ⟨-, -, hform, hstatement⟩ :=
    alike_of_attempt .standard twoNames { start {} 2 with depth := 3 }
  obtain ⟨τ, hτ⟩ := exists_run_eq (inquire .standard 3 (Stmt.Form.expression.read twoNames))
    { start {} 2 with depth := 3 } (by decide +kernel)
  obtain ⟨υ, hυ⟩ := exists_run_eq (statement .standard twoNames) { start {} 2 with depth := 3 }
    (by decide +kernel)
  exact ⟨⟨τ, hτ, (hform .expression 3 _ τ hτ).2 rfl⟩, υ, hυ, (hstatement _ υ hυ).2 rfl⟩

end Parse

end Prose
