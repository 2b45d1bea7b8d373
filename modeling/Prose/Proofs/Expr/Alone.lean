import Prose.Proofs.Expr.Recall
import Prose.Proofs.Expr.Verdict

namespace Prose

open Prose.Expr Grammar

/-- What a form of the standard grammar, run alone on the slice in a new session, comes to. -/
def Expr.Form.alone (f : Form) (o : Options) (observers : Nat) (s : Slice) :
    Except Problem (Option Expr) :=
  (((f.read s).run (Parse.read standard)).run.run (.start o observers)).1

/-- What the cascade of the standard grammar, run on the slice in a new session, comes to. -/
def Slice.selection (o : Options) (observers : Nat) (s : Slice) : Except Problem Reading :=
  ((Parse.read standard s).run.run (.start o observers)).1

theorem exists_eq_ok_some {α : Type} {r : Except Problem (Option α)}
    (h : r.toOption.join.isSome = true) : ∃ a, r = .ok (some a) := by
  match r with
  | .ok (some a) => exact ⟨a, rfl⟩
  | .ok none => cases h
  | .error p => cases h

theorem exists_eq_error {α : Type} {r : Except Problem α} (h : r.toOption.isNone = true) :
    ∃ p, r = .error p := by
  match r with
  | .ok a => cases h
  | .error p => exact ⟨p, rfl⟩

section alone

variable {o : Options} {n : Nat} {f : Form} {s : Slice}

theorem alone_eq_verdict (hroom : s.length ≤ o.maxNestingDepth) :
    f.alone o n s = standard.verdict f s := by
  have hstart := Session.recalls_start standard s o n
  obtain ⟨τ, hrun, -⟩ := Parse.form_run (.refl s) f hstart (by simpa [Session.start] using hroom)
  rw [Form.alone, hrun]

/-- Under any limit a form accepts alone only what its verdict accepts. -/
theorem verdict_eq_of_alone {e : Expr} (h : f.alone o n s = .ok (some e)) :
    standard.verdict f s = .ok (some e) := by
  have hstart := Session.recalls_start standard s o n
  obtain ⟨r, τ, hrun, -, hr⟩ := Inquiry.run_resolve (E := fun _ => True)
    (I := fun τ => τ.Recalls standard s) (Parse.read standard) standard.outcome
    (fun q hq σ hσ => by
      obtain ⟨r, τ, hrun, ⟨hτ, -⟩, hr⟩ := Parse.readWithin_run (Nat.le_refl q.length) hq.1 hσ
      exact ⟨r, τ, hrun, hτ, hr.imp_right fun ⟨p, _, hp⟩ => ⟨p, trivial, hp⟩⟩)
    (Expr.asks_form f s) hstart
  rw [Form.alone, hrun] at h
  rcases hr with rfl | ⟨p, -, rfl⟩
  · exact h
  · cases h

theorem selection_eq_outcome (hroom : s.length ≤ o.maxNestingDepth) :
    s.selection o n = standard.outcome s := by
  have hstart := Session.recalls_start standard s o n
  obtain ⟨τ, hrun, -⟩ := Parse.read_run (.refl s) hstart (by simpa [Session.start] using hroom)
  rw [Slice.selection, hrun]

/-- Under any limit the cascade reads only what its outcome is. -/
theorem outcome_of_selection {r : Reading} (h : s.selection o n = .ok r) :
    standard.outcome s = .ok r :=
  Parse.outcome_of_read (.refl s) (Session.recalls_start standard s o n) h

end alone

end Prose
