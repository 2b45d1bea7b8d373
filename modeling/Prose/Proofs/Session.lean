import Prose.Proofs.Expr.Nesting
import Prose.Proofs.Session.Steps

namespace Prose

open Inquiry

namespace Session

/-- A later state of a session whose remembered readings are right. -/
structure Precedes (g : Grammar) (stream : Slice) (σ τ : Session) : Prop where
  recalls : τ.Recalls g stream
  options : τ.options = σ.options
  depth : τ.depth = σ.depth
  errors : σ.errors.size ≤ τ.errors.size

/-- A later state, provided that what the earlier one remembers is right. -/
def LeadsTo (g : Grammar) (stream : Slice) (σ τ : Session) : Prop :=
  σ.Recalls g stream → σ.Precedes g stream τ

variable {g : Grammar} {stream : Slice} {σ τ υ : Session}

theorem LeadsTo.refl (σ : Session) : σ.LeadsTo g stream σ :=
  fun h => ⟨h, rfl, rfl, Nat.le_refl _⟩

theorem LeadsTo.trans (h : σ.LeadsTo g stream τ) (h' : τ.LeadsTo g stream υ) :
    σ.LeadsTo g stream υ := by
  intro hσ
  have hτ := h hσ
  have hυ := h' hτ.recalls
  exact ⟨hυ.recalls, hυ.options.trans hτ.options, hυ.depth.trans hτ.depth,
    Nat.le_trans hτ.errors hυ.errors⟩

/-- Log entries, trace records and reports leave what is remembered. -/
theorem leadsTo_record (σ : Session) (r : TraceRecord) : σ.LeadsTo g stream (σ.record r) :=
  fun h => ⟨h, rfl, rfl, Nat.le_refl _⟩

theorem leadsTo_log (σ : Session) (level : LogLevel) (message : String) :
    σ.LeadsTo g stream (σ.log level message) :=
  fun h => ⟨h, rfl, rfl, Nat.le_refl _⟩

theorem size_errors_report (σ : Session) (p : Problem) :
    (σ.report p).errors.size = σ.errors.size + 1 := by
  rw [report, Array.size_push]
  rfl

theorem leadsTo_report (σ : Session) (p : Problem) : σ.LeadsTo g stream (σ.report p) :=
  fun h => ⟨h, rfl, rfl, by rw [size_errors_report]; exact Nat.le_succ _⟩

end Session

namespace Parse

open Session

def Keeps (g : Grammar) (stream : Slice) {α : Type} (step : StateM Session α) : Prop :=
  ∀ σ : Session, σ.LeadsTo g stream (step.run σ).2

variable {g : Grammar} {stream s : Slice} {block : Slice → StateM Session (List Stmt)}

/-- That remembered readings stay right does not depend on the depth, the trace, the log or the
problems, none of which is taken back. -/
theorem isLasting_leadsTo (g : Grammar) (stream : Slice) : IsLasting (LeadsTo g stream) where
  refl := .refl
  trans := .trans
  record σ _ _ := leadsTo_record σ _
  log := leadsTo_log
  report := leadsTo_report
  atDepth := by
    intro σ τ depth h hσ
    have hdeeper := h hσ
    exact ⟨hdeeper.recalls, hdeeper.options, rfl, hdeeper.errors⟩
  leave := by
    intro σ τ h hσ
    -- What a level adds to the depth is taken back whether the step fails or not.
    have hdeeper := h hσ
    exact ⟨hdeeper.recalls, hdeeper.options, congrArg (· - 1) hdeeper.depth, hdeeper.errors⟩

theorem keeps_read {s : Slice} (hs : s.IsPartOf stream) : Keeps g stream (read g s).run := by
  intro σ hσ
  obtain ⟨r, τ, hrun, ⟨hτ, halike⟩, -⟩ := readWithin_run (Nat.le_refl s.length) hs hσ
  have hstate : ((read g s).run.run σ).2 = τ := congrArg Prod.snd hrun
  have hsize : σ.errors.size ≤ τ.errors.size := Nat.le_of_eq (congrArg Array.size halike.errors.symm)
  rw [hstate]
  exact ⟨hτ, halike.options, halike.depth, hsize⟩

theorem keeps_divide (s : Slice) : Keeps g stream (divide s) :=
  lasts_divide (isLasting_leadsTo g stream) s

def KeepsBlocks (g : Grammar) (stream : Slice) (block : Slice → StateM Session (List Stmt)) : Prop :=
  ∀ inner : Slice, inner.IsPartOf stream → Keeps g stream (block inner)

section reply

variable (hblock : KeepsBlocks g stream block)
include hblock

theorem keeps_reply (hs : s.IsPartOf stream) {q : Stmt.Question} (hq : q.IsWithin s) :
    Keeps g stream (reply g block q).run :=
  lasts_reply (isLasting_leadsTo g stream) (fun _ => keeps_read) hblock hs hq

theorem keeps_form (hs : s.IsPartOf stream) (f : Stmt.Form) :
    Keeps g stream ((f.read s).run (reply g block)).run :=
  lasts_form (isLasting_leadsTo g stream) (fun _ => keeps_read) hblock hs f

theorem keeps_sentence {x : Sentence} (hx : ∀ s ∈ x.slices, s.IsPartOf stream) :
    Keeps g stream (sentence g (reply g block) x).run :=
  lasts_sentence (isLasting_leadsTo g stream) (fun _ => keeps_read) hblock hx

theorem keeps_sentences {xs : List Sentence} (hxs : ∀ x ∈ xs, ∀ s ∈ x.slices, s.IsPartOf stream) :
    Keeps g stream (sentences g (reply g block) xs) :=
  lasts_sentences (isLasting_leadsTo g stream) (fun _ => keeps_read) hblock hxs

end reply

theorem keeps_blockWithin (n : Nat) : KeepsBlocks g stream (blockWithin g n) :=
  lasts_blockWithin (isLasting_leadsTo g stream) (fun _ => keeps_read) n

end Parse

end Prose
