import Prose.Proofs.Expr.Blame
import Prose.Proofs.Session.Quiet

namespace Prose

open Inquiry

/-- Between the states nothing but problems of `E` was reported. -/
def Session.Reports (E : Problem → Prop) (σ τ : Session) : Prop :=
  ∃ ps, τ.errors.toList = σ.errors.toList ++ ps ∧ ∀ p ∈ ps, E p

namespace Session

variable {E E' : Problem → Prop} {σ τ υ : Session}

/-- Nothing was reported. -/
theorem reports_of_errors_eq (h : τ.errors = σ.errors) : σ.Reports E τ :=
  ⟨[], by rw [h, List.append_nil], fun p hp => by cases hp⟩

theorem Reports.trans (h : σ.Reports E τ) (h' : τ.Reports E υ) : σ.Reports E υ := by
  obtain ⟨ps, hps, hall⟩ := h
  obtain ⟨qs, hqs, hall'⟩ := h'
  refine ⟨ps ++ qs, by rw [hqs, hps, List.append_assoc], fun p hp => ?_⟩
  exact (List.mem_append.mp hp).elim (hall p) (hall' p)

theorem Reports.mono (hE : ∀ p, E p → E' p) (h : σ.Reports E τ) : σ.Reports E' τ := by
  obtain ⟨ps, hps, hall⟩ := h
  exact ⟨ps, hps, fun p hp => hE p (hall p hp)⟩

/-- A problem that is reported is the last one. -/
theorem reports_report (σ : Session) {p : Problem} (hp : E p) : σ.Reports E (σ.report p) :=
  ⟨[p], Array.toList_push, List.forall_mem_singleton.mpr hp⟩

/-- What was reported in between is reported behind what was reported before. -/
theorem Reports.forall_of_eq {ps : List Problem} (h : σ.Reports E τ)
    (hps : τ.errors.toList = σ.errors.toList ++ ps) : ∀ p ∈ ps, E p := by
  obtain ⟨qs, hqs, hall⟩ := h
  rw [hqs] at hps
  rw [← List.append_cancel_left hps]
  exact hall

end Session

namespace Parse

open Session

/-- The problems that the step reports, and the one that it fails with, satisfy `E`. -/
def Raises (E : Problem → Prop) {α : Type} (step : Parse α) : Prop :=
  ∀ σ : Session, σ.Reports E (step.run.run σ).2 ∧ ∀ p, (step.run.run σ).1 = .error p → E p

variable {E E' : Problem → Prop} {α β : Type}

theorem raises_pure (a : α) : Raises E (pure a) :=
  fun _ => ⟨reports_of_errors_eq rfl, fun p hp => by cases hp⟩

theorem raises_throw {p : Problem} (hp : E p) : Raises E (throw p : Parse α) := by
  refine fun _ => ⟨reports_of_errors_eq rfl, fun q hq => ?_⟩
  cases hq
  exact hp

theorem Raises.bind {x : Parse α} {f : α → Parse β} (hx : Raises E x) (hf : ∀ a, Raises E (f a)) :
    Raises E (x >>= f) := by
  intro σ
  obtain ⟨hreports, hfails⟩ := hx σ
  rw [run_bind]
  generalize x.run.run σ = first at hreports hfails
  obtain ⟨p | a, τ⟩ := first
  · refine ⟨hreports, fun q hq => ?_⟩
    cases hq
    exact hfails p rfl
  · exact ⟨hreports.trans (hf a τ).1, (hf a τ).2⟩

theorem Raises.mono (hE : ∀ p, E p → E' p) {x : Parse α} (hx : Raises E x) : Raises E' x :=
  fun σ => ⟨(hx σ).1.mono hE, fun p hp => hE p ((hx σ).2 p hp)⟩

/-- A step that cannot fail. -/
theorem raises_lift {x : StateM Session α} (h : ∀ σ : Session, σ.Reports E (x.run σ).2) :
    Raises E (ExceptT.lift x : Parse α) :=
  fun σ => ⟨h σ, fun p hp => by cases hp⟩

theorem raises_get : Raises E (get : Parse Session) :=
  fun _ => ⟨reports_of_errors_eq rfl, fun p hp => by cases hp⟩

theorem raises_modify {f : Session → Session} (h : ∀ σ, (f σ).errors = σ.errors) :
    Raises E (modify f : Parse PUnit) :=
  fun σ => ⟨reports_of_errors_eq (h σ), fun p hp => by cases hp⟩

/-- One level deeper a step may be too deep. -/
theorem raises_nested {origin : String} {tokens : List Token} {step : Parse α}
    (hdeep : ∀ limit, E (tooDeep limit origin tokens)) (hstep : Raises E step) :
    Raises E (nested origin tokens step) := by
  intro σ
  rw [nested_run]
  split
  · refine ⟨reports_of_errors_eq rfl, fun p hp => ?_⟩
    cases hp
    exact hdeep _
  · exact hstep { σ with depth := σ.depth + 1 }

/-- A query raises what it fails with by itself and what the answers to its questions raise. -/
theorem raises_run {Q : Type} {R : Q → Type} {P : Q → Prop} {answer : (q : Q) → Parse (R q)}
    (hanswer : ∀ q, P q → Raises E (answer q)) {x : Inquiry Q R α} (hx : Blames P E x) :
    Raises E (x.run answer) := by
  induction hx with
  | done a => exact raises_pure a
  | fail hp => exact raises_throw hp
  | ask hq _ ih => exact .bind (hanswer _ hq) ih

section readings

variable {g : Grammar}

/-- The problems of the rules for expressions point into the slice if those of its parts do. -/
theorem raises_firstReading {s : Slice} {answer : Slice → Parse Reading} (hs : 0 < s.length)
    (hanswer : ∀ part : Slice, part.IsPartOf s → Raises (fun p => s.Cites p.tokens) (answer part))
    (rules : List Expr.Rule) : Raises (fun p => s.Cites p.tokens) (firstReading answer s rules) := by
  induction rules with
  | nil => exact raises_pure none
  | cons rule rules ih =>
    have hform := (Expr.pointsInto_form s hs rule.form).of_asks (Expr.asks_form rule.form s)
    have hcited := hform.mono (fun _ hpart => hpart) fun _ hp => hp.shown
    refine .bind (raises_run (fun part hpart => hanswer part hpart.2.1) hcited) fun r => ?_
    cases r with
    | none => exact ih
    | some e => exact .bind (raises_modify fun _ => rfl) fun _ => raises_pure _

/-- The problem of a reading points at tokens of the slice that is read. -/
theorem raises_readWithin (n : Nat) (s : Slice) :
    Raises (fun p => s.Cites p.tokens) (readWithin g n s) := by
  induction n generalizing s with
  | zero => exact raises_pure none
  | succ n ih =>
    rw [readWithin]
    split
    · exact raises_pure none
    · have hs : 0 < s.length := (Slice.cites_of_isEmpty ‹_›).length_pos
      refine .bind raises_get fun σ => ?_
      split
      · exact raises_pure _
      · refine .bind (raises_nested (fun _ => Slice.cites_self hs) ?_) fun r => ?_
        · refine raises_firstReading hs (fun part hpart => ?_) _
          exact (ih part).mono fun p hp => hp.of_isPartOf hpart
        · exact .bind (raises_modify fun _ => rfl) fun _ => raises_pure r

end readings

end Parse

end Prose
