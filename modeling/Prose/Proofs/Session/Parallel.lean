import Mathlib.Data.List.Forall2
import Prose.Proofs.Session
import Prose.Proofs.Segment.Relocation
import Prose.Proofs.Stmt.Mirror

namespace Prose

open Inquiry

inductive LogEntry.Relocated (ρ : Relocation) : LogEntry → LogEntry → Prop
  | located (level : LogLevel) (p : Position) (text : String) :
      Relocated ρ ⟨level, p.render ++ text⟩ ⟨level, (ρ.place p).render ++ text⟩

namespace Session

/-- From `σ₀` and `τ₀` on, two sessions have done the same, the second with relocated parts of the
stream. -/
structure Parallel (ρ : Relocation) (stream : Slice) (σ₀ τ₀ σ τ : Session) : Prop where
  options : σ.options = σ₀.options ∧ τ.options = σ₀.options
  depth : σ.depth = σ₀.depth ∧ τ.depth = σ₀.depth
  memo : ∀ q : Slice, q.IsPartOf stream → 0 < q.length →
    τ.memo.find? (relocate ρ q) = relocate ρ (σ.memo.find? q)
  elsewhere : ∀ q : Slice, (∀ r : Slice, r.IsPartOf stream → 0 < r.length →
    Memo.key (relocate ρ r) ≠ Memo.key q) → τ.memo.find? q = τ₀.memo.find? q
  errors : ∃ ps, σ.errors.toList = σ₀.errors.toList ++ ps ∧
    τ.errors.toList = τ₀.errors.toList ++ relocate ρ ps
  logs : ∃ es es', σ.logs.toList = σ₀.logs.toList ++ es ∧ τ.logs.toList = τ₀.logs.toList ++ es' ∧
    List.Forall₂ (LogEntry.Relocated ρ) es es'

namespace Parallel

variable {ρ : Relocation} {stream s : Slice} {σ₀ τ₀ σ τ : Session}

/-- Two sessions may begin side by side if they remember the same of the stream. -/
theorem start (hoptions : τ₀.options = σ₀.options) (hdepth : τ₀.depth = σ₀.depth)
    (hmemo : ∀ q : Slice, q.IsPartOf stream → 0 < q.length →
      τ₀.memo.find? (relocate ρ q) = relocate ρ (σ₀.memo.find? q)) :
    Parallel ρ stream σ₀ τ₀ σ₀ τ₀ where
  options := ⟨rfl, hoptions⟩
  depth := ⟨rfl, hdepth⟩
  memo := hmemo
  elsewhere := fun _ _ => rfl
  errors := ⟨[], (List.append_nil _).symm, (List.append_nil _).symm⟩
  logs := ⟨[], [], (List.append_nil _).symm, (List.append_nil _).symm, .nil⟩

variable (h : Parallel ρ stream σ₀ τ₀ σ τ)
include h

theorem record (r r' : TraceRecord) : Parallel ρ stream σ₀ τ₀ (σ.record r) (τ.record r') :=
  ⟨h.options, h.depth, h.memo, h.elsewhere, h.errors, h.logs⟩

theorem log (level : LogLevel) {m m' : String}
    (hm : LogEntry.Relocated ρ ⟨level, m⟩ ⟨level, m'⟩) :
    Parallel ρ stream σ₀ τ₀ (σ.log level m) (τ.log level m') := by
  refine ⟨h.options, h.depth, h.memo, h.elsewhere, h.errors, ?_⟩
  obtain ⟨es, es', hσ, hτ, hes⟩ := h.logs
  refine ⟨es ++ [⟨level, m⟩], es' ++ [⟨level, m'⟩], ?_, ?_, List.rel_append hes (.cons hm .nil)⟩
  · rw [← List.append_assoc, ← hσ]
    exact Array.toList_push
  · rw [← List.append_assoc, ← hτ]
    exact Array.toList_push

theorem report (p : Problem) :
    Parallel ρ stream σ₀ τ₀ (σ.report p) (τ.report (relocate ρ p)) := by
  refine ⟨h.options, h.depth, h.memo, h.elsewhere, ?_, h.logs⟩
  obtain ⟨ps, hσ, hτ⟩ := h.errors
  refine ⟨ps ++ [p], ?_, ?_⟩
  · rw [← List.append_assoc, ← hσ]
    exact Array.toList_push
  · rw [relocate_append, ← List.append_assoc, ← hτ]
    exact Array.toList_push

/-- A reading is remembered under the key of its slice, which no other part of the stream has. -/
theorem remember (hs : s.IsPartOf stream) (hpos : 0 < s.length) (r : Reading) :
    Parallel ρ stream σ₀ τ₀ (σ.remember s r) (τ.remember (relocate ρ s) (relocate ρ r)) := by
  refine ⟨h.options, h.depth, ?_, ?_, h.errors, h.logs⟩
  · intro q hq hqpos
    have hkey : Memo.key (relocate ρ s) = Memo.key (relocate ρ q) ↔ Memo.key s = Memo.key q := by
      constructor
      · intro hkey
        obtain ⟨hstart, hlength⟩ := Prod.ext_iff.mp hkey
        rw [Slice.key_relocate_inj ρ stream hs hq hstart hlength]
      · intro hkey
        obtain ⟨hstart, hlength⟩ := Prod.ext_iff.mp hkey
        rw [hs.eq_of_key hq hstart hlength]
    simp only [Session.remember, Memo.find?_insert, hkey]
    split
    · rfl
    · exact h.memo q hq hqpos
  · intro q hq
    simp only [Session.remember, Memo.find?_insert]
    rw [if_neg (hq s hs hpos)]
    exact h.elsewhere q hq

/-- One level deeper the sessions are side by side as before. -/
theorem deeper :
    Parallel ρ stream { σ₀ with depth := σ₀.depth + 1 } { τ₀ with depth := τ₀.depth + 1 }
      { σ with depth := σ.depth + 1 } { τ with depth := τ.depth + 1 } :=
  ⟨h.options, ⟨congrArg (· + 1) h.depth.1, congrArg (· + 1) h.depth.2⟩, h.memo, h.elsewhere,
    h.errors, h.logs⟩

omit h in
/-- Back at their depths they still are. -/
theorem shallower {σ' τ' : Session}
    (h' : Parallel ρ stream { σ₀ with depth := σ₀.depth + 1 } { τ₀ with depth := τ₀.depth + 1 }
      σ' τ') :
    Parallel ρ stream σ₀ τ₀ { σ' with depth := σ'.depth - 1 } { τ' with depth := τ'.depth - 1 } :=
  ⟨h'.options, ⟨congrArg (· - 1) h'.depth.1, congrArg (· - 1) h'.depth.2⟩, h'.memo, h'.elsewhere,
    h'.errors, h'.logs⟩

end Parallel

end Session

namespace Parse

open Session

/-- Sessions side by side stay so when the one takes the first step and the other the second, and
the results of the steps are the same but for their places. -/
def InParallel {α : Type} [Relocates α] (ρ : Relocation) (stream : Slice)
    (x x' : StateM Session α) : Prop :=
  ∀ σ₀ τ₀ σ τ : Session, Parallel ρ stream σ₀ τ₀ σ τ →
    (x'.run τ).1 = relocate ρ (x.run σ).1 ∧ Parallel ρ stream σ₀ τ₀ (x.run σ).2 (x'.run τ).2

variable {ρ : Relocation} {stream s : Slice} {g : Grammar}

section steps

variable {α β : Type} [Relocates α] [Relocates β]

theorem InParallel.pure {a b : α} (h : relocate ρ a = b) :
    InParallel ρ stream (Pure.pure a) (Pure.pure b) := by
  intro σ₀ τ₀ σ τ hστ
  exact ⟨h.symm, hστ⟩

theorem InParallel.bind {x x' : StateM Session α} {f f' : α → StateM Session β}
    (hx : InParallel ρ stream x x') (hf : ∀ a, InParallel ρ stream (f a) (f' (relocate ρ a))) :
    InParallel ρ stream (x >>= f) (x' >>= f') := by
  intro σ₀ τ₀ σ τ hστ
  obtain ⟨hresult, hστ⟩ := hx σ₀ τ₀ σ τ hστ
  rw [StateT.run_bind, StateT.run_bind]
  generalize x.run σ = first at hresult hστ
  generalize x'.run τ = first' at hresult hστ
  obtain ⟨a, σ⟩ := first
  obtain ⟨a', τ⟩ := first'
  cases hresult
  exact hf a σ₀ τ₀ σ τ hστ

/-- A step that may fail is followed by the next one only if it does not. -/
theorem InParallel.bind_run {x x' : Parse α} {f f' : α → Parse β}
    (hx : InParallel ρ stream x.run x'.run)
    (hf : ∀ a, InParallel ρ stream (f a).run (f' (relocate ρ a)).run) :
    InParallel ρ stream (x >>= f).run (x' >>= f').run := by
  intro σ₀ τ₀ σ τ hστ
  obtain ⟨hresult, hστ⟩ := hx σ₀ τ₀ σ τ hστ
  rw [Inquiry.run_bind, Inquiry.run_bind]
  change (x'.run.run τ).1 = relocate ρ (x.run.run σ).1 at hresult
  change Parallel ρ stream σ₀ τ₀ (x.run.run σ).2 (x'.run.run τ).2 at hστ
  generalize x.run.run σ = first at hresult hστ
  generalize x'.run.run τ = first' at hresult hστ
  obtain ⟨p | a, σ⟩ := first
  · obtain ⟨r', τ⟩ := first'
    cases hresult
    exact ⟨rfl, hστ⟩
  · obtain ⟨r', τ⟩ := first'
    cases hresult
    exact hf a σ₀ τ₀ σ τ hστ

theorem InParallel.modify {f f' : Session → Session}
    (h : ∀ σ₀ τ₀ σ τ, Parallel ρ stream σ₀ τ₀ σ τ → Parallel ρ stream σ₀ τ₀ (f σ) (f' τ)) :
    InParallel ρ stream (modify f) (modify f') := by
  intro σ₀ τ₀ σ τ hστ
  exact ⟨rfl, h σ₀ τ₀ σ τ hστ⟩

theorem InParallel.modify_run {f f' : Session → Session}
    (h : ∀ σ₀ τ₀ σ τ, Parallel ρ stream σ₀ τ₀ σ τ → Parallel ρ stream σ₀ τ₀ (f σ) (f' τ)) :
    InParallel ρ stream (MonadStateOf.modifyGet fun σ => ((), f σ) : Parse Unit).run
      (MonadStateOf.modifyGet fun σ => ((), f' σ) : Parse Unit).run := by
  intro σ₀ τ₀ σ τ hστ
  exact ⟨rfl, h σ₀ τ₀ σ τ hστ⟩

/-- A step may look at its session in order to decide how to go on. -/
theorem InParallel.get_bind {f f' : Session → StateM Session β}
    (h : ∀ σ₀ τ₀ σ τ, Parallel ρ stream σ₀ τ₀ σ τ → InParallel ρ stream (f σ) (f' τ)) :
    InParallel ρ stream (get >>= f) (get >>= f') := by
  intro σ₀ τ₀ σ τ hστ
  exact h σ₀ τ₀ σ τ hστ σ₀ τ₀ σ τ hστ

theorem InParallel.get_bind_run {f f' : Session → Parse β}
    (h : ∀ σ₀ τ₀ σ τ, Parallel ρ stream σ₀ τ₀ σ τ → InParallel ρ stream (f σ).run (f' τ).run) :
    InParallel ρ stream (get >>= f : Parse β).run (get >>= f' : Parse β).run := by
  intro σ₀ τ₀ σ τ hστ
  exact h σ₀ τ₀ σ τ hστ σ₀ τ₀ σ τ hστ

/-- At the limit both steps fail, elsewhere both go one level deeper. -/
theorem InParallel.nested (origin : String) (tokens : List Token) {x x' : Parse α}
    (h : InParallel ρ stream x.run x'.run) :
    InParallel ρ stream (nested origin tokens x).run
      (Parse.nested origin (relocate ρ tokens) x').run := by
  intro σ₀ τ₀ σ τ hστ
  have hlimit : τ.options.maxNestingDepth = σ.options.maxNestingDepth := by
    rw [hστ.options.1, hστ.options.2]
  have hdepth : τ.depth = σ.depth := by
    rw [hστ.depth.1, hστ.depth.2]
  change ((Parse.nested origin (relocate ρ tokens) x').run.run τ).1 =
      relocate ρ ((Parse.nested origin tokens x).run.run σ).1 ∧
    Parallel ρ stream σ₀ τ₀ ((Parse.nested origin tokens x).run.run σ).2
      ((Parse.nested origin (relocate ρ tokens) x').run.run τ).2
  rw [nested_run, nested_run, hlimit, hdepth]
  split
  · exact ⟨rfl, hστ⟩
  · have hdeeper := hστ.deeper
    rw [hdepth] at hdeeper
    obtain ⟨hresult, hinner⟩ := h _ _ _ _ hdeeper
    exact ⟨hresult, hinner.shallower⟩

end steps

end Parse

end Prose
