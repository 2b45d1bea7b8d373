import Prose.Block
import Prose.Proofs.Expr.Recall
import Prose.Proofs.Segment.Partition
import Prose.Proofs.Stmt.Questions

namespace Prose

open Inquiry

/-- Later states stand in the relation, whatever statement is traced and whatever is logged or reported,
and at whatever depth a step is taken. -/
structure Session.IsLasting (K : Session → Session → Prop) : Prop where
  refl : ∀ σ, K σ σ
  trans : ∀ {σ τ υ}, K σ τ → K τ υ → K σ υ
  record : ∀ σ form result, K σ (σ.record (.statement form result))
  log : ∀ σ level message, K σ (σ.log level message)
  report : ∀ σ p, K σ (σ.report p)
  atDepth : ∀ {σ τ : Session} (depth : Nat), K { σ with depth } τ → K σ { τ with depth := σ.depth }
  leave : ∀ {σ τ : Session}, K { σ with depth := σ.depth + 1 } τ → K σ { τ with depth := τ.depth - 1 }

namespace Parse

open Session

def Lasts (K : Session → Session → Prop) {α : Type} (step : StateM Session α) : Prop :=
  ∀ σ : Session, K σ (step.run σ).2

variable {K : Session → Session → Prop} {g : Grammar} {stream : Slice} {α β : Type}

section steps

variable (hK : IsLasting K)
include hK

theorem Lasts.pure (a : α) : Lasts K (Pure.pure a) :=
  fun σ => hK.refl σ

theorem Lasts.bind {x : StateM Session α} {f : α → StateM Session β} (hx : Lasts K x)
    (hf : ∀ a, Lasts K (f a)) : Lasts K (x >>= f) :=
  fun σ => hK.trans (hx σ) (hf _ _)

omit hK in
theorem Lasts.get_bind {f : Session → StateM Session β} (hf : ∀ σ, Lasts K (f σ)) :
    Lasts K (get >>= f) :=
  fun σ => hf σ σ

/-- A step that may fail is followed by the next one only if it does not. -/
theorem Lasts.bind_run {x : Parse α} {f : α → Parse β} (hx : Lasts K x.run)
    (hf : ∀ a, Lasts K (f a).run) : Lasts K (x >>= f).run := by
  intro σ
  have hfirst := hx σ
  change K σ (x.run.run σ).2 at hfirst
  change K σ ((x >>= f).run.run σ).2
  rw [run_bind]
  generalize x.run.run σ = first at hfirst
  obtain ⟨a | a, τ⟩ := first
  · exact hfirst
  · exact hK.trans hfirst (hf a τ)

theorem lasts_record (form : Stmt.Form) (result : Stmt) :
    Lasts K (MonadStateOf.modifyGet fun σ : Session =>
      ((), σ.record (.statement form result)) : Parse Unit).run :=
  fun σ => hK.record σ form result

theorem lasts_nested (origin : String) (tokens : List Token) {step : Parse α}
    (h : Lasts K step.run) : Lasts K (nested origin tokens step).run := by
  intro σ
  rw [nested_run]
  split
  · exact hK.refl σ
  · exact hK.leave (h { σ with depth := σ.depth + 1 })

theorem lasts_warn (message : String) : Lasts K (warn message) :=
  fun σ => hK.log σ _ _

theorem lasts_divide (s : Slice) : Lasts K (divide s) := by
  refine .get_bind fun σ => ?_
  simp only
  split
  · exact .bind hK (lasts_warn hK _) fun _ => .pure hK _
  · exact .bind hK (.pure hK _) fun _ => .pure hK _

end steps

/-- A problem is reported and costs its sentence. -/
theorem sentences_cons_run {block : Slice → StateM Session (List Stmt)} (x : Sentence)
    (xs : List Sentence) (σ : Session) :
    (sentences g (reply g block) (x :: xs)).run σ =
      match (sentence g (reply g block) x).run.run σ with
      | (.ok st, τ) =>
        (st :: ((sentences g (reply g block) xs).run τ).1,
          ((sentences g (reply g block) xs).run τ).2)
      | (.error p, τ) => (sentences g (reply g block) xs).run (τ.report p) := by
  rw [sentences, StateT.run_bind]
  generalize (sentence g (reply g block) x).run.run σ = first
  obtain ⟨st | p, τ⟩ := first <;> rfl

/-- The slices of the sentences that a division gives are parts of the block. -/
theorem run_divide (s : Slice) (σ : Session) :
    Sentence.ofSegments [] ((divide s).run σ).1 =
      Sentence.ofBlock σ.options.requireTerminators s := by
  have hsegments : ((divide s).run σ).1 =
      (Segment.divide σ.options.requireTerminators s).segments := by
    cases hopen : (Segment.divide σ.options.requireTerminators s).openEnd <;>
    · simp only [divide, StateT.run_bind, StateT.run_get, pure_bind, hopen]
      rfl
  rw [hsegments, Sentence.ofBlock]

section reply

variable {block : Slice → StateM Session (List Stmt)} {s : Slice} {x : Sentence}

def LastsBlocks (K : Session → Session → Prop) (stream : Slice)
    (block : Slice → StateM Session (List Stmt)) : Prop :=
  ∀ inner : Slice, inner.IsPartOf stream → Lasts K (block inner)

variable (hK : IsLasting K) (hread : ∀ part : Slice, part.IsPartOf stream → Lasts K (read g part).run)
  (hblock : LastsBlocks K stream block)
include hK hread hblock

theorem lasts_reply (hs : s.IsPartOf stream) {q : Stmt.Question} (hq : q.IsWithin s) :
    Lasts K (reply g block q).run := by
  cases q with
  | reading part => exact hread part (Slice.IsPartOf.trans hq hs)
  | block origin whole inner =>
    have hinner : inner.IsPartOf stream := hq.1.trans hs
    exact lasts_nested hK origin whole (hblock inner hinner)
  | unusedValue e shown =>
    rw [reply]
    refine .bind_run hK (fun σ => hK.refl σ) fun σ => ?_
    split
    · exact lasts_warn hK _
    · exact .pure hK _

/-- The run of an inquiry about some slices keeps what its answers keep. -/
theorem lasts_run {slices : List Slice} (hslices : ∀ s ∈ slices, s.IsPartOf stream)
    {x : Stmt.Query α} (hx : x.Asks fun q => ∃ s ∈ slices, q.IsWithin s) :
    Lasts K (x.run (reply g block)).run := by
  intro σ
  refine (run_reaches (K := K) hK.refl hK.trans (reply g block) ?_ hx σ).1
  rintro q ⟨s, hs, hq⟩
  exact lasts_reply hK hread hblock (hslices s hs) hq

theorem lasts_form (hs : s.IsPartOf stream) (f : Stmt.Form) :
    Lasts K ((f.read s).run (reply g block)).run := by
  have hslices : ∀ r ∈ [s], r.IsPartOf stream := fun r hr => List.mem_singleton.mp hr ▸ hs
  refine lasts_run hK hread hblock hslices ((Stmt.asks_form s f).mono fun q hq => ?_)
  exact ⟨s, List.mem_singleton_self s, hq⟩

theorem lasts_firstStatement (hs : s.IsPartOf stream) (rules : List Stmt.Rule) :
    Lasts K (firstStatement (reply g block) s rules).run := by
  induction rules with
  | nil => exact .pure hK _
  | cons rule rules ih =>
    refine .bind_run hK (lasts_form hK hread hblock hs rule.form) fun r => ?_
    cases r with
    | none => exact ih
    | some st =>
      exact .bind_run hK (lasts_record hK _ _) fun _ => .pure hK _

theorem lasts_statementWith (hs : s.IsPartOf stream) :
    Lasts K (statementWith g (reply g block) s).run := by
  unfold statementWith
  split
  · exact .pure hK _
  · exact lasts_nested hK _ _ (lasts_firstStatement hK hread hblock hs _)

theorem lasts_sentence (hx : ∀ s ∈ x.slices, s.IsPartOf stream) :
    Lasts K (sentence g (reply g block) x).run := by
  cases x with
  | chain slices => exact lasts_run hK hread hblock hx (Stmt.asks_readConditional slices)
  | orphan s => exact .pure hK _
  | plain s =>
    refine .bind_run hK
      (lasts_statementWith hK hread hblock (hx s (List.mem_singleton_self s))) fun r => ?_
    cases r with
    | none => exact .pure hK _
    | some r => exact .pure hK _
  | broken s p => exact .pure hK _

theorem lasts_sentences {xs : List Sentence} (hxs : ∀ x ∈ xs, ∀ s ∈ x.slices, s.IsPartOf stream) :
    Lasts K (sentences g (reply g block) xs) := by
  induction xs with
  | nil => exact .pure hK _
  | cons x xs ih =>
    have hrest := ih fun y hy => hxs y (List.mem_cons_of_mem _ hy)
    refine .bind hK (lasts_sentence hK hread hblock (hxs x (List.mem_cons_self ..))) fun r => ?_
    cases r with
    | ok st => exact .bind hK hrest fun _ => .pure hK _
    | error p => exact .bind hK (fun σ => hK.report σ p) fun _ => hrest

end reply

section blocks

variable (hK : IsLasting K) (hread : ∀ part : Slice, part.IsPartOf stream → Lasts K (read g part).run)
include hK hread

theorem lasts_blockWithin (n : Nat) : LastsBlocks K stream (blockWithin g n) := by
  induction n with
  | zero => exact fun inner _ => .pure hK _
  | succ n ih =>
    intro s hs σ
    refine hK.trans (lasts_divide hK s σ) ?_
    change K ((divide s).run σ).2
      ((sentences g (reply g (blockWithin g n)) (Sentence.ofSegments [] ((divide s).run σ).1)).run
        ((divide s).run σ).2).2
    rw [run_divide]
    exact lasts_sentences hK hread ih
      (fun x hx r hr => (Sentence.isPartOf_of_mem_ofBlock hx hr).trans hs) _

end blocks

end Parse

end Prose
