import Mathlib.Data.List.Defs
import Prose.Block
import Prose.Proofs.Expr.Recall
import Prose.Proofs.Segment
import Prose.Proofs.Session
import Prose.Proofs.Stmt.Sign

namespace Prose

open Grammar Inquiry

/-- A later state of a session in which nothing has gone wrong since. Log entries may have come. -/
structure Session.Continues (stream : Slice) (σ τ : Session) : Prop where
  recalls : τ.Recalls standard stream
  options : τ.options = σ.options
  depth : τ.depth = σ.depth
  errors : τ.errors = σ.errors

namespace Session

variable {stream : Slice} {σ τ υ : Session}

theorem Continues.refl (h : σ.Recalls standard stream) : σ.Continues stream σ :=
  ⟨h, rfl, rfl, rfl⟩

theorem Continues.trans (h : σ.Continues stream τ) (h' : τ.Continues stream υ) :
    σ.Continues stream υ :=
  ⟨h'.recalls, h'.options.trans h.options, h'.depth.trans h.depth, h'.errors.trans h.errors⟩

theorem Alike.continues (h : σ.Alike τ) (hτ : τ.Recalls standard stream) : σ.Continues stream τ :=
  ⟨hτ, h.options, h.depth, h.errors⟩

end Session

namespace Stmt

variable {stream : Slice} {n room : Nat}

/-- A session with room for the tokens of the slice reads these statements in it, and no problem
arises. -/
def ReadsBlock (stream : Slice) (n : Nat) (s : Slice) (body : List Stmt) : Prop :=
  ∀ σ : Session, σ.Recalls standard stream →
    σ.depth + s.length ≤ σ.options.maxNestingDepth →
    ∃ τ, (Parse.blockWithin standard n s).run σ = (body, τ) ∧ σ.Continues stream τ

/-- The answers that a session with room for `room` more levels gives to the questions of a
statement, while nothing goes wrong. -/
def Answers (stream : Slice) (n room : Nat) : (q : Question) → q.Reply → Prop
  | .reading part, r => part.IsPartOf stream ∧ part.length ≤ room ∧ standard.outcome part = .ok r
  | .block _ _ inner, body => inner.length + 1 ≤ room ∧ ReadsBlock stream n inner body
  | .unusedValue .., _ => True

theorem run_step {S α β : Type} (x : StateM S α) (f : α → StateM S β) (σ : S) :
    (x >>= f).run σ = (f (x.run σ).1).run (x.run σ).2 := rfl

/-- A nested step runs one level deeper if there is room for it. -/
theorem nested_run_of_room {α : Type} (origin : String) (tokens : List Token) (step : Parse α)
    {σ τ : Session} {r : Except Problem α} (hroom : σ.depth < σ.options.maxNestingDepth)
    (hrun : step.run.run { σ with depth := σ.depth + 1 } = (r, τ)) :
    (Parse.nested origin tokens step).run.run σ = (r, { τ with depth := τ.depth - 1 }) := by
  rw [Parse.nested_run, if_neg (Nat.not_le.mpr hroom), hrun]

theorem continues_of_nested {σ τ : Session}
    (h : ({ σ with depth := σ.depth + 1 } : Session).Continues stream τ) :
    σ.Continues stream { τ with depth := τ.depth - 1 } :=
  ⟨h.recalls, h.options, congrArg (· - 1) h.depth, h.errors⟩

/-- The session gives the answers that it may give. -/
theorem reply_run {σ₀ : Session} (hroom : σ₀.depth + room ≤ σ₀.options.maxNestingDepth)
    (q : Question) (r : q.Reply) (h : Answers stream n room q r) (σ : Session)
    (hσ : σ₀.Continues stream σ) :
    ∃ τ, (Parse.reply standard (Parse.blockWithin standard n) q).run.run σ = (.ok r, τ) ∧
      σ₀.Continues stream τ := by
  have hlimit : σ.depth + room ≤ σ.options.maxNestingDepth := by
    rw [hσ.depth, hσ.options]
    exact hroom
  cases q with
  | reading part =>
    obtain ⟨hpart, hlen, hread⟩ := h
    obtain ⟨τ, hrun, hτ, halike⟩ := Parse.read_run hpart hσ.recalls (by omega)
    exact ⟨τ, by rw [← hread]; exact hrun, hσ.trans (halike.continues hτ)⟩
  | block origin whole inner =>
    obtain ⟨hlen, hblock⟩ := h
    obtain ⟨τ, hrun, hτ⟩ := hblock { σ with depth := σ.depth + 1 } hσ.recalls
      (by simp only; omega)
    -- A block has no problems of its own, so as an answer it does not fail.
    have hlift : ((liftM (Parse.blockWithin standard n inner) : Parse (List Stmt)).run.run
        { σ with depth := σ.depth + 1 }) = (.ok r, τ) := by
      change Prod.map Except.ok id
        ((Parse.blockWithin standard n inner).run { σ with depth := σ.depth + 1 }) = _
      rw [hrun]
      rfl
    exact ⟨_, nested_run_of_room origin whole _ (by omega) hlift,
      hσ.trans (continues_of_nested hτ)⟩
  | unusedValue e shown =>
    have hget : (get : Parse Session).run.run σ = (.ok σ, σ) := rfl
    rw [Parse.reply, Inquiry.run_bind, hget]
    simp only
    split
    · exact ⟨_, rfl, hσ.trans ⟨hσ.recalls, rfl, rfl, rfl⟩⟩
    · exact ⟨σ, rfl, hσ⟩

/-- A statement that reaches a result is read as this. -/
theorem run_of_answers {α : Type} {x : Query α} {a : α} (h : Reaches (Answers stream n room) x a)
    {σ : Session} (hσ : σ.Recalls standard stream)
    (hroom : σ.depth + room ≤ σ.options.maxNestingDepth) :
    ∃ τ, (x.run (Parse.reply standard (Parse.blockWithin standard n))).run.run σ = (.ok a, τ) ∧
      σ.Continues stream τ :=
  run_of_reaches _ (reply_run hroom) h (.refl hσ)

def ReadsSentence (stream : Slice) (n : Nat) (s : Slice) (st : Stmt) : Prop :=
  if s.startsWith .ifWord then Reaches (Answers stream n s.length) (readConditional [s]) st
  else ∃ f : Form, (∀ f', f' ≠ f → f' ≠ .expression → f'.read s = pure none) ∧
    Reaches (Answers stream n (s.length - 1)) (f.read s) (some st)

/-- The first form that does not reject a statement reads it. -/
theorem firstStatement_run {answer : (q : Question) → Parse q.Reply} {s : Slice} {f : Form}
    {st : Stmt} {σ τ : Session} (before after : List Rule)
    (hbefore : ∀ r ∈ before, r.form.read s = pure none)
    (hrun : ((f.read s).run answer).run.run σ = (.ok (some st), τ)) :
    (Parse.firstStatement answer s (before ++ f.rule :: after)).run.run σ =
      (.ok (some (f.rule, st)), τ.record (.statement f st)) := by
  induction before with
  | nil =>
    rw [List.nil_append, Parse.firstStatement, Inquiry.run_bind]
    simp only [Form.rule, hrun]
    rfl
  | cons r before ih =>
    have hnone : ((r.form.read s).run answer).run.run σ = (.ok none, σ) := by
      rw [hbefore r (List.mem_cons_self ..)]
      rfl
    rw [List.cons_append, Parse.firstStatement, Inquiry.run_bind, hnone]
    exact ih fun q hq => hbefore q (List.mem_cons_of_mem _ hq)

/-- A statement that a form reads one level deeper, and which all other forms reject, is read. -/
theorem plain_run {answer : (q : Question) → Parse q.Reply} {s : Slice} {f : Form} {st : Stmt}
    {σ τ : Session} (hs : ¬s.isEmpty = true)
    (hothers : ∀ f', f' ≠ f → f' ≠ .expression → f'.read s = pure none)
    (hroom : σ.depth < σ.options.maxNestingDepth)
    (hrun : ((f.read s).run answer).run.run { σ with depth := σ.depth + 1 } =
      (.ok (some st), τ)) :
    (Parse.sentence standard answer (.plain s)).run.run σ =
      (.ok st, { τ.record (.statement f st) with depth := τ.depth - 1 }) := by
  -- The rules in front of the one that reads reject without a question.
  obtain ⟨before, after, hrules, hbefore⟩ := exists_before_statement f
  have hfirst := firstStatement_run before after
    (fun r hr => hothers r.form (hbefore r hr).1 (hbefore r hr).2) hrun
  rw [← hrules] at hfirst
  have hnested := nested_run_of_room "parse_statement" s.tokens _ hroom hfirst
  rw [Parse.sentence, Parse.statementWith, if_neg hs, Inquiry.run_bind, hnested]
  rfl

theorem sentence_run {s : Slice} {st : Stmt} (h : ReadsSentence stream n s st)
    (hpos : 0 < s.length) {σ : Session} (hσ : σ.Recalls standard stream)
    (hroom : σ.depth + s.length ≤ σ.options.maxNestingDepth) :
    ∃ τ, (Parse.sentence standard (Parse.reply standard (Parse.blockWithin standard n))
      (Sentence.ofUnit s)).run.run σ = (.ok st, τ) ∧ σ.Continues stream τ := by
  unfold ReadsSentence at h
  unfold Sentence.ofUnit
  split
  · rename_i hif
    rw [if_pos hif] at h
    exact run_of_answers h hσ hroom
  · rename_i hif
    rw [if_neg hif] at h
    obtain ⟨f, hothers, hreaches⟩ := h
    obtain ⟨τ, hrun, hτ⟩ := run_of_answers (σ := { σ with depth := σ.depth + 1 }) hreaches hσ
      (by simp only; omega)
    have hempty : ¬s.isEmpty = true := by
      rw [s.isEmpty_iff]
      omega
    exact ⟨_, plain_run hempty hothers (by omega) hrun,
      continues_of_nested (hτ.trans ⟨hτ.recalls, rfl, rfl, rfl⟩)⟩

/-- Sentences that can be read are read one after the other. -/
theorem sentences_run {slices : List Slice} {sts : List Stmt}
    (h : List.Forall₂ (fun s st => 0 < s.length ∧ ReadsSentence stream n s st) slices sts)
    {σ : Session} (hσ : σ.Recalls standard stream)
    (hroom : ∀ s ∈ slices, σ.depth + s.length ≤ σ.options.maxNestingDepth) :
    ∃ τ, (Parse.sentences standard (Parse.reply standard (Parse.blockWithin standard n))
      (slices.map Sentence.ofUnit)).run σ = (sts, τ) ∧ σ.Continues stream τ := by
  induction h generalizing σ with
  | nil => exact ⟨σ, rfl, .refl hσ⟩
  | @cons s st slices sts h _ ih =>
    obtain ⟨τ, hrun, hτ⟩ := sentence_run h.2 h.1 hσ (hroom s (List.mem_cons_self ..))
    obtain ⟨υ, hrest, hυ⟩ := ih hτ.recalls fun q hq => by
      rw [hτ.depth, hτ.options]
      exact hroom q (List.mem_cons_of_mem _ hq)
    refine ⟨υ, ?_, hτ.trans hυ⟩
    rw [List.map_cons, Parse.sentences_cons_run, hrun]
    simp only [hrest]

/-- A block of statements that can be read is read without a problem. -/
theorem readsBlock_of_units {a : Nat} {tss : List (List Token)} {sts : List Stmt}
    (hunits : ∀ ts ∈ tss, Segment.IsUnit ts)
    (h : List.Forall₂ (fun s st => 0 < s.length ∧ ReadsSentence stream n s st)
      (Segment.slicesFrom a tss) sts) :
    ReadsBlock stream (n + 1) ⟨a, tss.flatten⟩ sts := by
  intro σ hσ hroom
  have hlen : ∀ s ∈ Segment.slicesFrom a tss, s.length ≤ tss.flatten.length := by
    clear h hunits hroom hσ
    induction tss generalizing a with
    | nil => exact fun s hs => by cases hs
    | cons ts tss ih =>
      intro s hs
      rw [List.flatten_cons, List.length_append]
      rcases List.mem_cons.mp hs with rfl | hs
      · exact Nat.le_add_right _ _
      · exact Nat.le_trans (ih s hs) (Nat.le_add_left _ _)
  obtain ⟨τ, hrun, hτ⟩ := sentences_run h hσ fun s hs => by
    have hs' := hlen s hs
    simp only [Slice.length] at hroom hs' ⊢
    omega
  refine ⟨τ, ?_, hτ⟩
  rw [← Sentence.ofSegments_divide σ.options.requireTerminators a hunits] at hrun
  have hdivide : (Parse.divide ⟨a, tss.flatten⟩).run σ =
      ((Segment.divide σ.options.requireTerminators ⟨a, tss.flatten⟩).segments, σ) := by
    -- Every statement is complete, so there is no open end to warn of.
    have hclosed : (Segment.divide σ.options.requireTerminators ⟨a, tss.flatten⟩).openEnd = none := by
      rw [Segment.divide_flatten _ a hunits]
    have hget : (get : StateM Session Session).run σ = (σ, σ) := rfl
    rw [Parse.divide, run_step, hget]
    simp only [hclosed]
    rfl
  rw [Parse.blockWithin, run_step, hdivide]
  exact hrun

end Stmt

end Prose
