import Prose.Proofs.Session.Room

namespace Prose

open Inquiry

def Options.requiring (o : Options) (requireTerminators : Bool) : Options :=
  { o with requireTerminators }

/-- The entry is the warning of a last statement without its closing `.` -/
def LogEntry.IsOpenEnd (e : LogEntry) : Prop :=
  ∃ p : Position, e = ⟨.warning, p.render ++ ": statement is missing its closing `.`"⟩

namespace Session

def strictly (σ : Session) : Session :=
  { σ with options := σ.options.requiring true }

/-- The options are those of the earlier state, and no problem and no log entry is taken back. -/
structure Retains (σ τ : Session) : Prop where
  options : τ.options = σ.options
  errors : ∀ p ∈ σ.errors.toList, p ∈ τ.errors.toList
  logs : ∀ e ∈ σ.logs.toList, e ∈ τ.logs.toList

/-- A last statement misses its closing `.`, and both sessions say so: `σ`, in which it is not asked
for, and `τ`, in which it is. -/
structure BothTell (σ τ : Session) : Prop where
  warned : ∃ e ∈ σ.logs.toList, e.IsOpenEnd
  reported : ∃ p ∈ τ.errors.toList, p.cause = .blocks .withoutTerminator

variable {σ σ' τ τ' υ : Session}

theorem Retains.refl (σ : Session) : σ.Retains σ :=
  ⟨rfl, fun _ hp => hp, fun _ he => he⟩

theorem Retains.trans (h : σ.Retains τ) (h' : τ.Retains υ) : σ.Retains υ :=
  ⟨h'.options.trans h.options, fun p hp => h'.errors p (h.errors p hp),
    fun e he => h'.logs e (h.logs e he)⟩

theorem retains_record (σ : Session) (t : TraceRecord) : σ.Retains (σ.record t) :=
  ⟨rfl, fun _ hp => hp, fun _ he => he⟩

theorem retains_remember (σ : Session) (s : Slice) (r : Reading) : σ.Retains (σ.remember s r) :=
  ⟨rfl, fun _ hp => hp, fun _ he => he⟩

theorem toList_logs_log (σ : Session) (level : LogLevel) (message : String) :
    (σ.log level message).logs.toList = σ.logs.toList ++ [⟨level, message⟩] :=
  Array.toList_push

theorem retains_log (σ : Session) (level : LogLevel) (message : String) :
    σ.Retains (σ.log level message) := by
  refine ⟨rfl, fun _ hp => hp, fun e he => ?_⟩
  rw [toList_logs_log]
  exact List.mem_append_left _ he

theorem retains_report (σ : Session) (p : Problem) : σ.Retains (σ.report p) :=
  ⟨rfl, (extends_report σ p).errors, fun _ he => he⟩

/-- What has been told is not taken back. -/
theorem BothTell.of_retains (h : BothTell σ τ) (hσ : σ.Retains σ') (hτ : τ.Retains τ') :
    BothTell σ' τ' := by
  obtain ⟨⟨e, he, hopen⟩, p, hp, hcause⟩ := h
  exact ⟨⟨e, hσ.logs e he, hopen⟩, p, hτ.errors p hp, hcause⟩

end Session

namespace Parse

open Session

/-- The step takes nothing back. It does the same whether the closing `.` of a last statement is
asked for or not, unless in the one session there has been a warning and in the other a problem. -/
structure Agrees {α : Type} (x : Parse α) : Prop where
  retains : ∀ σ : Session, σ.Retains (x.run.run σ).2
  same : ∀ σ : Session, σ.options.requireTerminators = false →
    x.run.run σ.strictly = ((x.run.run σ).1, (x.run.run σ).2.strictly) ∨
      BothTell (x.run.run σ).2 (x.run.run σ.strictly).2

namespace Agrees

variable {α β : Type}

theorem pure (a : α) : Agrees (Pure.pure a : Parse α) :=
  ⟨fun σ => .refl σ, fun _ _ => .inl rfl⟩

theorem throw (p : Problem) : Agrees (throw p : Parse α) :=
  ⟨fun σ => .refl σ, fun _ _ => .inl rfl⟩

/-- A step that goes on from the result of another one, also if this is a problem. -/
theorem of_first {x : Parse α} {y : Parse β} {f : α → Parse β} {k : Problem → Parse β}
    (hx : Agrees x) (hf : ∀ a, Agrees (f a)) (hk : ∀ p, Agrees (k p))
    (hy : ∀ σ, y.run.run σ =
      match x.run.run σ with
      | (.ok a, τ) => (f a).run.run τ
      | (.error p, τ) => (k p).run.run τ) :
    Agrees y := by
  have hrest (σ : Session) : (x.run.run σ).2.Retains (y.run.run σ).2 := by
    rw [hy]
    obtain ⟨p | a, τ⟩ := x.run.run σ
    · exact (hk p).retains τ
    · exact (hf a).retains τ
  refine ⟨fun σ => (hx.retains σ).trans (hrest σ), fun σ hσ => ?_⟩
  rcases hx.same σ hσ with hsame | htold
  -- The next step starts in two sessions that differ in the option only.
  · have hfirst := hx.retains σ
    rw [hy σ, hy σ.strictly, hsame]
    generalize x.run.run σ = first at hfirst
    obtain ⟨p | a, τ⟩ := first
    all_goals
      have hτ : τ.options.requireTerminators = false :=
        (congrArg Options.requireTerminators hfirst.options).trans hσ
    · exact (hk p).same τ hτ
    · exact (hf a).same τ hτ
  · exact .inr (htold.of_retains (hrest σ) (hrest σ.strictly))

theorem bind {x : Parse α} {f : α → Parse β} (hx : Agrees x) (hf : ∀ a, Agrees (f a)) :
    Agrees (x >>= f) := by
  apply hx.of_first hf .throw
  intro σ
  rw [run_bind]
  obtain ⟨p | a, τ⟩ := x.run.run σ <;> rfl

/-- A change of the session that does not look at the option. -/
theorem modify {f : Session → Session} (hretains : ∀ σ : Session, σ.Retains (f σ))
    (hsame : ∀ σ : Session, f σ.strictly = (f σ).strictly) :
    Agrees (MonadStateOf.modifyGet fun σ => ((), f σ) : Parse Unit) :=
  ⟨hretains, fun σ _ => .inl (congrArg (Prod.mk (Except.ok ())) (hsame σ))⟩

/-- A step may look at everything in its session but the option. -/
theorem get_bind {f : Session → Parse β} (hf : ∀ σ : Session, Agrees (f σ))
    (hsame : ∀ σ : Session, f σ.strictly = f σ) : Agrees (get >>= f : Parse β) := by
  refine ⟨fun σ => (hf σ).retains σ, fun σ hσ => ?_⟩
  change (f σ.strictly).run.run σ.strictly = (((f σ).run.run σ).1, ((f σ).run.run σ).2.strictly) ∨
    BothTell ((f σ).run.run σ).2 ((f σ.strictly).run.run σ.strictly).2
  rw [hsame]
  exact (hf σ).same σ hσ

/-- The option changes nothing about depth and limit. -/
theorem nested (origin : String) (tokens : List Token) {x : Parse α} (h : Agrees x) :
    Agrees (nested origin tokens x) := by
  constructor
  · intro σ
    rw [nested_run]
    split
    · exact .refl σ
    · have hdeeper := h.retains { σ with depth := σ.depth + 1 }
      exact ⟨hdeeper.options, hdeeper.errors, hdeeper.logs⟩
  · intro σ hσ
    rw [nested_run, nested_run]
    have hlimit : σ.strictly.options.maxNestingDepth ≤ σ.strictly.depth ↔
        σ.options.maxNestingDepth ≤ σ.depth := Iff.rfl
    by_cases hdeep : σ.options.maxNestingDepth ≤ σ.depth
    · rw [if_pos hdeep, if_pos (hlimit.mpr hdeep)]
      exact .inl rfl
    · rw [if_neg hdeep, if_neg (hlimit.not.mpr hdeep)]
      rcases h.same { σ with depth := σ.depth + 1 } hσ with hsame | htold
      · refine .inl ?_
        -- Both sessions take back the level.
        change ((x.run.run ({ σ with depth := σ.depth + 1 } : Session).strictly).1,
          { (x.run.run ({ σ with depth := σ.depth + 1 } : Session).strictly).2 with
            depth := (x.run.run ({ σ with depth := σ.depth + 1 } : Session).strictly).2.depth - 1 }) = _
        rw [hsame]
        rfl
      · exact .inr ⟨htold.warned, htold.reported⟩

/-- An inquiry does the same if the answers do. -/
theorem run {Q : Type} {R : Q → Type} {answer : (q : Q) → Parse (R q)}
    (h : ∀ q, Agrees (answer q)) (x : Inquiry Q R α) : Agrees (x.run answer) := by
  induction x with
  | done a => exact .pure a
  | fail p => exact .throw p
  | ask q next ih => exact (h q).bind ih

end Agrees

section readings

variable {g : Grammar}

theorem agrees_firstReading {s : Slice} {answer : Slice → Parse Reading}
    (h : ∀ q, Agrees (answer q)) (rules : List Expr.Rule) :
    Agrees (firstReading answer s rules) := by
  induction rules with
  | nil => exact .pure _
  | cons rule rules ih =>
    apply Agrees.bind (.run h _)
    intro r
    cases r with
    | none => exact ih
    | some e =>
      apply Agrees.bind
      · exact .modify (fun σ => retains_record σ _) fun _ => rfl
      · intro _
        exact .pure _

/-- The reading of a slice has no use for the option. -/
theorem agrees_readWithin (k : Nat) (s : Slice) : Agrees (readWithin g k s) := by
  induction k generalizing s with
  | zero => exact .pure _
  | succ k ih =>
    have hfirst := agrees_firstReading (s := s) ih g.expressions
    rw [readWithin]
    split
    · exact .pure _
    · apply Agrees.get_bind
      · intro σ
        cases σ.memo.find? s with
        | some r => exact .pure _
        | none =>
          apply Agrees.bind (hfirst.nested "parse_expression" s.tokens)
          intro r
          apply Agrees.bind
          · exact .modify (fun σ => retains_remember σ s r) fun _ => rfl
          · intro _
            exact .pure _
      · exact fun _ => rfl

end readings

end Parse

end Prose
