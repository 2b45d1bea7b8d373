import Prose.Expr.Cascade
import Prose.Proofs.Expr.Outcome

namespace Prose

namespace Session

/-- Two sessions differ at most in what they remember and trace. -/
structure Alike (σ τ : Session) : Prop where
  options : τ.options = σ.options
  observers : τ.observers = σ.observers
  depth : τ.depth = σ.depth
  errors : τ.errors = σ.errors
  logs : τ.logs = σ.logs
  deliveries : τ.deliveries = σ.deliveries

theorem Alike.refl (σ : Session) : σ.Alike σ :=
  ⟨rfl, rfl, rfl, rfl, rfl, rfl⟩

theorem Alike.trans {σ τ υ : Session} (h : σ.Alike τ) (h' : τ.Alike υ) : σ.Alike υ :=
  ⟨h'.options.trans h.options, h'.observers.trans h.observers, h'.depth.trans h.depth,
    h'.errors.trans h.errors, h'.logs.trans h.logs, h'.deliveries.trans h.deliveries⟩

/-- A step one level deeper that leaves no trace leaves none around it, not even the level. -/
theorem Alike.leave {σ τ : Session} (h : ({ σ with depth := σ.depth + 1 } : Session).Alike τ) :
    σ.Alike { τ with depth := τ.depth - 1 } :=
  ⟨h.options, h.observers, congrArg (· - 1) h.depth, h.errors, h.logs, h.deliveries⟩

/-- What the session remembers of the parts of a stream is what the cascade makes of them. -/
def Recalls (g : Grammar) (stream : Slice) (σ : Session) : Prop :=
  ∀ s : Slice, s.IsPartOf stream → ∀ r, σ.memo.find? s = some r → g.outcome s = .ok r

theorem recalls_start (g : Grammar) (stream : Slice) (o : Options) (n : Nat) :
    (start o n).Recalls g stream := by
  intro s _ r h
  simp [start] at h

theorem Recalls.remember {g : Grammar} {stream s : Slice} {σ : Session} {r : Reading}
    (h : σ.Recalls g stream) (hs : s.IsPartOf stream) (hr : g.outcome s = .ok r) :
    (σ.remember s r).Recalls g stream := by
  intro q hq r' hr'
  simp only [Session.remember, Memo.find?_insert] at hr'
  split at hr'
  · rename_i hkey
    obtain ⟨hstart, hlength⟩ := Prod.ext_iff.mp hkey
    rw [← hs.eq_of_key hq hstart hlength, hr]
    exact congrArg _ (Option.some.inj hr')
  · exact h q hq r' hr'

end Session

namespace Parse

open Session

variable {g : Grammar} {stream : Slice}

/-- Trying the rules in a session comes to the first verdict. -/
theorem firstReading_run (answer : Slice → Parse Reading) (reply : Slice → Except Problem Reading)
    (E : Problem → Prop) {s : Slice} (σ₀ : Session)
    (h : ∀ q : Slice, q.IsStrictPartOf s → ∀ σ, σ.Recalls g stream ∧ σ₀.Alike σ →
      ∃ r τ, (answer q).run.run σ = (r, τ) ∧ (τ.Recalls g stream ∧ σ₀.Alike τ) ∧
        (r = reply q ∨ ∃ p, E p ∧ r = .error p))
    (rules : List Expr.Rule) {σ : Session} (hσ : σ.Recalls g stream ∧ σ₀.Alike σ) :
    ∃ r τ, (firstReading answer s rules).run.run σ = (r, τ) ∧
      (τ.Recalls g stream ∧ σ₀.Alike τ) ∧
      (r = firstVerdict (fun f => (f.read s).resolve reply) rules ∨ ∃ p, E p ∧ r = .error p) := by
  induction rules generalizing σ with
  | nil => exact ⟨_, σ, rfl, hσ, .inl rfl⟩
  | cons rule rules ih =>
    obtain ⟨r, τ, hr, hτ, he⟩ := Inquiry.run_resolve answer reply h (Expr.asks_form rule.form s) hσ
    rw [firstReading, Inquiry.run_bind, hr, firstVerdict]
    rcases he with he | ⟨p, hp, rfl⟩
    · rw [← he]
      rcases r with p | _ | e
      · exact ⟨_, τ, rfl, hτ, .inl rfl⟩
      · exact ih hτ
      · exact ⟨_, τ.record (.reading (Memo.key s) rule.form e), rfl,
          ⟨hτ.1, hτ.2.trans ⟨rfl, rfl, rfl, rfl, rfl, rfl⟩⟩, .inl rfl⟩
    · exact ⟨_, τ, rfl, hτ, .inr ⟨p, hp, rfl⟩⟩

/-- A step one level deeper, as the session around it sees it. -/
theorem nested_run {α : Type} (origin : String) (tokens : List Token) (step : Parse α)
    (σ : Session) :
    (nested origin tokens step).run.run σ =
      if σ.options.maxNestingDepth ≤ σ.depth then
        (.error (tooDeep σ.options.maxNestingDepth origin tokens), σ)
      else
        ((step.run.run { σ with depth := σ.depth + 1 }).1,
          { (step.run.run { σ with depth := σ.depth + 1 }).2 with
            depth := (step.run.run { σ with depth := σ.depth + 1 }).2.depth - 1 }) := by
  simp only [nested, ExceptT.run_mk]
  by_cases hdepth : σ.options.maxNestingDepth ≤ σ.depth
  · rw [if_pos hdepth]
    exact if_pos hdepth
  · rw [if_neg hdepth]
    exact if_neg hdepth

section steps

variable {n : Nat} {s : Slice} {σ τ : Session}

/-- Without tokens there is nothing to read. -/
theorem readWithin_empty (he : s.isEmpty = true) (n : Nat) (σ : Session) :
    (readWithin g n s).run.run σ = (.ok none, σ) := by
  cases n with
  | zero => rfl
  | succ n =>
    rw [readWithin, if_pos he]
    rfl

variable (he : ¬s.isEmpty = true)
include he

/-- What is remembered of a slice is not read again. -/
theorem readWithin_remembered {r : Reading} (hfind : σ.memo.find? s = some r) :
    (readWithin g (n + 1) s).run.run σ = (.ok r, σ) := by
  have hget : (get : Parse Session).run.run σ = (.ok σ, σ) := rfl
  rw [readWithin, if_neg he, Inquiry.run_bind, hget]
  simp only [hfind]
  rfl

variable (hfind : σ.memo.find? s = none)
include hfind

/-- The rules are tried one level deeper, and what comes of them is remembered. -/
theorem readWithin_forgotten :
    (readWithin g (n + 1) s).run.run σ =
      (nested "parse_expression" s.tokens (firstReading (readWithin g n) s g.expressions) >>=
        fun r => modify (·.remember s r) >>= fun _ => pure r : Parse Reading).run.run σ := by
  have hget : (get : Parse Session).run.run σ = (.ok σ, σ) := rfl
  rw [readWithin, if_neg he, Inquiry.run_bind, hget]
  simp only [hfind]

/-- At the limit a slice is not read. -/
theorem readWithin_tooDeep (hdeep : σ.options.maxNestingDepth ≤ σ.depth) :
    (readWithin g (n + 1) s).run.run σ =
      (.error (tooDeep σ.options.maxNestingDepth "parse_expression" s.tokens), σ) := by
  rw [readWithin_forgotten he hfind, Inquiry.run_bind, nested_run, if_pos hdeep]

variable (hdeep : ¬σ.options.maxNestingDepth ≤ σ.depth)
include hdeep

theorem readWithin_deeper_ok {r : Reading}
    (hfirst : (firstReading (readWithin g n) s g.expressions).run.run
      { σ with depth := σ.depth + 1 } = (.ok r, τ)) :
    (readWithin g (n + 1) s).run.run σ =
      (.ok r, ({ τ with depth := τ.depth - 1 } : Session).remember s r) := by
  rw [readWithin_forgotten he hfind, Inquiry.run_bind, nested_run, if_neg hdeep, hfirst]
  rfl

/-- A problem is not remembered. -/
theorem readWithin_deeper_error {p : Problem}
    (hfirst : (firstReading (readWithin g n) s g.expressions).run.run
      { σ with depth := σ.depth + 1 } = (.error p, τ)) :
    (readWithin g (n + 1) s).run.run σ = (.error p, { τ with depth := τ.depth - 1 }) := by
  rw [readWithin_forgotten he hfind, Inquiry.run_bind, nested_run, if_neg hdeep, hfirst]

end steps

/-- What reading a slice does to a session. Without tokens there is nothing to read; what is remembered
is given again; at the limit the slice is too deep; and else the rules are tried one level deeper, where
only a reading is remembered. -/
inductive ReadStep (g : Grammar) (n : Nat) (s : Slice) (σ : Session) :
    Except Problem Reading × Session → Prop
  | empty (he : s.isEmpty = true) : ReadStep g n s σ (.ok none, σ)
  | remembered {r : Reading} (he : ¬s.isEmpty = true) (hfind : σ.memo.find? s = some r) :
      ReadStep g n s σ (.ok r, σ)
  | tooDeep (he : ¬s.isEmpty = true) (hfind : σ.memo.find? s = none)
      (hdeep : σ.options.maxNestingDepth ≤ σ.depth) :
      ReadStep g n s σ
        (.error (Parse.tooDeep σ.options.maxNestingDepth "parse_expression" s.tokens), σ)
  | failed {p : Problem} {τ : Session} (he : ¬s.isEmpty = true) (hfind : σ.memo.find? s = none)
      (hdeep : ¬σ.options.maxNestingDepth ≤ σ.depth)
      (hfirst : (firstReading (readWithin g n) s g.expressions).run.run
        { σ with depth := σ.depth + 1 } = (.error p, τ)) :
      ReadStep g n s σ (.error p, { τ with depth := τ.depth - 1 })
  | completed {r : Reading} {τ : Session} (he : ¬s.isEmpty = true) (hfind : σ.memo.find? s = none)
      (hdeep : ¬σ.options.maxNestingDepth ≤ σ.depth)
      (hfirst : (firstReading (readWithin g n) s g.expressions).run.run
        { σ with depth := σ.depth + 1 } = (.ok r, τ)) :
      ReadStep g n s σ (.ok r, ({ τ with depth := τ.depth - 1 } : Session).remember s r)

theorem readStep (g : Grammar) (n : Nat) (s : Slice) (σ : Session) :
    ReadStep g n s σ ((readWithin g (n + 1) s).run.run σ) := by
  by_cases he : s.isEmpty = true
  · rw [readWithin_empty he]
    exact .empty he
  cases hfind : σ.memo.find? s with
  | some r =>
    rw [readWithin_remembered he hfind]
    exact .remembered he hfind
  | none =>
    by_cases hdeep : σ.options.maxNestingDepth ≤ σ.depth
    · rw [readWithin_tooDeep he hfind hdeep]
      exact .tooDeep he hfind hdeep
    rcases hfirst : (firstReading (readWithin g n) s g.expressions).run.run
      { σ with depth := σ.depth + 1 } with ⟨p | r, τ⟩
    · rw [readWithin_deeper_error he hfind hdeep hfirst]
      exact .failed he hfind hdeep hfirst
    · rw [readWithin_deeper_ok he hfind hdeep hfirst]
      exact .completed he hfind hdeep hfirst

/-- The problems that a reading may end with beside its outcome: nesting beyond the limit, unless
the limit leaves room for every token. -/
def OutOfRoom (σ : Session) (s : Slice) (p : Problem) : Prop :=
  σ.options.maxNestingDepth < σ.depth + s.length ∧
    ∃ origin tokens, p = tooDeep σ.options.maxNestingDepth origin tokens

/-- The parts of a slice have as much room one level deeper. -/
theorem OutOfRoom.of_part {σ σ' : Session} {q s : Slice} {p : Problem}
    (h : OutOfRoom σ' q p) (hσ : ({ σ with depth := σ.depth + 1 } : Session).Alike σ')
    (hq : q.length < s.length) : OutOfRoom σ s p := by
  obtain ⟨hroom, origin, tokens, rfl⟩ := h
  have hdepth : σ'.depth = σ.depth + 1 := hσ.depth
  rw [hσ.options, hdepth] at hroom
  refine ⟨?_, origin, tokens, by rw [hσ.options]⟩
  simp only at hroom
  omega

/-- A slice is read as the cascade reads it, whatever the session has read before. -/
theorem readWithin_run {n : Nat} {s : Slice} (hn : s.length ≤ n) (hs : s.IsPartOf stream)
    {σ : Session} (hσ : σ.Recalls g stream) :
    ∃ r τ, (readWithin g n s).run.run σ = (r, τ) ∧ (τ.Recalls g stream ∧ σ.Alike τ) ∧
      (r = g.outcome s ∨ ∃ p, OutOfRoom σ s p ∧ r = .error p) := by
  induction n generalizing s σ with
  | zero =>
    have he : s.isEmpty = true := s.isEmpty_iff.mpr (Nat.le_zero.mp hn)
    exact ⟨_, σ, readWithin_empty he 0 σ, ⟨hσ, .refl σ⟩, .inl (g.outcome_of_isEmpty he).symm⟩
  | succ n ih =>
    -- One level deeper every part is read as the cascade reads it, by induction.
    obtain ⟨r, τ, hrun, ⟨hτ, halike⟩, hr⟩ :=
      firstReading_run (readWithin g n) g.outcome (OutOfRoom σ s) { σ with depth := σ.depth + 1 }
        (fun q hq σ' hσ' => by
          have hlt : q.length < s.length := hq.2
          obtain ⟨r, τ, hrun, ⟨hτ, halike⟩, hr⟩ :=
            ih (Nat.le_of_lt_succ (Nat.lt_of_lt_of_le hlt hn)) (hq.1.trans hs) hσ'.1
          refine ⟨r, τ, hrun, ⟨hτ, hσ'.2.trans halike⟩, ?_⟩
          exact hr.imp_right fun ⟨p, hp, hrp⟩ => ⟨p, hp.of_part hσ'.2 hlt, hrp⟩)
        g.expressions (σ := { σ with depth := σ.depth + 1 }) ⟨hσ, .refl _⟩
    have hverdict (he : ¬s.isEmpty = true) :
        firstVerdict (fun f => (f.read s).resolve g.outcome) g.expressions = g.outcome s :=
      (g.outcome_eq_firstVerdict (s.length_pos_of_not_isEmpty he)).symm
    have hstep := readStep g n s σ
    generalize (readWithin g (n + 1) s).run.run σ = out at hstep
    cases hstep with
    | empty he => exact ⟨_, σ, rfl, ⟨hσ, .refl σ⟩, .inl (g.outcome_of_isEmpty he).symm⟩
    | remembered _ hfind => exact ⟨_, σ, rfl, ⟨hσ, .refl σ⟩, .inl (hσ s hs _ hfind).symm⟩
    | tooDeep he _ hdeep =>
      have hpos := s.length_pos_of_not_isEmpty he
      exact ⟨_, σ, rfl, ⟨hσ, .refl σ⟩, .inr ⟨_, ⟨by omega, _, _, rfl⟩, rfl⟩⟩
    | failed he _ _ hfirst =>
      cases hrun.symm.trans hfirst
      rw [hverdict he] at hr
      exact ⟨_, _, rfl, ⟨hτ, halike.leave⟩, hr⟩
    | completed he _ _ hfirst =>
      cases hrun.symm.trans hfirst
      rw [hverdict he] at hr
      obtain hr | ⟨p, -, hr⟩ := hr
      · exact ⟨_, _, rfl, ⟨Recalls.remember (σ := { τ with depth := τ.depth - 1 }) hτ hs hr.symm,
          halike.leave.trans ⟨rfl, rfl, rfl, rfl, rfl, rfl⟩⟩, .inl hr⟩
      · cases hr

/-- What a session reads is what the cascade reads, at any depth and after any readings. -/
theorem outcome_of_read {s : Slice} (hs : s.IsPartOf stream) {σ : Session}
    (hσ : σ.Recalls g stream) {r : Reading} (h : ((read g s).run.run σ).1 = .ok r) :
    g.outcome s = .ok r := by
  obtain ⟨r', τ, hrun, -, hr⟩ := readWithin_run (Nat.le_refl s.length) hs hσ
  have hresult : ((read g s).run.run σ).1 = r' := congrArg Prod.fst hrun
  rw [hresult] at h
  rcases hr with hr | ⟨p, -, hr⟩
  · rw [← hr, h]
  · rw [hr] at h
    cases h

/-- Under a limit that leaves room for every token a slice is read as the cascade reads it. -/
theorem read_run {s : Slice} (hs : s.IsPartOf stream) {σ : Session}
    (hσ : σ.Recalls g stream) (hroom : σ.depth + s.length ≤ σ.options.maxNestingDepth) :
    ∃ τ, (read g s).run.run σ = (g.outcome s, τ) ∧ τ.Recalls g stream ∧ σ.Alike τ := by
  obtain ⟨r, τ, hrun, ⟨hτ, halike⟩, rfl | ⟨p, ⟨hp, -⟩, -⟩⟩ :=
    readWithin_run (Nat.le_refl _) hs hσ
  · exact ⟨τ, hrun, hτ, halike⟩
  · omega

/-- A form run alone under such a limit comes to its verdict. -/
theorem form_run {s : Slice} (hs : s.IsPartOf stream) (f : Expr.Form) {σ : Session}
    (hσ : σ.Recalls g stream) (hroom : σ.depth + s.length ≤ σ.options.maxNestingDepth) :
    ∃ τ, ((f.read s).run (read g)).run.run σ = (g.verdict f s, τ) ∧ τ.Recalls g stream ∧
      σ.Alike τ := by
  obtain ⟨r, τ, hrun, ⟨hτ, halike⟩, rfl | ⟨p, hp, -⟩⟩ :=
    Inquiry.run_resolve (I := fun τ => τ.Recalls g stream ∧ σ.Alike τ) (E := fun _ => False)
      (read g) g.outcome
      (fun q hq σ' hσ' => by
        have hlt : q.length < s.length := hq.2
        have hroom' : σ'.depth + q.length ≤ σ'.options.maxNestingDepth := by
          rw [hσ'.2.depth, hσ'.2.options]
          omega
        obtain ⟨τ, hrun, hτ, halike⟩ := read_run (hq.1.trans hs) hσ'.1 hroom'
        exact ⟨_, τ, hrun, ⟨hτ, hσ'.2.trans halike⟩, .inl rfl⟩)
      (Expr.asks_form f s) ⟨hσ, .refl σ⟩
  · exact ⟨τ, hrun, hτ, halike⟩
  · exact hp.elim

end Parse

end Prose
