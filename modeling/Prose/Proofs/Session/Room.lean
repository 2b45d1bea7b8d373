import Prose.Proofs.Session

/-! One step under two limits of nesting. Where the second limit leaves at least as many levels as the
first one, the step does the same under both, unless it went beyond the first one. It can do that only
where few levels are left, and never in secret: it fails with the problem, or the problem has been
reported. -/
namespace Prose

open Inquiry

def Options.withLimit (o : Options) (limit : Nat) : Options :=
  { o with maxNestingDepth := limit }

namespace Session

def under (σ : Session) (limit depth : Nat) : Session :=
  { σ with options := σ.options.withLimit limit, depth }

/-- At the depth, the limit leaves at least as many levels as are left in the session. -/
def Allows (σ : Session) (limit depth : Nat) : Prop :=
  σ.options.maxNestingDepth + depth ≤ limit + σ.depth

structure Extends (σ τ : Session) : Prop where
  options : τ.options = σ.options
  depth : τ.depth = σ.depth
  errors : ∀ p ∈ σ.errors.toList, p ∈ τ.errors.toList

/-- On the way to the state `τ` and the result `r` nesting went beyond the limit, which left fewer than
`n` levels. -/
structure Overran {α : Type} (n : Nat) (σ τ : Session) (r : Except Problem α) : Prop where
  tight : σ.options.maxNestingDepth < σ.depth + n
  seen : FailsWith (·.code = .nestingLimit) r ∨ ∃ p ∈ τ.errors.toList, p.code = .nestingLimit

variable {α β : Type} {n m : Nat} {σ τ υ : Session} {limit depth : Nat} {r : Except Problem α}

theorem Extends.refl (σ : Session) : σ.Extends σ :=
  ⟨rfl, rfl, fun _ hp => hp⟩

theorem Extends.trans (h : σ.Extends τ) (h' : τ.Extends υ) : σ.Extends υ :=
  ⟨h'.options.trans h.options, h'.depth.trans h.depth, fun p hp => h'.errors p (h.errors p hp)⟩

theorem extends_record (σ : Session) (t : TraceRecord) : σ.Extends (σ.record t) :=
  ⟨rfl, rfl, fun _ hp => hp⟩

theorem extends_log (σ : Session) (level : LogLevel) (message : String) :
    σ.Extends (σ.log level message) :=
  ⟨rfl, rfl, fun _ hp => hp⟩

theorem extends_remember (σ : Session) (s : Slice) (r : Reading) : σ.Extends (σ.remember s r) :=
  ⟨rfl, rfl, fun _ hp => hp⟩

theorem toList_errors_report (σ : Session) (p : Problem) :
    (σ.report p).errors.toList = σ.errors.toList ++ [p] :=
  Array.toList_push

theorem extends_report (σ : Session) (p : Problem) : σ.Extends (σ.report p) := by
  refine ⟨rfl, rfl, fun q hq => ?_⟩
  rw [toList_errors_report]
  exact List.mem_append_left [p] hq

theorem Allows.of_extends (h : σ.Allows limit depth) (hτ : σ.Extends τ) : τ.Allows limit depth := by
  unfold Allows
  rw [hτ.options, hτ.depth]
  exact h

namespace Overran

theorem mono (h : Overran n σ τ r) (hnm : n ≤ m) : Overran m σ τ r :=
  ⟨Nat.lt_of_lt_of_le h.tight (Nat.add_le_add_left hnm σ.depth), h.seen⟩

/-- What went beyond the limit in a later step did so on the whole way. -/
theorem of_later (hσ : σ.Extends τ) (h : Overran n τ υ r) : Overran n σ υ r := by
  refine ⟨?_, h.seen⟩
  have htight := h.tight
  rwa [hσ.options, hσ.depth] at htight

/-- A step that went beyond the limit and did not fail reported it. Later steps do not take that
back. -/
theorem of_earlier {a : α} {r' : Except Problem β} (h : Overran n σ τ (.ok a : Except Problem α))
    (hυ : τ.Extends υ) : Overran n σ υ r' := by
  refine ⟨h.tight, .inr ?_⟩
  rcases h.seen with ⟨p, -, hp⟩ | ⟨p, hp, hcode⟩
  · cases hp
  · exact ⟨p, hυ.errors p hp, hcode⟩

/-- A failing step ends the way. -/
theorem error {p : Problem} (h : Overran n σ τ (.error p : Except Problem α)) :
    Overran n σ τ (.error p : Except Problem β) := by
  refine ⟨h.tight, h.seen.imp_left ?_⟩
  rintro ⟨p', hcode, hp⟩
  cases hp
  exact ⟨p, hcode, rfl⟩

/-- The problem that ended the way is reported behind it. -/
theorem report {p : Problem} (h : Overran n σ τ (.error p : Except Problem α)) :
    Overran n σ (τ.report p) (.ok () : Except Problem Unit) := by
  refine ⟨h.tight, .inr ?_⟩
  rw [toList_errors_report]
  rcases h.seen with ⟨p', hcode, hp⟩ | ⟨p', hp', hcode⟩
  · cases hp
    exact ⟨p, List.mem_append_right _ (List.mem_singleton_self p), hcode⟩
  · exact ⟨p', List.mem_append_left _ hp', hcode⟩

end Overran

end Session

namespace Parse

open Session

/-- The step keeps options and depth and takes no problem back. Under a limit that leaves at least as
many levels it does the same, unless it went beyond the first limit. That can happen only where fewer
than `n` levels were left. -/
structure Indifferent (n : Nat) {α : Type} (x : Parse α) : Prop where
  keeps : ∀ σ : Session, σ.Extends (x.run.run σ).2
  same : ∀ (σ : Session) (limit depth : Nat), σ.Allows limit depth →
    x.run.run (σ.under limit depth) = ((x.run.run σ).1, (x.run.run σ).2.under limit depth) ∨
      Overran n σ (x.run.run σ).2 (x.run.run σ).1

namespace Indifferent

variable {α β : Type} {n m : Nat}

theorem mono {x : Parse α} (h : Indifferent n x) (hnm : n ≤ m) : Indifferent m x :=
  ⟨h.keeps, fun σ limit depth hroom => (h.same σ limit depth hroom).imp_right fun hdeep =>
    hdeep.mono hnm⟩

theorem pure (n : Nat) (a : α) : Indifferent n (Pure.pure a : Parse α) :=
  ⟨fun σ => .refl σ, fun _ _ _ _ => .inl rfl⟩

theorem throw (n : Nat) (p : Problem) : Indifferent n (throw p : Parse α) :=
  ⟨fun σ => .refl σ, fun _ _ _ _ => .inl rfl⟩

theorem bind {x : Parse α} {f : α → Parse β} (hx : Indifferent n x)
    (hf : ∀ a, Indifferent n (f a)) : Indifferent n (x >>= f) := by
  constructor
  · intro σ
    have hfirst := hx.keeps σ
    rw [run_bind]
    generalize x.run.run σ = first at hfirst
    obtain ⟨p | a, τ⟩ := first
    · exact hfirst
    · exact hfirst.trans ((hf a).keeps τ)
  · intro σ limit depth hroom
    have hfirst := hx.keeps σ
    have hsame := hx.same σ limit depth hroom
    rw [run_bind, run_bind]
    generalize x.run.run σ = first at hfirst hsame
    obtain ⟨p | a, τ⟩ := first
    · rcases hsame with hsame | hdeep
      · rw [hsame]
        exact .inl rfl
      · exact .inr hdeep.error
    · rcases hsame with hsame | hdeep
      · rw [hsame]
        have hrest := (hf a).same τ limit depth (hroom.of_extends hfirst)
        exact hrest.imp_right fun hdeep => .of_later hfirst hdeep
      · exact .inr (hdeep.of_earlier ((hf a).keeps τ))

/-- A step that reports the problem of another one, and goes on without it. -/
theorem recover {x : Parse α} {f : α → Parse β} {rest y : Parse β} (hx : Indifferent n x)
    (hf : ∀ a, Indifferent n (f a)) (hrest : Indifferent n rest)
    (hy : ∀ σ, y.run.run σ =
      match x.run.run σ with
      | (.ok a, τ) => (f a).run.run τ
      | (.error p, τ) => rest.run.run (τ.report p)) :
    Indifferent n y := by
  constructor
  · intro σ
    have hfirst := hx.keeps σ
    rw [hy]
    generalize x.run.run σ = first at hfirst
    obtain ⟨p | a, τ⟩ := first
    · exact (hfirst.trans (extends_report τ p)).trans (hrest.keeps (τ.report p))
    · exact hfirst.trans ((hf a).keeps τ)
  · intro σ limit depth hroom
    have hfirst := hx.keeps σ
    have hsame := hx.same σ limit depth hroom
    rw [hy, hy]
    generalize x.run.run σ = first at hfirst hsame
    obtain ⟨p | a, τ⟩ := first
    · -- The problem that is reported is one more that the rest begins with.
      have hreported := hfirst.trans (extends_report τ p)
      rcases hsame with hsame | hdeep
      · rw [hsame]
        have hlater := hrest.same (τ.report p) limit depth (hroom.of_extends hreported)
        exact hlater.imp_right fun hdeep => .of_later hreported hdeep
      · exact .inr (hdeep.report.of_earlier (hrest.keeps (τ.report p)))
    · rcases hsame with hsame | hdeep
      · rw [hsame]
        have hlater := (hf a).same τ limit depth (hroom.of_extends hfirst)
        exact hlater.imp_right fun hdeep => .of_later hfirst hdeep
      · exact .inr (hdeep.of_earlier ((hf a).keeps τ))

/-- A change of the session that does not look at the limit. -/
theorem modify {f : Session → Session} (hkeeps : ∀ σ : Session, σ.Extends (f σ))
    (hsame : ∀ (σ : Session) (limit depth : Nat),
      f (σ.under limit depth) = (f σ).under limit depth) :
    Indifferent n (MonadStateOf.modifyGet fun σ => ((), f σ) : Parse Unit) := by
  refine ⟨hkeeps, fun σ limit depth _ => .inl ?_⟩
  exact congrArg (Prod.mk (Except.ok ())) (hsame σ limit depth)

/-- A step may look at everything in its session but the limit and the depth. -/
theorem of_session {x : Parse β} {f : Session → Parse β} (hf : ∀ σ : Session, Indifferent n (f σ))
    (hsame : ∀ (σ : Session) (limit depth : Nat), f (σ.under limit depth) = f σ)
    (hx : ∀ σ : Session, x.run.run σ = (f σ).run.run σ) : Indifferent n x := by
  constructor
  · intro σ
    rw [hx]
    exact (hf σ).keeps σ
  · intro σ limit depth hroom
    rw [hx, hx, hsame]
    exact (hf σ).same σ limit depth hroom

/-- One level deeper there is one level less. -/
theorem nested (origin : String) (tokens : List Token) {x : Parse α} (h : Indifferent n x) :
    Indifferent (n + 1) (nested origin tokens x) := by
  constructor
  · intro σ
    rw [nested_run]
    split
    · exact .refl σ
    · have hdeeper := h.keeps { σ with depth := σ.depth + 1 }
      exact ⟨hdeeper.options, congrArg (· - 1) hdeeper.depth, hdeeper.errors⟩
  · intro σ limit depth hroom
    have hlevels : σ.options.maxNestingDepth + depth ≤ limit + σ.depth := hroom
    rw [nested_run, nested_run]
    by_cases hdeep : σ.options.maxNestingDepth ≤ σ.depth
    · rw [if_pos hdeep]
      exact .inr ⟨by omega, .inl ⟨_, rfl, rfl⟩⟩
    · have hdeep' : ¬ (σ.under limit depth).options.maxNestingDepth ≤
          (σ.under limit depth).depth := by
        change ¬ limit ≤ depth
        omega
      rw [if_neg hdeep, if_neg hdeep']
      have hdeeper : ({ σ with depth := σ.depth + 1 } : Session).Allows limit (depth + 1) := by
        change σ.options.maxNestingDepth + (depth + 1) ≤ limit + (σ.depth + 1)
        omega
      rcases h.same _ limit (depth + 1) hdeeper with hsame | ⟨htight, hseen⟩
      · -- Both sessions take back the level.
        refine .inl ?_
        change ((x.run.run (({ σ with depth := σ.depth + 1 } : Session).under limit (depth + 1))).1,
          { (x.run.run (({ σ with depth := σ.depth + 1 } : Session).under limit (depth + 1))).2 with
            depth := (x.run.run
              (({ σ with depth := σ.depth + 1 } : Session).under limit (depth + 1))).2.depth - 1 }) = _
        rw [hsame]
        rfl
      · refine .inr ⟨?_, hseen⟩
        have htight' : σ.options.maxNestingDepth < σ.depth + 1 + n := htight
        omega

end Indifferent

end Parse

end Prose
