import Prose.Proofs.Block.Levels

namespace Prose

open Inquiry Session

namespace Session

/-- Outside of all nesting, nothing is remembered of the tokens from index `k` on. -/
structure IsFreshFrom (o : Options) (k : Nat) (τ : Session) : Prop where
  options : τ.options = o
  depth : τ.depth = 0
  memo : ∀ q : Slice, k ≤ q.start → τ.memo.find? q = none

namespace IsFreshFrom

variable {o : Options} {k m n : Nat} {τ : Session}

theorem mono (h : IsFreshFrom o k τ) (hkm : k ≤ m) : IsFreshFrom o m τ :=
  ⟨h.options, h.depth, fun q hq => h.memo q (Nat.le_trans hkm hq)⟩

/-- A new session in which a block has been divided. -/
theorem opened (o : Options) (n k : Nat) (d : Segment.Division) :
    IsFreshFrom o k ((start o n).opened d) :=
  ⟨options_opened _ d, depth_opened _ d, fun q _ => find?_opened o n d q⟩

/-- It may begin side by side with a new session about the tokens at its index. -/
theorem parallel (h : IsFreshFrom o k τ) (n : Nat) (ts : List Token) :
    Parallel (.along k) (.ofTokens ts) (start o n) τ (start o n) τ :=
  .start_behind h.options h.depth (fun q => Memo.find?_empty q) h.memo _

end IsFreshFrom

end Session

namespace Parse

variable {g : Grammar} {o : Options} {k m n : Nat} {σ τ : Session} {ts : List Token}

section behind

/-- Reading tokens leaves unknown what stands behind them. -/
theorem find?_read {q : Slice} (hσ : ∀ q, σ.memo.find? q = none) (hq : k + ts.length ≤ q.start) :
    ((read g ⟨k, ts⟩).run.run σ).2.memo.find? q = none := by
  have hparallel : InParallel (.along k) (.ofTokens ts) (read g (.ofTokens ts)).run
      (read g (relocate (.along k) (.ofTokens ts))).run := inParallel_read (.refl _)
  have hstart : Parallel (.along k) (.ofTokens ts) σ σ σ σ :=
    .start_behind rfl rfl hσ (fun q _ => hσ q) _
  obtain ⟨-, hend⟩ := hparallel σ σ σ σ hstart
  rw [relocate_along_ofTokens] at hend
  have hbehind : (Slice.ofTokens ts).start + (Slice.ofTokens ts).length + k ≤ q.start := by
    show 0 + ts.length + k ≤ q.start
    omega
  exact (hend.memo_behind hbehind).trans (hσ q)

/-- Tokens of which nothing is remembered are read as in a new session, if there is a level for each of
them, and one more. -/
theorem block_behind (n : Nat) (hmemo : ∀ q : Slice, k ≤ q.start → τ.memo.find? q = none)
    (hroom : τ.depth + ts.length < τ.options.maxNestingDepth) :
    ∃ υ, (block g ⟨k, ts⟩).run τ = ((freshBlock g τ.options n ts).1, υ) ∧
      Session.Adds (freshBlock g τ.options n ts).2.errors.toList
        (freshBlock g τ.options n ts).2.logs.toList (k + ts.length) τ υ := by
  -- A new session at the same depth reads what a new session reads outside of all nesting.
  let σ : Session := { start τ.options n with depth := τ.depth }
  have hallows : σ.Allows τ.options.maxNestingDepth 0 := Nat.le_add_right _ _
  have hfresh : freshBlock g τ.options n ts = (((block g (.ofTokens ts)).run σ).1,
      ((block g (.ofTokens ts)).run σ).2.under τ.options.maxNestingDepth 0) :=
    block_under hroom hallows
  have hblock : InParallel (.along k) (.ofTokens ts) (block g (.ofTokens ts))
      (block g (relocate (.along k) (.ofTokens ts))) := inParallel_block (.refl _)
  have hstart : Parallel (.along k) (.ofTokens ts) σ τ σ τ := by
    apply Parallel.start_behind
    · rfl
    · rfl
    · exact fun q => Memo.find?_empty q
    · exact hmemo
  obtain ⟨hnodes, hend⟩ := hblock σ τ σ τ hstart
  rw [relocate_along_ofTokens] at hnodes hend
  rw [Stmt.relocate_along_stmts] at hnodes
  obtain ⟨ps, herrors, herrors'⟩ := hend.errors_along
  obtain ⟨es, hlogs, hlogs'⟩ := hend.logs_along
  rw [hfresh]
  refine ⟨((block g ⟨k, ts⟩).run τ).2, Prod.ext hnodes rfl, hend.options.2, hend.depth.2, ?_, ?_,
    fun q hq => ?_⟩
  · have hps : ((block g (.ofTokens ts)).run σ).2.errors.toList = ps := herrors
    show _ = τ.errors.toList ++ ((block g (.ofTokens ts)).run σ).2.errors.toList
    rw [hps, herrors']
  · have hes : ((block g (.ofTokens ts)).run σ).2.logs.toList = es := hlogs
    show _ = τ.logs.toList ++ ((block g (.ofTokens ts)).run σ).2.logs.toList
    rw [hes, hlogs']
  · apply hend.memo_behind
    show 0 + ts.length + k ≤ q.start
    omega

/-- So is a block inside, for which there must be one level more. -/
theorem reply_block_behind (origin : String) (whole : List Token) (n : Nat)
    (hmemo : ∀ q : Slice, k ≤ q.start → τ.memo.find? q = none)
    (hroom : τ.depth + ts.length + 1 < τ.options.maxNestingDepth) :
    ∃ υ, (reply g (block g) (.block origin whole ⟨k, ts⟩)).run.run τ =
        (.ok (freshBlock g τ.options n ts).1, υ) ∧
      Session.Adds (freshBlock g τ.options n ts).2.errors.toList
        (freshBlock g τ.options n ts).2.logs.toList (k + ts.length) τ υ := by
  let deeper : Session := { τ with depth := τ.depth + 1 }
  have hlevels : deeper.depth + ts.length < deeper.options.maxNestingDepth := by
    show τ.depth + 1 + ts.length < τ.options.maxNestingDepth
    omega
  obtain ⟨υ, hrun, hadds⟩ := block_behind (g := g) (τ := deeper) n hmemo hlevels
  have hlift : (block g ⟨k, ts⟩ : Parse (List Stmt)).run.run deeper =
      (.ok (freshBlock g τ.options n ts).1, υ) := by
    rw [lift_run, hrun]
  refine ⟨{ υ with depth := υ.depth - 1 }, ?_, hadds.options, congrArg (· - 1) hadds.depth,
    hadds.errors, hadds.logs, hadds.memo⟩
  have hdepth : ¬τ.options.maxNestingDepth ≤ τ.depth := by omega
  rw [reply, nested_run, if_neg hdepth, hlift]

end behind

/-- What is done in a new session is done onward. -/
theorem InParallel.run_onward {α : Type} [Relocates α] {x x' : Parse α}
    (h : InParallel (.along k) (.ofTokens ts) x.run x'.run) (hτ : IsFreshFrom o k τ) (n : Nat) :
    ∃ υ, x'.run.run τ = (relocate (.along k) (x.run.run (.start o n)).1, υ) ∧
      IsFreshFrom o (k + ts.length) υ := by
  obtain ⟨hresult, hend⟩ := h _ _ _ _ (hτ.parallel n ts)
  refine ⟨(x'.run.run τ).2, Prod.ext hresult rfl, hend.options.2, hend.depth.2, fun q hq => ?_⟩
  have hbehind : (Slice.ofTokens ts).start + (Slice.ofTokens ts).length + k ≤ q.start := by
    show 0 + ts.length + k ≤ q.start
    omega
  rw [hend.memo_behind hbehind]
  exact hτ.memo q (Nat.le_trans (Nat.le_add_right k ts.length) hq)

/-- What a new session reads is read onward. -/
theorem read_onward {r : Expr.Rule × Expr} (hτ : IsFreshFrom o k τ)
    (h : ((read g (.ofTokens ts)).run.run (.start o n)).1 = .ok (some r)) :
    ∃ υ, (read g ⟨k, ts⟩).run.run τ = (.ok (some r), υ) ∧ IsFreshFrom o (k + ts.length) υ := by
  have hparallel : InParallel (.along k) (.ofTokens ts) (read g (.ofTokens ts)).run
      (read g (relocate (.along k) (.ofTokens ts))).run := inParallel_read (.refl _)
  obtain ⟨υ, hrun, hυ⟩ := hparallel.run_onward hτ n
  have hsame : relocate (.along k) (Except.ok (some r) : Except Problem Reading) =
      .ok (some r) := by
    obtain ⟨rule, e⟩ := r
    change Except.ok (some (rule, relocate (Relocation.along k) e)) = _
    rw [Expr.relocate_along_expr]
  rw [relocate_along_ofTokens, h, hsame] at hrun
  exact ⟨υ, hrun, hυ⟩

/-- A block inside is read onward, where there is a level for each of its tokens and one more. -/
theorem reply_block_onward (origin : String) (whole : List Token) (hτ : IsFreshFrom o k τ)
    (hroom : ts.length + 1 < o.maxNestingDepth) (n : Nat) :
    ∃ υ, (reply g (block g) (.block origin whole ⟨k, ts⟩)).run.run τ =
        (.ok (freshBlock g o n ts).1, υ) ∧ IsFreshFrom o (k + ts.length) υ := by
  have hlevels : τ.depth + ts.length + 1 < τ.options.maxNestingDepth := by
    rw [hτ.depth, hτ.options]
    omega
  obtain ⟨υ, hrun, hadds⟩ := reply_block_behind (g := g) origin whole n hτ.memo hlevels
  rw [hτ.options] at hrun
  refine ⟨υ, hrun, hadds.options.trans hτ.options, hadds.depth.trans hτ.depth, fun q hq => ?_⟩
  rw [hadds.memo q hq]
  exact hτ.memo q (Nat.le_trans (Nat.le_add_right k ts.length) hq)

section comes

variable {α β : Type} {a : α} {b : β} {x : Stmt.Query α} {f : α → Stmt.Query β}

/-- From every session that is fresh from index `k` on, the inquiry comes to `a`, and the session is
then fresh from index `m` on. -/
def Comes (g : Grammar) (o : Options) (k m : Nat) (x : Stmt.Query α) (a : α) : Prop :=
  ∀ τ, IsFreshFrom o k τ → ∃ υ, (x.run (reply g (block g))).run.run τ = (.ok a, υ) ∧
    IsFreshFrom o m υ

theorem comes_pure (hkm : k ≤ m) (a : α) : Comes g o k m (pure a) a :=
  fun τ hτ => ⟨τ, rfl, hτ.mono hkm⟩

theorem Comes.mono {l j : Nat} (h : Comes g o l j x a) (hkl : k ≤ l) (hjm : j ≤ m) :
    Comes g o k m x a := by
  intro τ hτ
  obtain ⟨υ, hrun, hυ⟩ := h τ (hτ.mono hkl)
  exact ⟨υ, hrun, hυ.mono hjm⟩

theorem Comes.bind {l : Nat} (hx : Comes g o k l x a) (hf : Comes g o l m (f a) b) :
    Comes g o k m (x >>= f) b := by
  intro τ hτ
  obtain ⟨υ, hrun, hυ⟩ := hx τ hτ
  obtain ⟨ω, hrest, hω⟩ := hf υ hυ
  refine ⟨ω, ?_, hω⟩
  rw [Inquiry.run_bind_query, Inquiry.run_bind, hrun]
  exact hrest

/-- A question that is answered onward. -/
theorem comes_question {q : Stmt.Question} {r : q.Reply}
    (h : ∀ τ, IsFreshFrom o k τ → ∃ υ, (reply g (block g) q).run.run τ = (.ok r, υ) ∧
      IsFreshFrom o m υ) :
    Comes g o k m (question q) r := by
  intro τ hτ
  obtain ⟨υ, hrun, hυ⟩ := h τ hτ
  refine ⟨υ, ?_, hυ⟩
  rw [question, Inquiry.run, Inquiry.run_bind, hrun]
  rfl

end comes

end Parse

end Prose
