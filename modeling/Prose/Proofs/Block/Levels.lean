import Prose.Proofs.Block.Blame
import Prose.Proofs.Session.Levels

namespace Prose

open Inquiry Session

namespace Parse

variable {g : Grammar}

section blocks

/-- A step that cannot fail, taken as one that may. -/
theorem lift_run {α : Type} (x : StateM Session α) (σ : Session) :
    (x : Parse α).run.run σ = (.ok (x.run σ).1, (x.run σ).2) := rfl

variable {block : Slice → StateM Session (List Stmt)}

theorem needsAtMost_warn (n : Nat) (message : String) :
    NeedsAtMost n (warn message : Parse Unit) :=
  .modify (fun σ => extends_log σ _ _) (fun _ _ _ => rfl) fun _ => rfl

def BlocksNeed (block : Slice → StateM Session (List Stmt)) : Prop :=
  ∀ inner : Slice, NeedsAtMost (inner.length + 1) (block inner : Parse (List Stmt))

variable (hblock : BlocksNeed block)
include hblock

theorem needsAtMost_reply {n : Nat} {q : Stmt.Question}
    (h : match q with
      | .reading part => part.length ≤ n
      | .block _ _ inner => inner.length + 2 ≤ n
      | .unusedValue .. => True) :
    NeedsAtMost n (reply g block q) := by
  cases q with
  | reading part => exact (needsAtMost_read part).mono h
  | block origin whole inner => exact ((hblock inner).nested origin whole).mono h
  | unusedValue e shown =>
    apply NeedsAtMost.get_bind
    · intro σ
      split
      · exact needsAtMost_warn n _
      · exact .pure n _
    · intro σ limit depth
      rfl

theorem needsAtMost_form {s : Slice} (hs : 0 < s.length) (f : Stmt.Form) :
    NeedsAtMost s.length ((f.read s).run (reply g block)) := by
  have hform := ((Stmt.pointsInto_form s hs f).of_asks (Stmt.asks_form_inside s f)).mono
    (fun _ hq => hq.2) fun _ hp => hp.code
  -- A reading may be of the whole slice, but a block leaves out two tokens of it.
  apply NeedsAtMost.run _ hform
  intro q hq
  apply needsAtMost_reply hblock
  cases q with
  | reading part => exact Slice.IsPartOf.length_le hq
  | block origin whole inner => exact hq.2
  | unusedValue e shown => trivial

theorem needsAtMost_firstStatement {s : Slice} (hs : 0 < s.length) (rules : List Stmt.Rule) :
    NeedsAtMost s.length (firstStatement (reply g block) s rules) := by
  induction rules with
  | nil => exact .pure _ _
  | cons rule rules ih =>
    apply NeedsAtMost.bind (needsAtMost_form hblock hs rule.form)
    intro r
    cases r with
    | none => exact ih
    | some st =>
      apply NeedsAtMost.bind
      · exact .modify (fun σ => extends_record σ _) (fun _ _ _ => rfl) fun _ => rfl
      · intro _
        exact .pure _ _

theorem needsAtMost_statementWith (s : Slice) :
    NeedsAtMost (s.length + 1) (statementWith g (reply g block) s) := by
  unfold statementWith
  split
  · exact .pure _ _
  · have hs : 0 < s.length := s.length_pos_of_not_isEmpty ‹_›
    exact (needsAtMost_firstStatement hblock hs g.statements).nested "parse_statement" s.tokens

variable {s : Slice}

/-- The clauses of a conditional stand at the level of the block. -/
theorem needsAtMost_chain {slices : List Slice} (hne : slices ≠ [])
    (hpos : ∀ part ∈ slices, 0 < part.length) (hslices : ∀ part ∈ slices, part.IsPartOf s) :
    NeedsAtMost (s.length + 1) ((Stmt.readConditional slices).run (reply g block)) := by
  have hchain := ((Stmt.pointsIntoOne_readConditional hne hpos).of_asks
    (Stmt.asks_readConditional slices)).mono (fun _ hq => hq.2) fun _ ⟨_, _, hp⟩ => hp.code
  apply NeedsAtMost.run _ hchain
  rintro q ⟨part, hmem, hq⟩
  have hlength := (hslices part hmem).length_le
  apply needsAtMost_reply hblock
  cases q with
  | reading r => exact Nat.le_succ_of_le (Nat.le_trans (Slice.IsPartOf.length_le hq) hlength)
  | block origin whole inner =>
    have hinner : inner.length < part.length := hq.2
    simp only
    omega
  | unusedValue e shown => trivial

theorem needsAtMost_sentence {x : Sentence} (hfilled : x.IsFilled)
    (hparts : ∀ part ∈ x.slices, part.IsPartOf s) :
    NeedsAtMost (s.length + 1) (sentence g (reply g block) x) := by
  cases x with
  | chain slices => exact needsAtMost_chain hblock hfilled.ne_nil hfilled.length_pos hparts
  | orphan part => exact .throw _ (ne_of_beq_false rfl)
  | plain part =>
    have hpart : part.IsPartOf s := hparts part (List.mem_singleton_self part)
    apply NeedsAtMost.bind ((needsAtMost_statementWith hblock part).mono
      (Nat.succ_le_succ hpart.length_le))
    intro r
    cases r with
    | none => exact .throw _ (ne_of_beq_false rfl)
    | some r => exact .pure _ _
  | broken part p => exact .throw _ (hfilled.concerns part p rfl).code

theorem needsAtMost_sentences {xs : List Sentence} (hfilled : ∀ x ∈ xs, x.IsFilled)
    (hparts : ∀ x ∈ xs, ∀ part ∈ x.slices, part.IsPartOf s) :
    NeedsAtMost (s.length + 1) (sentences g (reply g block) xs : Parse (List Stmt)) := by
  induction xs with
  | nil => exact .pure _ _
  | cons x xs ih =>
    have hrest := ih (fun y hy => hfilled y (List.mem_cons_of_mem x hy))
      fun y hy => hparts y (List.mem_cons_of_mem x hy)
    have hsentence := needsAtMost_sentence (g := g) hblock (hfilled x (List.mem_cons_self ..))
      (hparts x (List.mem_cons_self ..))
    refine hsentence.recover
      (f := fun st => (sentences g (reply g block) xs : Parse (List Stmt)) >>= fun rest =>
        pure (st :: rest))
      (fun st => hrest.bind fun rest => .pure _ _) hrest fun σ => ?_
    rw [lift_run, sentences_cons_run]
    generalize (sentence g (reply g block) x).run.run σ = first
    obtain ⟨p | st, τ⟩ := first <;> rfl

end blocks

/-- The warning of an open end does not depend on the limit. -/
theorem needsAtMost_opened (n : Nat) (d : Segment.Division) :
    NeedsAtMost n (MonadStateOf.modifyGet fun σ => ((), Session.opened σ d) : Parse Unit) := by
  apply NeedsAtMost.modify
  · intro σ
    unfold Session.opened
    split
    · exact extends_log σ _ _
    · exact .refl σ
  · intro σ limit depth
    unfold Session.opened
    split <;> rfl
  · exact fun σ => errors_opened σ d

/-- By induction on the nesting of blocks, a block needs one level for each of its tokens, and one. -/
theorem blocksNeed_blockWithin (k : Nat) : BlocksNeed (blockWithin g k) := by
  induction k with
  | zero => exact fun inner => .pure _ _
  | succ k ih =>
    intro s
    -- The block looks at the options once, in order to divide its tokens.
    apply NeedsAtMost.of_session
      (f := fun σ =>
        (MonadStateOf.modifyGet fun τ => ((), Session.opened τ
          (Segment.divide σ.options.requireTerminators s)) : Parse Unit) >>= fun _ =>
        (sentences g (reply g (blockWithin g k))
          (Sentence.ofBlock σ.options.requireTerminators s) : Parse (List Stmt)))
    · intro σ
      apply (needsAtMost_opened _ _).bind
      intro _
      exact needsAtMost_sentences ih (fun x hx => Sentence.isFilled_of_mem_ofBlock hx)
        fun x hx part hpart => Sentence.isPartOf_of_mem_ofBlock hx hpart
    · intro σ limit depth
      rfl
    · intro σ
      rw [lift_run, blockWithin, StateT.run_bind, divide_run]
      rfl

theorem needsAtMost_block (s : Slice) :
    NeedsAtMost (s.length + 1) (block g s : Parse (List Stmt)) :=
  blocksNeed_blockWithin s.length s

theorem needsAtMost_statement (s : Slice) : NeedsAtMost (s.length + 1) (statement g s) :=
  needsAtMost_statementWith (blocksNeed_blockWithin s.length) s

/-- Nesting is never too deep under a limit above the number of tokens: a block reports no such
problem, and neither the cascade of expressions nor the one of statements fails with one. What the
blocks inside the statement report is none either. -/
theorem not_tooDeep_of_length_lt (g : Grammar) (o : Options) (observers : Nat) (ts : List Token)
    (hlimit : ts.length < o.maxNestingDepth) :
    (∀ p ∈ (freshBlock g o observers ts).2.errors.toList, p.code ≠ .nestingLimit) ∧
      ∀ σ : Session, σ.options = o → σ.depth = 0 →
        ¬FailsWith (·.code = .nestingLimit) ((read g (.ofTokens ts)).run.run σ).1 ∧
        ¬FailsWith (·.code = .nestingLimit) ((statement g (.ofTokens ts)).run.run σ).1 ∧
        σ.Reports (·.code ≠ .nestingLimit) ((statement g (.ofTokens ts)).run.run σ).2 := by
  have hroom (σ : Session) (hoptions : σ.options = o) (hdepth : σ.depth = 0) :
      σ.HasRoom (ts.length + 1) := by
    unfold HasRoom
    rw [hoptions, hdepth, Nat.zero_add]
    exact hlimit
  have hfresh : (Session.start o observers).HasRoom (ts.length + 1) := hroom _ rfl rfl
  refine ⟨((needsAtMost_block (.ofTokens ts)).enough _ hfresh).1.forall_of_eq rfl, ?_⟩
  intro σ hoptions hdepth
  have hσ := hroom σ hoptions hdepth
  have hread := needsAtMost_read (g := g) (.ofTokens ts)
  have hstatement := needsAtMost_statement (g := g) (.ofTokens ts)
  exact ⟨hread.not_failsWith (hσ.mono (Nat.le_succ _)), hstatement.not_failsWith hσ,
    (hstatement.enough σ hσ).1⟩

def bracedName : List Token :=
  (Slice.ofSource "\x7b $a \x7d" "t").tokens

/-- The three tokens need four levels: two statements, the block between them and the name take one
each. -/
theorem not_tooDeep_of_length_lt_bracedName :
    bracedName.length < 4 ∧
      (∀ p ∈ (freshBlock .standard { maxNestingDepth := 4 } 0 bracedName).2.errors.toList,
        p.code ≠ .nestingLimit) ∧
      ¬FailsWith (·.code = .nestingLimit)
        ((statement .standard (.ofTokens bracedName)).run.run
          (.start { maxNestingDepth := 4 } 0)).1 ∧
      ∃ p ∈ (freshBlock .standard { maxNestingDepth := 3 } 0 bracedName).2.errors.toList,
        p.code = .nestingLimit := by
  have hlimit : bracedName.length < 4 := by decide +kernel
  obtain ⟨hblock, hcascades⟩ :=
    not_tooDeep_of_length_lt .standard { maxNestingDepth := 4 } 0 bracedName hlimit
  obtain ⟨-, hstatement, -⟩ := hcascades (.start { maxNestingDepth := 4 } 0) rfl rfl
  exact ⟨hlimit, hblock, hstatement, by decide +kernel⟩

/-! Under two limits of nesting: a block in which nothing was too deep is read alike under every higher
limit. -/

/-- A block is read alike under a limit that leaves more levels, or something in it was reported as
too deep. -/
theorem block_under_or (s : Slice) {σ : Session} {limit depth : Nat}
    (hlimit : σ.Allows limit depth) :
    (block g s).run (σ.under limit depth) =
        (((block g s).run σ).1, ((block g s).run σ).2.under limit depth) ∨
      σ.options.maxNestingDepth < σ.depth + (s.length + 1) ∧
        ∃ p ∈ ((block g s).run σ).2.errors.toList, p.code = .nestingLimit := by
  rcases (needsAtMost_block (g := g) s).same σ limit depth hlimit with hsame | ⟨htight, hseen⟩
  · rw [lift_run, lift_run] at hsame
    have hnodes := Except.ok.inj (congrArg Prod.fst hsame)
    have hstate := congrArg Prod.snd hsame
    exact .inl (Prod.ext hnodes hstate)
  · -- A block does not fail.
    rcases hseen with ⟨p, -, hp⟩ | hreported
    · cases hp
    · exact .inr ⟨htight, hreported⟩

/-- From a session with as many levels as the block has tokens, and one more, the block is read alike
under every limit that leaves as many. -/
theorem block_under {s : Slice} {σ : Session} {limit depth : Nat}
    (hroom : σ.depth + s.length < σ.options.maxNestingDepth) (hlimit : σ.Allows limit depth) :
    (block g s).run (σ.under limit depth) =
      (((block g s).run σ).1, ((block g s).run σ).2.under limit depth) := by
  apply (block_under_or s hlimit).resolve_right
  rintro ⟨htight, -⟩
  omega

/-- A higher limit of nesting changes nothing where the lower one was not reached: a block in which
nothing was reported as too deep gives the same statements, problems and log entries. -/
theorem freshBlock_of_le_limit (g : Grammar) (o : Options) (observers : Nat) (ts : List Token)
    {limit : Nat} (hlimit : o.maxNestingDepth ≤ limit)
    (hcode : ∀ p ∈ (freshBlock g o observers ts).2.errors.toList, p.code ≠ .nestingLimit) :
    (freshBlock g (o.withLimit limit) observers ts).1 =
        (freshBlock g o observers ts).1 ∧
      (freshBlock g (o.withLimit limit) observers ts).2.errors =
        (freshBlock g o observers ts).2.errors ∧
      (freshBlock g (o.withLimit limit) observers ts).2.logs =
        (freshBlock g o observers ts).2.logs := by
  have hallows : (Session.start o observers).Allows limit 0 := hlimit
  have hsame : freshBlock g (o.withLimit limit) observers ts =
      ((freshBlock g o observers ts).1, (freshBlock g o observers ts).2.under limit 0) := by
    apply (block_under_or (.ofTokens ts) hallows).resolve_right
    rintro ⟨-, p, hp, hdeep⟩
    exact hcode p hp hdeep
  rw [hsame]
  exact ⟨rfl, rfl, rfl⟩

def groupedSum : List Token :=
  (Slice.ofSource "print ( $a plus ( 1 ) ) . set 5 equal to $b ." "t").tokens

def fiveLevels : Options :=
  { maxNestingDepth := 5 }

/-- Five levels are enough for the sum, and the problem of the other statement is none of nesting. -/
theorem freshBlock_of_le_limit_groupedSum :
    fiveLevels.maxNestingDepth ≤ 256 ∧
      (∀ p ∈ (freshBlock .standard fiveLevels 0 groupedSum).2.errors.toList,
        p.code ≠ .nestingLimit) ∧
      (freshBlock .standard (fiveLevels.withLimit 256) 0 groupedSum).2.errors =
        (freshBlock .standard fiveLevels 0 groupedSum).2.errors := by
  have hlimit : fiveLevels.maxNestingDepth ≤ 256 := by decide
  have hcode : ∀ p ∈ (freshBlock .standard fiveLevels 0 groupedSum).2.errors.toList,
      p.code ≠ .nestingLimit := by
    decide +kernel
  have hsame := freshBlock_of_le_limit .standard fiveLevels 0 groupedSum hlimit hcode
  exact ⟨hlimit, hcode, hsame.2.1⟩

end Parse

end Prose
