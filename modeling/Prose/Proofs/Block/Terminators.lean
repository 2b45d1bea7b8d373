import Prose.Proofs.Block.Levels
import Prose.Proofs.Segment.Course
import Prose.Proofs.Session.Terminators

namespace Prose

open Inquiry Session

namespace Segment

variable {strict : Bool} {s : Slice} {d : Division}

@[simp] theorem openEnd_push : (push s d).openEnd = d.openEnd := by
  unfold push
  split <;> rfl

theorem mem_push_of_mem {x : Segment} (h : x ∈ d.segments) : x ∈ (push s d).segments := by
  unfold push
  split
  · exact h
  · exact List.mem_cons_of_mem _ h

def MissesDot (s : Slice) : Prop :=
  ∃ r, broken r (problem .withoutTerminator r.tokens) ∈ (divide true s).segments

/-- Both divisions of a block are the same, or a last statement misses its `.`: the one warns of it
and to the other it is broken. -/
theorem divide_true_cases (s : Slice) :
    divide true s = divide false s ∧ (divide false s).openEnd = none ∨
      (divide false s).openEnd ≠ none ∧ MissesDot s := by
  induction s using segment_induction with
  | openEnd s depth h =>
    rw [MissesDot, h.divide_alone true, h.divide_alone false]
    simp only [Ending.close]
    rw [rest_eq, rest_eq]
    split
    · exact .inl ⟨rfl, rfl⟩
    · split
      · exact .inl ⟨rfl, rfl⟩
      · exact .inr ⟨Option.some_ne_none _, s, List.mem_singleton_self _⟩
  | cut r later h ih =>
    rw [MissesDot, h.divide_eq true, h.divide_eq false]
    rcases ih with ⟨hsame, hclosed⟩ | ⟨hopen, q, hq⟩
    · exact .inl ⟨congrArg (push r) hsame, openEnd_push.trans hclosed⟩
    · exact .inr ⟨openEnd_push.trans_ne hopen, q, mem_push_of_mem hq⟩
  | stray r later t h ih =>
    rw [MissesDot, h.divide_eq true, h.divide_eq false]
    rcases ih with ⟨hsame, hclosed⟩ | ⟨hopen, q, hq⟩
    · exact .inl ⟨congrArg (strayed r t) hsame, hclosed⟩
    · exact .inr ⟨hopen, q, List.mem_cons_of_mem _ hq⟩

/-- The warning of an open end is the one of a last statement. -/
theorem exists_warning_of_openEnd (h : d.openEnd ≠ none) : ∃ e ∈ d.warnings, e.IsOpenEnd := by
  obtain ⟨place, hplace⟩ := Option.ne_none_iff_exists'.mp h
  rw [Division.warnings, hplace]
  exact ⟨_, List.mem_singleton_self _, place, rfl⟩

end Segment

namespace Parse

variable {g : Grammar}

section sentences

variable {block : Slice → StateM Session (List Stmt)}

def BlocksAgree (block : Slice → StateM Session (List Stmt)) : Prop :=
  ∀ inner : Slice, Agrees (block inner : Parse (List Stmt))

variable (hblock : BlocksAgree block)
include hblock

theorem agrees_reply (q : Stmt.Question) : Agrees (reply g block q) := by
  cases q with
  | reading part => exact agrees_readWithin part.length part
  | block origin whole inner => exact (hblock inner).nested origin whole
  | unusedValue e shown =>
    apply Agrees.get_bind
    · intro σ
      split
      · exact .modify (fun σ => retains_log σ _ _) fun _ => rfl
      · exact .pure _
    · exact fun _ => rfl

theorem agrees_firstStatement (s : Slice) (rules : List Stmt.Rule) :
    Agrees (firstStatement (reply g block) s rules) := by
  induction rules with
  | nil => exact .pure _
  | cons rule rules ih =>
    apply Agrees.bind (.run (agrees_reply hblock) _)
    intro r
    cases r with
    | none => exact ih
    | some st =>
      apply Agrees.bind
      · exact .modify (fun σ => retains_record σ _) fun _ => rfl
      · intro _
        exact .pure _

theorem agrees_statementWith (s : Slice) : Agrees (statementWith g (reply g block) s) := by
  unfold statementWith
  split
  · exact .pure _
  · exact (agrees_firstStatement hblock s g.statements).nested "parse_statement" s.tokens

theorem agrees_sentence (x : Sentence) : Agrees (sentence g (reply g block) x) := by
  cases x with
  | chain slices => exact .run (agrees_reply hblock) _
  | orphan s => exact .throw _
  | plain s =>
    apply Agrees.bind (agrees_statementWith hblock s)
    intro r
    cases r with
    | none => exact .throw _
    | some r => exact .pure _
  | broken s p => exact .throw _

theorem agrees_sentences (xs : List Sentence) :
    Agrees (sentences g (reply g block) xs : Parse (List Stmt)) := by
  induction xs with
  | nil => exact .pure _
  | cons x xs ih =>
    have hsentence := agrees_sentence (g := g) hblock x
    refine hsentence.of_first
      (f := fun st => (sentences g (reply g block) xs : Parse (List Stmt)) >>= fun rest =>
        pure (st :: rest))
      (k := fun p => (MonadStateOf.modifyGet fun σ => ((), Session.report σ p) : Parse Unit) >>=
        fun _ => (sentences g (reply g block) xs : Parse (List Stmt))) ?_ ?_ fun σ => ?_
    · exact fun st => ih.bind fun rest => .pure _
    · exact fun p => (Agrees.modify (fun σ => retains_report σ p) fun _ => rfl).bind fun _ => ih
    · rw [lift_run, sentences_cons_run]
      generalize (sentence g (reply g block) x).run.run σ = first
      obtain ⟨p | st, τ⟩ := first <;> rfl

/-- The problem of a broken segment is reported. -/
theorem mem_errors_of_broken_mem {xs : List Sentence} {r : Slice} {p : Problem}
    (hmem : .broken r p ∈ xs) (σ : Session) :
    p ∈ ((sentences g (reply g block) xs).run σ).2.errors.toList := by
  have hrest (xs : List Sentence) (τ : Session) :
      τ.Retains ((sentences g (reply g block) xs).run τ).2 :=
    (agrees_sentences hblock xs).retains τ
  induction xs generalizing σ with
  | nil => cases hmem
  | cons x xs ih =>
    rw [sentences_cons_run]
    rcases List.mem_cons.mp hmem with rfl | hlater
    · apply (hrest xs (σ.report p)).errors
      rw [toList_errors_report]
      exact List.mem_append_right _ (List.mem_singleton_self p)
    · match (sentence g (reply g block) x).run.run σ with
      | (.ok st, τ) => exact ih hlater τ
      | (.error q, τ) => exact ih hlater (τ.report q)

end sentences

theorem retains_opened (σ : Session) (d : Segment.Division) : σ.Retains (σ.opened d) := by
  unfold opened
  split
  · exact retains_log σ _ _
  · exact .refl σ

/-- A block is divided, and its sentences are read behind the warning of its open end. -/
theorem blockWithin_run (k : Nat) (s : Slice) (σ : Session) :
    (blockWithin g (k + 1) s).run σ =
      (sentences g (reply g (blockWithin g k))
        (Sentence.ofBlock σ.options.requireTerminators s)).run
        (σ.opened (Segment.divide σ.options.requireTerminators s)) := by
  rw [blockWithin, StateT.run_bind, divide_run]
  rfl

/-- By induction on the nesting of blocks, the option decides about last statements without `.`
only. -/
theorem blocksAgree_blockWithin (k : Nat) : BlocksAgree (blockWithin g k) := by
  induction k with
  | zero => exact fun inner => .pure _
  | succ k ih =>
    intro s
    have hread (xs : List Sentence) := agrees_sentences (g := g) ih xs
    constructor
    · intro σ
      rw [lift_run, blockWithin_run]
      exact (retains_opened σ _).trans ((hread _).retains _)
    · intro σ hσ
      have hlenient : (blockWithin g (k + 1) s).run σ =
          (sentences g (reply g (blockWithin g k)) (Sentence.ofBlock false s)).run
            (σ.opened (Segment.divide false s)) := by
        rw [blockWithin_run, hσ]
      have hstrict : (blockWithin g (k + 1) s).run σ.strictly =
          (sentences g (reply g (blockWithin g k)) (Sentence.ofBlock true s)).run
            (σ.strictly.opened (Segment.divide true s)) :=
        blockWithin_run k s σ.strictly
      rw [lift_run, lift_run, hlenient, hstrict]
      rcases Segment.divide_true_cases s with ⟨hsame, hclosed⟩ | ⟨hopen, r, hr⟩
      -- There is no open end, so both sessions are left as they are and read the same sentences.
      · have hopened (τ : Session) : τ.opened (Segment.divide false s) = τ := by
          rw [opened, hclosed]
        rw [Sentence.ofBlock, hsame, hopened, hopened]
        exact (hread _).same σ hσ
      -- Whatever the sentences do to the sessions, the warning and the problem stay.
      · obtain ⟨e, he, hend⟩ := Segment.exists_warning_of_openEnd hopen
        refine .inr ⟨⟨e, ?_, hend⟩, Segment.problem .withoutTerminator r.tokens, ?_, rfl⟩
        · apply ((hread _).retains _).logs
          rw [logs_opened]
          exact List.mem_append_right _ he
        · exact mem_errors_of_broken_mem ih ((Sentence.units_ofBlock true s).broken_mem hr) _

theorem agrees_block (s : Slice) : Agrees (block g s : Parse (List Stmt)) :=
  blocksAgree_blockWithin s.length s

/-- Where no last statement misses its closing `.`, at no level of nesting, it does not matter
whether it is asked for: a block gives the same statements, problems and log entries. It is enough
that no such statement is warned about if the `.` is not asked for, or that none is a problem if it
is. -/
theorem freshBlock_requiring (g : Grammar) (o : Options) (observers : Nat) (ts : List Token)
    (hclosed : (∀ e ∈ (freshBlock g (o.requiring false) observers ts).2.logs.toList,
        ¬e.IsOpenEnd) ∨
      ∀ p ∈ (freshBlock g (o.requiring true) observers ts).2.errors.toList,
        p.cause ≠ .blocks .withoutTerminator) :
    (freshBlock g (o.requiring true) observers ts).1 =
        (freshBlock g (o.requiring false) observers ts).1 ∧
      (freshBlock g (o.requiring true) observers ts).2.errors =
        (freshBlock g (o.requiring false) observers ts).2.errors ∧
      (freshBlock g (o.requiring true) observers ts).2.logs =
        (freshBlock g (o.requiring false) observers ts).2.logs := by
  have hsame : freshBlock g (o.requiring true) observers ts =
      ((freshBlock g (o.requiring false) observers ts).1,
        (freshBlock g (o.requiring false) observers ts).2.strictly) := by
    have hagrees := agrees_block (g := g) (.ofTokens ts)
    rcases hagrees.same (.start (o.requiring false) observers) rfl with
      hsame | ⟨⟨e, he, hend⟩, p, hp, hcause⟩
    · rw [lift_run, lift_run] at hsame
      have hnodes := Except.ok.inj (congrArg Prod.fst hsame)
      have hstate := congrArg Prod.snd hsame
      exact Prod.ext hnodes hstate
    -- Both sessions tell of a statement without its `.`, which one of them does not do.
    · rcases hclosed with hwarned | hreported
      · exact absurd hend (hwarned e he)
      · exact absurd hcause (hreported p hp)
  rw [hsame]
  exact ⟨rfl, rfl, rfl⟩

def closedCheck : List Token :=
  (Slice.ofSource ("if $a then \x7b print 1 . set 5 equal to $b . \x7d " ++
    "otherwise repeat 2 times \x7b $c . \x7d") "t").tokens

/-- Both give the problem of the one statement and the warning of the value that is not used. -/
theorem freshBlock_requiring_closedCheck :
    (∀ p ∈ (freshBlock .standard (Options.requiring {} true) 0 closedCheck).2.errors.toList,
        p.cause ≠ .blocks .withoutTerminator) ∧
      (freshBlock .standard (Options.requiring {} true) 0 closedCheck).2.errors.size = 1 ∧
      (freshBlock .standard (Options.requiring {} true) 0 closedCheck).1 =
        (freshBlock .standard (Options.requiring {} false) 0 closedCheck).1 ∧
      (freshBlock .standard (Options.requiring {} true) 0 closedCheck).2.logs =
        (freshBlock .standard (Options.requiring {} false) 0 closedCheck).2.logs := by
  have hreported : ∀ p ∈ (freshBlock .standard (Options.requiring {} true) 0
      closedCheck).2.errors.toList, p.cause ≠ .blocks .withoutTerminator := by
    decide +kernel
  have hsame := freshBlock_requiring .standard {} 0 closedCheck (.inr hreported)
  exact ⟨hreported, by decide +kernel, hsame.1, hsame.2.2⟩

/-- The `.` that a block in braces misses costs its statement only if it is asked for. -/
example :
    let openBraces := (Slice.ofSource "if $a then \x7b print 1 \x7d" "t").tokens
    (freshBlock .standard {} 0 openBraces).2.errors.size = 0 ∧
      (freshBlock .standard (Options.requiring {} true) 0 openBraces).2.errors.size = 1 := by
  decide +kernel

end Parse

end Prose
