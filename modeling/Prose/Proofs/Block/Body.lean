import Prose.Proofs.Block.Onward
import Prose.Proofs.Expr.RoundTrip.Frame
import Prose.Proofs.Segment.Body
import Prose.Proofs.Stmt.RoundTrip.Frame

namespace Prose

open Session

namespace Segment

variable {strict : Bool} {k : Nat} {ts inner : List Token}

/-- The block of a body is what the body stands for, at its place or behind a bracket. -/
theorem IsBodyOf.requiredBody_eq (h : IsBodyOf strict inner ts) (origin : String)
    (whole : List Token) (k : Nat) : ∃ i, k ≤ i ∧
      Stmt.requiredBody origin ⟨k, ts⟩ whole = Stmt.readBlock origin whole ⟨i, inner⟩ := by
  cases h with
  | braced h =>
    have hne : ¬(⟨k, ts⟩ : Slice).isEmpty = true := by
      cases h
      exact Bool.false_ne_true
    refine ⟨k + 1, Nat.le_succ k, ?_⟩
    rw [Stmt.requiredBody, Slice.withoutTerminator_of_isBraced h, Slice.enclosed_of_isBraced h]
    simp only [if_neg hne, Option.getD_some]
  | plain h hloop =>
    have hne : ¬(⟨k, ts⟩ : Slice).withoutTerminator.isEmpty = true := fun hempty =>
      h.withoutTerminator_ne_nil k (List.isEmpty_iff.mp hempty)
    refine ⟨k, Nat.le_refl k, ?_⟩
    rw [Stmt.requiredBody, h.enclosed_withoutTerminator hloop k]
    simp only [if_neg hne, Option.getD_none]

end Segment

namespace Parse

open Segment

variable {o : Options} {n : Nat} {σ τ : Session} {ts inner bs : List Token}

section answers

variable {answer : (q : Stmt.Question) → Parse q.Reply}

/-- A part that is read is the expression that is required. -/
theorem required_run {part : Slice} {rule : Expr.Rule} {e : Expr} (hpart : ¬part.isEmpty = true)
    (h : (answer (.reading part)).run.run σ = (.ok (some (rule, e)), τ)) (origin name : String)
    (whole : List Token) :
    ((Stmt.required origin name part whole).run answer).run.run σ = (.ok e, τ) := by
  rw [Stmt.required, Expr.required, Expr.requiredOr, if_neg hpart]
  change (answer (.reading part) >>= fun r => _).run.run σ = _
  rw [Inquiry.run_bind, h]
  rfl

theorem readBlock_run {origin : String} {whole : List Token} {inner : Slice} {body : List Stmt}
    (h : (answer (.block origin whole inner)).run.run σ = (.ok body, τ)) :
    ((Stmt.readBlock origin whole inner).run answer).run.run σ = (.ok body, τ) := by
  change (answer (.block origin whole inner) >>= fun r => _).run.run σ = _
  rw [Inquiry.run_bind, h]
  rfl

end answers

section repeats

structure IsRepeatHead (name : String) (lead count sep : Token) : Prop where
  lead : lead.keyword = .repeatWord
  count : count.Names name
  sep : sep.keyword = .times

variable {name : String} {lead count sep : Token} (h : IsRepeatHead name lead count sep)
include h

theorem IsRepeatHead.isFlat : lead.IsFlat ∧ count.IsFlat ∧ sep.IsFlat :=
  ⟨⟨by rw [h.lead]; rfl, by rw [h.lead]; rfl⟩, ⟨by rw [h.count.1]; rfl, by rw [h.count.1]; rfl⟩,
    by rw [h.sep]; rfl, by rw [h.sep]; rfl⟩

/-- Behind these words, a body ends the segment. -/
theorem IsRepeatHead.divide_eq {strict : Bool} (hbs : IsBodyOf strict inner bs) :
    Segment.divide strict (.ofTokens (lead :: count :: sep :: bs)) =
      ⟨[.statement (.ofTokens (lead :: count :: sep :: bs))], none⟩ := by
  obtain ⟨hlead, hcount, hsep⟩ := h.isFlat
  have hdots : ∀ t ∈ [count, sep], t.keyword ≠ .endOfStatement := by
    rw [List.forall_mem_cons, List.forall_mem_singleton, h.count.1, h.sep]
    decide
  have hinline : IsInline [count, sep] :=
    .of_isFlat (List.forall_mem_cons.mpr ⟨hcount, List.forall_mem_singleton.mpr hsep⟩) hdots
  exact divide_body hlead (by rw [h.lead]; decide) (by rw [h.lead]; decide) hinline hbs

/-- The count is the name, and the body stands behind `times`. -/
theorem IsRepeatHead.readRepeat_eq : Stmt.readRepeat (.ofTokens (lead :: count :: sep :: bs)) =
    Stmt.required "parse_repeat" "a count" ⟨1, [count]⟩ (lead :: count :: sep :: bs) >>= fun e =>
      Stmt.requiredBody "parse_repeat" ⟨3, bs⟩ (lead :: count :: sep :: bs) >>= fun body =>
        pure (some (.repeatLoop lead.position e body)) := by
  obtain ⟨-, hcount, hsep⟩ := h.isFlat
  have hstart : (Slice.ofTokens (lead :: count :: sep :: bs)).startsWith .repeatWord = true := by
    simp [Slice.startsWith, Slice.ofTokens, h.lead]
  have hshows : Shows [.unknown] [count] := shows_singleton hcount (by simp [h.count.1])
  have hbehind : (Slice.ofTokens (lead :: count :: sep :: bs)).tokens.drop 1 =
      [count] ++ sep :: bs := rfl
  have hfirst : (Slice.ofTokens (lead :: count :: sep :: bs)).first .times 1 = some 2 :=
    Slice.first_eq_some hshows (by decide) hsep h.sep hbehind
  rw [Stmt.readRepeat_eq, if_pos hstart, hfirst]
  rfl

/-- Reading the name reports nothing, and nothing is remembered of what stands behind it. -/
theorem IsRepeatHead.read_count (hσ : ∀ q, σ.memo.find? q = none)
    (hroom : σ.depth < σ.options.maxNestingDepth) :
    ∃ rule τ, (read .standard ⟨1, [count]⟩).run.run σ =
        (.ok (some (rule, .identifier count.position name)), τ) ∧ σ.Alike τ ∧
      ∀ q : Slice, 2 ≤ q.start → τ.memo.find? q = none := by
  have hrecalls : σ.Recalls .standard ⟨1, [count]⟩ := by
    intro q _ r hr
    rw [hσ q] at hr
    cases hr
  obtain ⟨τ, hread, -, halike⟩ := read_run (.refl ⟨1, [count]⟩) hrecalls hroom
  rw [Expr.outcome_identifier h.count 1] at hread
  refine ⟨_, τ, hread, halike, fun q hq => ?_⟩
  have hbehind : 1 + [count].length ≤ q.start := hq
  have hnone : ((read .standard ⟨1, [count]⟩).run.run σ).2.memo.find? q = none :=
    find?_read hσ hbehind
  rwa [hread] at hnone

/-- The loop has the body that the tokens are read as alone, and adds what was reported and logged
there. -/
theorem IsRepeatHead.readRepeat_run (hbs : IsBodyOf σ.options.requireTerminators inner bs) (n : Nat)
    (hσ : ∀ q, σ.memo.find? q = none)
    (hroom : σ.depth + inner.length + 1 < σ.options.maxNestingDepth) :
    ∃ υ, ((Stmt.readRepeat (.ofTokens (lead :: count :: sep :: bs))).run
        (reply .standard (block .standard))).run.run σ =
          (.ok (some (.repeatLoop lead.position (.identifier count.position name)
            (freshBlock .standard σ.options n inner).1)), υ) ∧
      υ.errors.toList = σ.errors.toList ++
        (freshBlock .standard σ.options n inner).2.errors.toList ∧
      υ.logs.toList = σ.logs.toList ++ (freshBlock .standard σ.options n inner).2.logs.toList := by
  obtain ⟨rule, τ, hread, halike, hmemo⟩ := h.read_count hσ (by omega)
  obtain ⟨i, hi, hbody⟩ := hbs.requiredBody_eq "parse_repeat" (lead :: count :: sep :: bs) 3
  -- The body stands further on than the name, so that it is read as in a new session.
  have hinner (q : Slice) (hq : i ≤ q.start) : τ.memo.find? q = none := hmemo q (by omega)
  have hlevels : τ.depth + inner.length + 1 < τ.options.maxNestingDepth := by
    rw [halike.depth, halike.options]
    exact hroom
  obtain ⟨υ, hblock, hadds⟩ := reply_block_behind (g := .standard) "parse_repeat"
    (lead :: count :: sep :: bs) n hinner hlevels
  rw [halike.options] at hblock hadds
  have hne : ¬(⟨1, [count]⟩ : Slice).isEmpty = true := Bool.false_ne_true
  have hcountRun : ((Stmt.required "parse_repeat" "a count" ⟨1, [count]⟩
      (lead :: count :: sep :: bs)).run (reply .standard (block .standard))).run.run σ = (_, τ) :=
    required_run hne hread "parse_repeat" "a count" (lead :: count :: sep :: bs)
  have hbodyRun := readBlock_run hblock
  rw [← hbody] at hbodyRun
  refine ⟨υ, ?_, ?_, ?_⟩
  · rw [h.readRepeat_eq, Inquiry.run_bind_query, Inquiry.run_bind, hcountRun]
    simp only
    rw [Inquiry.run_bind_query, Inquiry.run_bind, hbodyRun]
    rfl
  · rw [hadds.errors, halike.errors]
  · rw [hadds.logs, halike.logs]

/-- A `repeat` loop, with or without brackets, is one statement with the statements of its body. -/
theorem IsRepeatHead.freshBlock_eq (hbs : IsBodyOf o.requireTerminators inner bs)
    (hroom : inner.length + 2 < o.maxNestingDepth) :
    (freshBlock .standard o n (lead :: count :: sep :: bs)).1 =
        [.repeatLoop lead.position (.identifier count.position name)
          (freshBlock .standard o n inner).1] ∧
      (freshBlock .standard o n (lead :: count :: sep :: bs)).2.errors =
        (freshBlock .standard o n inner).2.errors ∧
      (freshBlock .standard o n (lead :: count :: sep :: bs)).2.logs =
        (freshBlock .standard o n inner).2.logs := by
  let s : Slice := .ofTokens (lead :: count :: sep :: bs)
  have hdivide : Segment.divide o.requireTerminators s = ⟨[.statement s], none⟩ := h.divide_eq hbs
  have hplain : Sentence.ofBlock o.requireTerminators s = [.plain s] := by
    rw [Sentence.ofBlock, hdivide]
    simp [Sentence.ofSegments, Sentence.ofSlices, Slice.startsWith, Slice.ofTokens, s, h.lead]
  have hfresh : freshBlock .standard o n (lead :: count :: sep :: bs) =
      (sentences .standard (reply .standard (block .standard)) [.plain s]).run (start o n) := by
    rw [← hplain]
    refine (block_run s (start o n)).trans ?_
    have hopened : (start o n).opened (Segment.divide o.requireTerminators s) = start o n := by
      rw [hdivide]
      rfl
    exact congrArg _ hopened
  -- No other form reads what begins with `repeat`.
  have hothers (f' : Stmt.Form) (hne : f' ≠ .repeatLoop) (hexpr : f' ≠ .expression) :
      f'.read s = pure none := by
    refine Stmt.read_eq_of_unled hexpr fun k hk => ?_
    simp only [Slice.startsWith, Slice.ofTokens, s, List.head?_cons, Option.any_some,
      beq_eq_false_iff_ne, h.lead]
    rintro rfl
    exact Stmt.not_mem_leads (f := .repeatLoop) (by decide) hne hk
  -- The statement stands one level deep.
  let deeper : Session := { start o n with depth := 1 }
  have hlevels : deeper.depth + inner.length + 1 < deeper.options.maxNestingDepth := by
    show 1 + inner.length + 1 < o.maxNestingDepth
    omega
  have hpos : (start o n).depth < (start o n).options.maxNestingDepth := by
    show 0 < o.maxNestingDepth
    omega
  obtain ⟨υ, hrun, herrors, hlogs⟩ := h.readRepeat_run (σ := deeper) hbs n
    (fun q => Memo.find?_empty q) hlevels
  have hne : ¬s.isEmpty = true := Bool.false_ne_true
  rw [hfresh, sentences_cons_run, Stmt.plain_run (f := .repeatLoop) hne hothers hpos hrun]
  exact ⟨rfl, Array.toList_inj.mp herrors, Array.toList_inj.mp hlogs⟩

end repeats

section brackets

variable {name : String} {lead count sep opener closer : Token}

/-- A body means the same with and without brackets: a statement other than a loop that begins with
`do`, behind the words of a `repeat` loop, is read there as it is read inside a block. -/
theorem freshBlock_repeat_braced (o : Options) (observers : Nat)
    (hhead : IsRepeatHead name lead count sep) (hopener : opener.keyword = .blockStart)
    (hcloser : closer.keyword = .blockEnd) (hbody : IsPlainBody o.requireTerminators ts)
    (hloop : ¬IsDoLoop ts) (hroom : ts.length + 3 < o.maxNestingDepth) :
    (freshBlock .standard o observers (lead :: count :: sep :: ts)).1 =
        (freshBlock .standard o observers
          (lead :: count :: sep :: opener :: (ts ++ [closer]))).1 ∧
      (freshBlock .standard o observers (lead :: count :: sep :: ts)).2.errors =
        (freshBlock .standard o observers
          (lead :: count :: sep :: opener :: (ts ++ [closer]))).2.errors ∧
      (freshBlock .standard o observers (lead :: count :: sep :: ts)).2.logs =
        (freshBlock .standard o observers
          (lead :: count :: sep :: opener :: (ts ++ [closer]))).2.logs := by
  have hbraced : IsBraced ts (opener :: (ts ++ [closer])) :=
    .mk hopener hcloser (hbody.cutsBehind hloop).balancedFrom
  obtain ⟨hnodes, herrors, hlogs⟩ := hhead.freshBlock_eq (n := observers) (.plain hbody hloop)
    (Nat.lt_of_succ_lt hroom)
  obtain ⟨hnodes', herrors', hlogs'⟩ := hhead.freshBlock_eq (n := observers) (.braced hbraced)
    (Nat.lt_of_succ_lt hroom)
  exact ⟨hnodes.trans hnodes'.symm, herrors.trans herrors'.symm, hlogs.trans hlogs'.symm⟩

def loopWords : List Token :=
  (Slice.ofSource "repeat $n times \x7b \x7d" "t").tokens

def loopWord (i : Nat) : Token :=
  loopWords.getD i default

theorem isRepeatHead_loopWord : IsRepeatHead "$n" (loopWord 0) (loopWord 1) (loopWord 2) := by
  obtain ⟨hlead, hcount, hsep⟩ : (loopWord 0).keyword = .repeatWord ∧
      ((loopWord 1).keyword = .unknown ∧ (loopWord 1).name? = some "$n") ∧
      (loopWord 2).keyword = .times := by
    decide +kernel
  exact ⟨hlead, hcount, hsep⟩

def openCheck : List Token :=
  (Slice.ofSource
    "if $a then \x7b do \x7b break . \x7d while $b . \x7d otherwise \x7b print . \x7d" "t").tokens

theorem freshBlock_repeat_braced_openCheck :
    IsRepeatHead "$n" (loopWord 0) (loopWord 1) (loopWord 2) ∧
      (loopWord 3).keyword = .blockStart ∧ (loopWord 4).keyword = .blockEnd ∧
      IsPlainBody ({} : Options).requireTerminators openCheck ∧ ¬IsDoLoop openCheck ∧
      openCheck.length + 3 < ({} : Options).maxNestingDepth ∧
      (freshBlock .standard {} 0 (loopWord 0 :: loopWord 1 :: loopWord 2 :: openCheck)).1 =
        (freshBlock .standard {} 0 (loopWord 0 :: loopWord 1 :: loopWord 2 :: loopWord 3 ::
          (openCheck ++ [loopWord 4]))).1 := by
  obtain ⟨hopener, hcloser, halone, hbare, hroom⟩ :
      (loopWord 3).keyword = .blockStart ∧ (loopWord 4).keyword = .blockEnd ∧
        (Segment.divide ({} : Options).requireTerminators (.ofTokens openCheck)).segments =
          [.statement (.ofTokens openCheck)] ∧
        (Slice.ofTokens openCheck).enclosed .blockStart = none ∧
        openCheck.length + 3 < ({} : Options).maxNestingDepth := by
    decide +kernel
  have hends : EndsBody openCheck := by
    unfold EndsBody
    decide +kernel
  have hloop : ¬IsDoLoop openCheck := by
    unfold IsDoLoop
    decide +kernel
  have hbody : IsPlainBody ({} : Options).requireTerminators openCheck := ⟨halone, hends, hbare⟩
  exact ⟨isRepeatHead_loopWord, hopener, hcloser, hbody, hloop, hroom,
    (freshBlock_repeat_braced {} 0 isRepeatHead_loopWord hopener hcloser hbody hloop hroom).1⟩

def doLoop : List Token :=
  (Slice.ofSource "do \x7b print 1 . \x7d while $x ." "t").tokens

/-- Behind the words of another loop, a loop with `do` ends in front of its `while`, and neither part is
a statement. In brackets there is no problem. -/
theorem freshBlock_repeat_doLoop_ne :
    IsRepeatHead "$n" (loopWord 0) (loopWord 1) (loopWord 2) ∧
      (loopWord 3).keyword = .blockStart ∧ (loopWord 4).keyword = .blockEnd ∧
      IsPlainBody ({} : Options).requireTerminators doLoop ∧
      doLoop.length + 5 < ({} : Options).maxNestingDepth ∧
      (freshBlock .standard {} 0 (loopWord 0 :: loopWord 1 :: loopWord 2 :: doLoop)).2.errors ≠
        (freshBlock .standard {} 0 (loopWord 0 :: loopWord 1 :: loopWord 2 :: loopWord 3 ::
          (doLoop ++ [loopWord 4]))).2.errors := by
  obtain ⟨hopener, hcloser, halone, hbare, hroom, herrors⟩ :
      (loopWord 3).keyword = .blockStart ∧ (loopWord 4).keyword = .blockEnd ∧
        (Segment.divide ({} : Options).requireTerminators (.ofTokens doLoop)).segments =
          [.statement (.ofTokens doLoop)] ∧
        (Slice.ofTokens doLoop).enclosed .blockStart = none ∧
        doLoop.length + 5 < ({} : Options).maxNestingDepth ∧
        (freshBlock .standard {} 0 (loopWord 0 :: loopWord 1 :: loopWord 2 :: doLoop)).2.errors ≠
          (freshBlock .standard {} 0 (loopWord 0 :: loopWord 1 :: loopWord 2 :: loopWord 3 ::
            (doLoop ++ [loopWord 4]))).2.errors := by
    decide +kernel
  have hends : EndsBody doLoop := by
    unfold EndsBody
    decide +kernel
  exact ⟨isRepeatHead_loopWord, hopener, hcloser, ⟨halone, hends, hbare⟩, hroom, herrors⟩

end brackets

end Parse

end Prose
