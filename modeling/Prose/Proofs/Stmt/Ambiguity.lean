import Prose.Proofs.Block.Levels
import Prose.Proofs.Expr.Alone
import Prose.Proofs.Expr.Bounded
import Prose.Proofs.Expr.Composed
import Prose.Proofs.Expr.Head
import Prose.Proofs.Expr.Leaves
import Prose.Proofs.Stmt.Sign

namespace Prose

open Stmt Session

/-- What a form of statements of the standard grammar, run alone on the slice in a new session,
comes to. -/
def Stmt.Form.alone (f : Stmt.Form) (o : Options) (observers : Nat) (s : Slice) :
    Except Problem (Option Stmt) :=
  ((Parse.inquire .standard s.length (f.read s)).run.run (.start o observers)).1

variable {f g : Stmt.Form} {o : Options} {n : Nat} {s : Slice} {st : Stmt} {t : Token}
  {ts : List Token} {e : Expr}

section leads

/-- What a form with words of its own accepts begins with one of them. -/
theorem exists_lead_of_alone (hf : f ≠ .expression) (h : f.alone o n s = .ok (some st)) :
    ∃ k ∈ f.leads, s.startsWith k = true := by
  by_contra hnone
  push Not at hnone
  have hread : f.read s = pure none :=
    Stmt.read_eq_of_unled hf fun k hk => Bool.not_eq_true _ ▸ hnone k hk
  rw [Form.alone, Parse.inquire, hread] at h
  cases h

/-- Of the words of statements only `if` begins an expression. -/
theorem not_mem_signs_of_mem_leads {k : Keyword} (hk : k ∈ f.leads) (hif : k ≠ .ifWord)
    (g : Expr.Form) : k ∉ g.signs := by
  have hall : ∀ f ∈ Stmt.Form.all, ∀ k ∈ f.leads, k ≠ .ifWord →
      ∀ g ∈ Expr.Form.all, k ∉ g.signs := by
    decide
  have hf : f ∈ Stmt.Form.all := by cases f <;> decide
  exact hall f hf k hk hif g g.mem_all

theorem not_plain_of_mem_leads (ht : t.IsRegular) (hk : t.keyword ∈ f.leads) :
    t.kind.isPlain = false := by
  have hall : ∀ f ∈ Stmt.Form.all, ∀ k ∈ f.leads, k ≠ .unknown ∧ k ≠ .numericLiteral := by decide
  have hf : f ∈ Stmt.Form.all := by cases f <;> decide
  obtain ⟨hunknown, hnumber⟩ := hall f hf _ hk
  exact not_plain_of_keyword ht hunknown hnumber

end leads

/-- What stands behind a slice without its closing `.` is that `.` at most. -/
theorem exists_withoutTerminator_eq_take (s : Slice) : ∃ m, s.withoutTerminator = s.take m ∧
    ∀ t ∈ s.tokens.drop m, t.keyword = .endOfStatement := by
  rw [Slice.withoutTerminator]
  split
  · rename_i hlast
    obtain ⟨d, hd, hdot⟩ := (Option.any_eq_true ..).mp hlast
    obtain ⟨pre, hpre⟩ := List.getLast?_eq_some_iff.mp hd
    refine ⟨_, rfl, fun t ht => ?_⟩
    rw [Slice.length, hpre, List.length_append, List.length_singleton, Nat.add_sub_cancel,
      List.drop_left, List.mem_singleton] at ht
    rw [ht]
    exact beq_iff_eq.mp hdot
  · refine ⟨s.length, ?_, fun t ht => ?_⟩
    · simp [Slice.take, Slice.length]
    · rw [Slice.length, List.drop_length] at ht
      cases ht

section expressions

/-- The question of a statement for a reading is answered by the cascade. -/
theorem run_read (g : Grammar) (block : Slice → StateM Session (List Stmt)) (q : Slice) :
    (ofExpr (Expr.read q)).run (Parse.reply g block) = Parse.read g q :=
  bind_pure (Parse.read g q)

/-- A statement that is an expression is accepted if the cascade reads it without its closing `.` -/
theorem selection_of_alone (h : Form.expression.alone o n s = .ok (some st)) :
    ∃ rule e, s.withoutTerminator.selection o n = .ok (some (rule, e)) ∧
      st = .expression s.position e := by
  rw [Form.alone, Parse.inquire, Form.read, readExpressionStatement_eq] at h
  split at h
  · cases h
  rw [Inquiry.run_bind_query, run_read, Inquiry.run_bind] at h
  rw [Slice.selection]
  generalize (Parse.read .standard s.withoutTerminator).run.run (.start o n) = first at h
  obtain ⟨p | _ | ⟨rule, e⟩, τ⟩ := first
  · cases h
  · cases h
  · refine ⟨rule, e, rfl, ?_⟩
    simp only at h
    split at h
    · cases h
      rfl
    · rw [Inquiry.run_bind_query, Inquiry.run_bind] at h
      split at h
      · cases h
        rfl
      · cases h

/-- The first token of a slice that begins with a word, also without the closing `.` -/
theorem exists_cons_of_startsWith {k : Keyword} (h : s.startsWith k = true)
    (hpos : 0 < s.withoutTerminator.length) :
    ∃ t ts, s.withoutTerminator.tokens = t :: ts ∧ t.keyword = k := by
  obtain ⟨u, us, hs, hk⟩ := Slice.startsWith_iff.mp h
  obtain ⟨m, htake, -⟩ := exists_withoutTerminator_eq_take s
  obtain ⟨rest, hrest⟩ : s.withoutTerminator.tokens <+: s.tokens := htake ▸ List.take_prefix m _
  rcases hbody : s.withoutTerminator.tokens with _ | ⟨t, ts⟩
  · rw [Slice.length, hbody] at hpos
    cases hpos
  · rw [hbody, hs, List.cons_append] at hrest
    obtain ⟨rfl, -⟩ := List.cons.inj hrest
    exact ⟨t, ts, rfl, hk⟩

/-- A slice that begins with `if` is read as a ternary, since no looser form begins with an
operand. -/
theorem reads_ternary (hs : s.IsRegular) (hts : s.tokens = t :: ts) (hk : t.keyword = .ifWord)
    {g : Expr.Form} (h : g.Reads s) : g = .ternary := by
  have hsign : t.keyword ∈ Expr.Form.ternary.signs := by rw [hk]; decide
  rcases eq_or_looser_of_reads hs rfl (by decide) hts hsign h with rfl | ⟨hleft, hlt⟩
  · rfl
  · have hall : ∀ g ∈ Expr.Form.all, g.fixity.isOpenLeft = true →
        g.level ≤ Expr.Form.ternary.level := by
      decide
    exact absurd hlt (Nat.not_lt.mpr (hall g g.mem_all hleft))

/-- If the form of expressions accepts what another form accepts, that is the form of conditionals,
and the expression is a ternary. -/
theorem conditional_of_alone (hs : s.IsRegular) (hf : f ≠ .expression)
    (h : f.alone o n s = .ok (some st)) {rule : Expr.Rule}
    (he : s.withoutTerminator.selection o n = .ok (some (rule, e))) :
    f = .conditional ∧ s.startsWith .ifWord = true ∧ rule = Expr.Form.ternary.rule := by
  obtain ⟨k, hk, hstart⟩ := exists_lead_of_alone hf h
  have houtcome := outcome_of_selection he
  obtain ⟨g, rfl, hg⟩ := exists_reads_of_outcome houtcome
  obtain ⟨t, ts, hts, rfl⟩ := exists_cons_of_startsWith hstart hg.length_pos
  have hregular : s.withoutTerminator.IsRegular := hs.of_isPartOf (isPartOf_withoutTerminator s)
  have ht : t.IsRegular := hregular t (by rw [hts]; exact List.mem_cons_self ..)
  have hif : t.keyword = .ifWord := by
    by_contra hif
    exact not_reads_of_not_leads hts (not_plain_of_mem_leads ht hk)
      (fun g _ => not_mem_signs_of_mem_leads hk hif g) hg
  refine ⟨?_, hif ▸ hstart, congrArg _ (reads_ternary hregular hts hif hg)⟩
  by_contra hne
  rw [hif] at hk
  exact Stmt.not_mem_leads (f := .conditional) (by decide) hne hk

end expressions

section ternaries

/-- The slice has a `then` at the index, and behind it an `otherwise`, as a ternary has. -/
structure IsTernaryAt (s : Slice) (i : Nat) : Prop where
  found : s.first .thenWord 1 = some i
  behind : ∃ j k, (s.drop (i + 1)).firstOf [.otherwise, .otherwiseIf] = some (j, k)

theorem isTernaryAt_of_verdict (h : Grammar.standard.verdict .ternary s = .ok (some e)) :
    ∃ i, IsTernaryAt s i := by
  rw [Grammar.verdict, Expr.Form.read, Expr.readTernary] at h
  split at h
  · cases hn : s.length with
    | zero =>
      rw [hn] at h
      cases h
    | succ n =>
      rw [hn, Expr.readTernaryFrom_succ] at h
      split at h
      · cases h
      · rename_i i hi
        split at h
        · cases h
        · rename_i j k hj
          exact ⟨i, hi, j, k, hj⟩
  · cases h

theorem isTernary_of_verdict (h : Grammar.standard.verdict .ternary s = .ok (some e)) :
    e.isTernary = true := by
  have hreaches := Inquiry.reaches_of_resolve (Expr.asks_form .ternary s) h
  have hparts : Inquiry.Reaches (Expr.Answers fun _ _ => True) (Expr.readTernary s) (some e) :=
    hreaches.mono fun q r _ rule c _ => trivial
  unfold Expr.readTernary at hparts
  split at hparts
  · exact (Expr.composed_of_readTernaryFrom hparts).1
  · cases Inquiry.reaches_pure_iff.mp hparts

/-- A required part of a run that ends well was read. -/
theorem exists_of_run_required {origin name : String} {part : Slice} {whole : List Token}
    {answer : Slice → Parse Reading} {σ υ : Session}
    (h : ((Expr.required origin name part whole).run answer).run.run σ = (.ok e, υ)) :
    ∃ rule, (answer part).run.run σ = (.ok (some (rule, e)), υ) := by
  rw [Expr.required, Expr.requiredOr] at h
  split at h
  · cases h
  · rw [Inquiry.run_bind_query] at h
    obtain ⟨r, τ, hread, h⟩ := Inquiry.run_bind_eq_ok.mp h
    have hanswer : (Expr.read part).run answer = answer part := bind_pure (answer part)
    rw [hanswer] at hread
    obtain _ | ⟨rule, e'⟩ := r
    · cases h
    · cases h
      exact ⟨rule, hread⟩

/-- The form of ternaries begins with its condition. -/
theorem exists_condition_of_run {i : Nat} {answer : Slice → Parse Reading} {σ υ : Session}
    {r : Option Expr} (hs : s.startsWith .ifWord = true) (hi : IsTernaryAt s i)
    (h : ((Expr.readTernary s).run answer).run.run σ = (.ok r, υ)) :
    ∃ rule c τ, (answer (s.extract 1 i)).run.run σ = (.ok (some (rule, c)), τ) := by
  obtain ⟨m, hm⟩ := Nat.exists_eq_add_one_of_ne_zero
    (Nat.ne_of_gt (s.length_pos_of_startsWith hs))
  obtain ⟨j, k, hj⟩ := hi.behind
  rw [Expr.readTernary, if_pos hs, hm, Expr.readTernaryFrom_succ] at h
  simp only [hi.found, hj] at h
  rw [Inquiry.run_bind_query] at h
  obtain ⟨c, τ, hc, -⟩ := Inquiry.run_bind_eq_ok.mp h
  obtain ⟨rule, hread⟩ := exists_of_run_required hc
  exact ⟨rule, c, τ, hread⟩

end ternaries

section conditions

/-- What is read one level deeper in a new session is read in a new session. -/
theorem selection_of_deeper {m : Nat} {r : Reading} {τ : Session} (hm : s.length ≤ m)
    (h : (Parse.readWithin .standard m s).run.run { start o n with depth := 1 } = (.ok r, τ)) :
    s.selection o n = .ok r := by
  let σ : Session := { start o n with depth := 1 }
  have hbound : (Parse.readWithin .standard m s).run.run σ = (Parse.read .standard s).run.run σ :=
    Parse.readWithin_eq_of_suffices (.inl hm) (.inl (Nat.le_refl _))
  rw [hbound] at h
  have hallows : σ.Allows o.maxNestingDepth 0 := Nat.le_add_right _ _
  rcases (Parse.needsAtMost_read (g := .standard) s).same σ o.maxNestingDepth 0 hallows with
    hsame | hover
  · have hstart : σ.under o.maxNestingDepth 0 = start o n := rfl
    rw [hstart, h] at hsame
    rw [Slice.selection, hsame]
  -- No problem ends the reading, and a reading reports none.
  · rw [h] at hover
    rcases hover.seen with ⟨p, -, hp⟩ | ⟨p, hp, -⟩
    · cases hp
    · obtain ⟨r', τ', hrun, ⟨-, halike⟩, -⟩ := Parse.readWithin_run (Nat.le_refl s.length) (.refl s)
        (σ := σ) (recalls_start .standard s o n)
      rw [Parse.read] at h
      rw [h] at hrun
      cases hrun
      rw [halike.errors] at hp
      cases hp

/-- A form that does not take the slice leaves it to the next ones. -/
theorem firstReading_cons_of_read_eq {answer : Slice → Parse Reading} {rule : Expr.Rule}
    (h : rule.form.read s = pure none) (rules : List Expr.Rule) :
    Parse.firstReading answer s (rule :: rules) = Parse.firstReading answer s rules := by
  rw [Parse.firstReading, h]
  rfl

/-- Before a slice is read as a ternary its condition is read, one level deeper. -/
theorem exists_condition_of_selection {i : Nat} {r : Expr.Rule × Expr}
    (hs : s.startsWith .ifWord = true) (hi : IsTernaryAt s i)
    (h : s.selection o n = .ok (some r)) :
    0 < o.maxNestingDepth ∧ ∃ c, (s.extract 1 i).selection o n = .ok (some c) := by
  have hpos := s.length_pos_of_startsWith hs
  obtain ⟨m, hm⟩ := Nat.exists_eq_add_one_of_ne_zero (Nat.ne_of_gt hpos)
  have hne : ¬s.isEmpty = true := by
    rw [s.isEmpty_iff]
    omega
  have hfind : (start o n).memo.find? s = none := Memo.find?_empty s
  rw [Slice.selection, Parse.read, hm] at h
  by_cases hdeep : (start o n).options.maxNestingDepth ≤ (start o n).depth
  · rw [Parse.readWithin_tooDeep hne hfind hdeep] at h
    cases h
  refine ⟨Nat.not_le.mp hdeep, ?_⟩
  -- The two forms that are tried before ask nothing.
  have hunled (f : Expr.Form) (hleft : f.fixity.isOpenLeft = false) (hf : .ifWord ∉ f.signs)
      (hkinds : f.kinds = []) : f.read s = pure none := by
    obtain ⟨t, ts, hts, hk⟩ := Slice.startsWith_iff.mp hs
    refine Expr.read_eq_of_unled hleft fun u us hus => ?_
    rw [hts] at hus
    obtain ⟨rfl, -⟩ := List.cons.inj hus
    rw [hk, hkinds]
    exact ⟨hf, fun _ => List.not_mem_nil⟩
  have hrules : Grammar.standard.expressions = Expr.Form.parenthesized.rule ::
      Expr.Form.article.rule :: Expr.Form.ternary.rule :: Grammar.standard.expressions.drop 3 := by
    decide
  rcases hfirst : (Parse.firstReading (Parse.readWithin .standard m) s
      Grammar.standard.expressions).run.run
      { start o n with depth := (start o n).depth + 1 } with ⟨p | r', τ⟩
  · rw [Parse.readWithin_deeper_error hne hfind hdeep hfirst] at h
    cases h
  · rw [hrules, firstReading_cons_of_read_eq (hunled .parenthesized rfl (by decide) rfl),
      firstReading_cons_of_read_eq (hunled .article rfl (by decide) rfl),
      Parse.firstReading] at hfirst
    obtain ⟨e, υ, hternary, -⟩ := Inquiry.run_bind_eq_ok.mp hfirst
    obtain ⟨rule, c, υ', hc⟩ := exists_condition_of_run hs hi hternary
    refine ⟨(rule, c), selection_of_deeper ?_ hc⟩
    rw [Slice.length_extract]
    omega

end conditions

section acceptance

/-- A conditional without a block in brackets is a single clause. -/
theorem clauses_of_inline (h : ∀ t ∈ s.tokens, t.keyword ≠ .blockEnd) : clauses s = [s] := by
  have hnone : s.allOf .blockEnd = [] := by
    rw [List.eq_nil_iff_forall_not_mem]
    intro i hi
    obtain ⟨t, ht, hk⟩ := Option.map_eq_some_iff.mp (Slice.getElem?_of_mem_allOf hi)
    exact h t (List.mem_of_getElem? ht) hk
  rw [clauses_eq_clausesFrom, hnone, clausesFrom]
  simp [Slice.drop]

theorem not_isEmpty_withoutTerminator (h : ∃ t ∈ s.tokens, t.keyword ≠ .endOfStatement) :
    ¬s.withoutTerminator.isEmpty = true := by
  obtain ⟨t, ht, hk⟩ := h
  obtain ⟨m, htake, hdots⟩ := exists_withoutTerminator_eq_take s
  rw [Slice.isEmpty, List.isEmpty_iff, htake, Slice.tokens_take]
  intro hempty
  rw [← List.take_append_drop m s.tokens, hempty, List.nil_append] at ht
  exact hk (hdots t ht)

/-- A condition is there, and the cascade reads it. -/
theorem requiredOr_run {g : Grammar} {block : Slice → StateM Session (List Stmt)}
    (missing invalid : Problem) (part : Slice) (σ : Session) :
    ((ofExpr (Expr.requiredOr missing invalid part)).run (Parse.reply g block)).run.run σ =
      if part.isEmpty then (.error missing, σ)
      else
        match (Parse.read g part).run.run σ with
        | (.ok (some (_, e)), τ) => (.ok e, τ)
        | (.ok none, τ) => (.error invalid, τ)
        | (.error p, τ) => (.error p, τ) := by
  rw [Expr.requiredOr]
  split
  · rfl
  · change ((ofExpr (Expr.read part) >>= fun r => ofExpr _).run
      (Parse.reply g block)).run.run σ = _
    rw [Inquiry.run_bind_query, run_read, Inquiry.run_bind]
    generalize (Parse.read g part).run.run σ = first
    obtain ⟨q | _ | ⟨rule, e⟩, τ⟩ := first <;> rfl

theorem run_requiredOr {block : Slice → StateM Session (List Stmt)} {missing invalid : Problem}
    {part : Slice} {rule : Expr.Rule} {σ τ : Session}
    (h : (Parse.read .standard part).run.run σ = (.ok (some (rule, e)), τ)) :
    ((ofExpr (Expr.requiredOr missing invalid part)).run
      (Parse.reply .standard block)).run.run σ = (.ok e, τ) := by
  have hne : ¬part.isEmpty = true := by
    intro hempty
    rw [Parse.read, Parse.readWithin_empty hempty] at h
    cases h
  rw [requiredOr_run, if_neg hne, h]

/-- A body is missing, or it is a block one level deeper. -/
theorem requiredBody_run {g : Grammar} {block : Slice → StateM Session (List Stmt)}
    (origin : String) (part : Slice) (whole : List Token) (σ : Session) :
    ((requiredBody origin part whole).run (Parse.reply g block)).run.run σ =
      if part.withoutTerminator.isEmpty then (.error (Expr.missingPart origin "a body" whole), σ)
      else
        (Parse.nested origin whole
          (block ((part.withoutTerminator.enclosed .blockStart).getD part) :
            Parse (List Stmt))).run.run σ := by
  rw [requiredBody]
  split
  · rfl
  · exact congrArg (fun x : Parse (List Stmt) => x.run.run σ) (bind_pure _)

/-- A body with a token that ends no statement is there, and a block is always read. -/
theorem exists_of_run_requiredBody (block : Slice → StateM Session (List Stmt)) (origin : String)
    (whole : List Token) {part : Slice} {σ : Session}
    (ht : ∃ t ∈ part.tokens, t.keyword ≠ .endOfStatement)
    (hroom : σ.depth < σ.options.maxNestingDepth) :
    ∃ body υ, ((requiredBody origin part whole).run (Parse.reply .standard block)).run.run σ =
      (.ok body, υ) := by
  rw [requiredBody_run, if_neg (not_isEmpty_withoutTerminator ht), Parse.nested_run,
    if_neg (Nat.not_le.mpr hroom)]
  exact ⟨_, _, rfl⟩

/-- The form of conditionals accepts a slice of one clause of which the condition is read. -/
theorem exists_alone_conditional {i : Nat} {c : Expr.Rule × Expr}
    (hs : s.startsWith .ifWord = true) (hends : ∀ t ∈ s.tokens, t.keyword ≠ .blockEnd)
    (hi : s.first .thenWord 1 = some i)
    (hbody : ∃ t ∈ (s.drop (i + 1)).tokens, t.keyword ≠ .endOfStatement)
    (hroom : 0 < o.maxNestingDepth) (hc : (s.extract 1 i).selection o n = .ok (some c)) :
    ∃ st, Form.conditional.alone o n s = .ok (some st) := by
  obtain ⟨rule, e⟩ := c
  obtain ⟨r, τ, hτ, ⟨-, halike⟩, -⟩ := Parse.readWithin_run (Nat.le_refl _) (.refl _)
    (recalls_start .standard (s.extract 1 i) o n)
  have hr : r = .ok (some (rule, e)) := by
    rw [← hc, Slice.selection, Parse.read, hτ]
  subst hr
  -- The condition leaves the depth as it was, so there is a level left for the body.
  have hdepth : τ.depth < τ.options.maxNestingDepth := by
    rw [halike.depth, halike.options]
    exact hroom
  obtain ⟨body, υ, hbody⟩ := exists_of_run_requiredBody (Parse.blockWithin .standard s.length)
    conditionalOrigin s.tokens hbody hdepth
  have hclause : ((readClause s).run
      (Parse.reply .standard (Parse.blockWithin .standard s.length))).run.run (start o n) =
        (.ok (e, body), υ) := by
    rw [readClause_eq, hi]
    simp only
    rw [Inquiry.run_bind_query]
    refine Inquiry.run_bind_eq_ok.mpr ⟨e, τ, run_requiredOr hτ, ?_⟩
    rw [Inquiry.run_bind_query]
    exact Inquiry.run_bind_eq_ok.mpr ⟨body, υ, hbody, rfl⟩
  -- Without a closing brace nothing divides the chain, so its first clause is all of it.
  have hchain : [s].flatMap clauses = [s] := by
    rw [List.flatMap_singleton, clauses_of_inline hends]
  have hstatement : ((readConditional [s]).run
      (Parse.reply .standard (Parse.blockWithin .standard s.length))).run.run (start o n) =
        (.ok (.conditional s.position e body [] none), υ) := by
    rw [readConditional_eq, hchain]
    simp only [if_pos hs]
    rw [Inquiry.run_bind_query]
    exact Inquiry.run_bind_eq_ok.mpr ⟨(e, body), υ, hclause, rfl⟩
  have hquery : Form.conditional.read s = readConditional [s] >>= fun st => pure (some st) := by
    rw [Form.read, readIf, if_pos hs]
    rfl
  refine ⟨.conditional s.position e body [] none, ?_⟩
  rw [Form.alone, Parse.inquire, hquery, Inquiry.run_bind_query,
    Inquiry.run_bind_eq_ok.mpr ⟨_, υ, hstatement, rfl⟩]

end acceptance

section both

/-- A slice that is a ternary without its closing `.` is accepted by the form of conditionals. -/
theorem exists_alone_conditional_of_ternary (hs : s.IsRegular)
    (hstart : s.startsWith .ifWord = true)
    (he : s.withoutTerminator.selection o n = .ok (some (Expr.Form.ternary.rule, e))) :
    e.isTernary = true ∧ ∃ st, Form.conditional.alone o n s = .ok (some st) := by
  obtain ⟨m, htake, hdots⟩ := exists_withoutTerminator_eq_take s
  have houtcome := outcome_of_selection he
  obtain ⟨g, hg, hpos, hverdict, -⟩ := Grammar.outcome_standard_eq_some_iff.mp houtcome
  obtain rfl : Expr.Form.ternary = g := congrArg Expr.Rule.form hg
  obtain ⟨t, ts, hts, hk⟩ := exists_cons_of_startsWith hstart hpos
  have hbodyStart : s.withoutTerminator.startsWith .ifWord = true :=
    Slice.startsWith_iff.mpr ⟨t, ts, hts, hk⟩
  obtain ⟨i, hi⟩ := isTernaryAt_of_verdict hverdict
  obtain ⟨hroom, c, hc⟩ := exists_condition_of_selection hbodyStart hi he
  have hinline := isInline_of_outcome (hs.of_isPartOf (isPartOf_withoutTerminator s)) houtcome
  have hlt : i < m := by
    have hlen := Slice.lt_length_of_first hi.found
    rw [htake, Slice.length_take] at hlen
    omega
  -- An expression holds no brace, and behind it there are only dots.
  have hends : ∀ t ∈ s.tokens, t.keyword ≠ .blockEnd := by
    intro t ht hk
    rw [← List.take_append_drop m s.tokens] at ht
    rcases List.mem_append.mp ht with ht | ht
    · have hflat := hinline.2 t (by rw [htake]; exact ht)
      rw [hk] at hflat
      cases hflat
    · rw [hdots t ht] at hk
      cases hk
  have hfound : s.first .thenWord 1 = some i := by
    rw [← hi.found, htake, Slice.first_take (fun t ht => by rw [hdots t ht]; decide) (by omega)]
  -- The body behind `then` holds at least the `otherwise` of the ternary.
  have hbody : ∃ t ∈ (s.drop (i + 1)).tokens, t.keyword ≠ .endOfStatement := by
    obtain ⟨j, k, hj⟩ := hi.behind
    obtain ⟨hmem, hget⟩ := Slice.getElem?_of_firstOf hj
    obtain ⟨t, ht, rfl⟩ := Option.map_eq_some_iff.mp hget
    refine ⟨t, ?_, ?_⟩
    · have ht := List.mem_of_getElem? ht
      rw [htake, Slice.tokens_drop, Slice.tokens_take] at ht
      exact ((List.take_prefix m s.tokens).drop (i + 1)).subset ht
    · rintro hdot
      rw [hdot] at hmem
      revert hmem
      decide
  rw [htake, Slice.extract_take s (Nat.le_of_lt hlt)] at hc
  exact ⟨isTernary_of_verdict hverdict, exists_alone_conditional hstart hends hfound hbody hroom hc⟩

/-- Two forms of statements accept one slice of condensed tokens exactly if they are those of
conditionals and of expressions, and the slice begins with `if` and is a ternary expression. So at
most one form accepts a slice that does not begin with `if`. -/
theorem both_alone_iff (hs : s.IsCondensed) (hlevel : g.level < f.level) :
    ((∃ st, f.alone o n s = .ok (some st)) ∧ ∃ st, g.alone o n s = .ok (some st)) ↔
      f = .conditional ∧ g = .expression ∧ s.startsWith .ifWord = true ∧
        ∃ p e, e.isTernary = true ∧ g.alone o n s = .ok (some (.expression p e)) := by
  have hregular := hs.isRegular
  -- Nothing is below the form of expressions.
  have hf : f ≠ .expression := by
    rintro rfl
    revert hlevel
    cases g <;> decide
  constructor
  · rintro ⟨⟨st, hst⟩, st', hst'⟩
    obtain ⟨k, hk, hstart⟩ := exists_lead_of_alone hf hst
    -- All other forms begin with a word, and no word leads two of them.
    have hg : g = .expression := by
      by_contra hg
      obtain ⟨k', hk', hstart'⟩ := exists_lead_of_alone hg hst'
      obtain ⟨t, ts, hts, rfl⟩ := Slice.startsWith_iff.mp hstart
      obtain ⟨t', ts', hts', rfl⟩ := Slice.startsWith_iff.mp hstart'
      rw [hts] at hts'
      obtain ⟨rfl, -⟩ := List.cons.inj hts'
      exact Stmt.not_mem_leads hk (fun hsame => Nat.ne_of_lt hlevel (congrArg _ hsame)) hk'
    subst hg
    obtain ⟨rule, e, he, rfl⟩ := selection_of_alone hst'
    obtain ⟨rfl, hif, rfl⟩ := conditional_of_alone hregular hf hst he
    have hternary := (exists_alone_conditional_of_ternary hregular hif he).1
    exact ⟨rfl, rfl, hif, s.position, e, hternary, hst'⟩
  · rintro ⟨rfl, rfl, hif, p, e, -, hst⟩
    obtain ⟨rule, e', he, -⟩ := selection_of_alone hst
    obtain ⟨r, hr, hreads⟩ := exists_reads_of_outcome (outcome_of_selection he)
    obtain ⟨t, ts, hts, hk⟩ := exists_cons_of_startsWith hif hreads.length_pos
    have hbody := hregular.of_isPartOf (isPartOf_withoutTerminator s)
    rw [hr, reads_ternary hbody hts hk hreads] at he
    exact ⟨(exists_alone_conditional_of_ternary hregular hif he).2, _, hst⟩

/-- A choice of two values. As a conditional its body is `$b otherwise $c .`, in which there is a
problem; as an expression its value is not used. -/
def choiceStatement : Slice :=
  .ofSource "if $a then $b otherwise $c ." "t"

theorem exists_conditional_choiceStatement :
    ∃ st, Form.conditional.alone {} 0 choiceStatement = .ok (some st) :=
  exists_eq_ok_some (by decide +kernel)

theorem exists_expression_choiceStatement :
    ∃ st, Form.expression.alone {} 0 choiceStatement = .ok (some st) :=
  exists_eq_ok_some (by decide +kernel)

/-- The expression that is accepted is a ternary. -/
theorem both_alone_choiceStatement :
    choiceStatement.IsCondensed ∧ Form.expression.level < Form.conditional.level ∧
      (∃ st, Form.conditional.alone {} 0 choiceStatement = .ok (some st)) ∧
      ∃ p e, e.isTernary = true ∧
        Form.expression.alone {} 0 choiceStatement = .ok (some (.expression p e)) := by
  have hcondensed : choiceStatement.IsCondensed := Slice.isCondensed_ofSource _ _
  have hlevel : Form.expression.level < Form.conditional.level := by decide
  have hboth := (both_alone_iff hcondensed hlevel).mp
    ⟨exists_conditional_choiceStatement, exists_expression_choiceStatement⟩
  exact ⟨hcondensed, hlevel, exists_conditional_choiceStatement, hboth.2.2.2⟩

/-- Two forms of statements accept one slice of condensed tokens. -/
theorem two_statements_accept_choiceStatement :
    choiceStatement.IsCondensed ∧ choiceStatement.isEmpty = false ∧
      ∃ f g : Stmt.Form, f ≠ g ∧ (∃ st, f.alone {} 0 choiceStatement = .ok (some st)) ∧
        ∃ st, g.alone {} 0 choiceStatement = .ok (some st) :=
  ⟨Slice.isCondensed_ofSource _ _, by decide +kernel, .conditional, .expression, by decide,
    exists_conditional_choiceStatement, exists_expression_choiceStatement⟩

end both

end Prose
