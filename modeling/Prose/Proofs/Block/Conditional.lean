import Prose.Proofs.Block.Onward
import Prose.Proofs.Expr.Alone
import Prose.Proofs.Expr.Leaves
import Prose.Proofs.Program
import Prose.Proofs.Segment.Chain

namespace Prose.Parse

open Session Segment

/-- The tokens are read as the condition `e` in a new session, and no `then` outside of brackets is
among them. -/
structure IsCondition (g : Grammar) (o : Options) (observers : Nat) (e : Expr)
    (cs : List Token) : Prop where
  condensed : ∀ t ∈ cs, t.IsCondensed
  accepted : ∃ rule, ((read g (.ofTokens cs)).run.run (.start o observers)).1 =
    .ok (some (rule, e))
  noThen : (Slice.ofTokens cs).first .thenWord 0 = none

/-- The tokens are the word `k`, the tokens of the condition `e`, the word `then` and a body, which
is read as the statements `body` in a new session. -/
inductive IsClause (g : Grammar) (o : Options) (observers : Nat) (k : Keyword) :
    Position → Expr → List Stmt → List Token → Prop
  | mk {lead sep : Token} {e : Expr} {cs inner bs : List Token} (hlead : lead.keyword = k)
      (hc : IsCondition g o observers e cs) (hsep : sep.keyword = .thenWord)
      (hb : IsClauseBody inner bs) :
      IsClause g o observers k lead.position e (freshBlock g o observers inner).1
        (lead :: (cs ++ sep :: bs))

/-- The tokens are those of the clauses behind the first one: any number of clauses that begin with
`otherwise if`, and at the end perhaps `otherwise` with a body. -/
inductive AreFurtherClauses (g : Grammar) (o : Options) (observers : Nat) :
    List Branch → Option (List Stmt) → List (List Token) → Prop
  | none : AreFurtherClauses g o observers [] none []
  | otherwise {lead : Token} {inner bs : List Token} (hlead : lead.keyword = .otherwise)
      (hb : IsClauseBody inner bs) :
      AreFurtherClauses g o observers [] (some (freshBlock g o observers inner).1) [lead :: bs]
  | more {p : Position} {e : Expr} {body : List Stmt} {branches : List Branch}
      {last : Option (List Stmt)} {ts : List Token} {tss : List (List Token)}
      (h : IsClause g o observers .otherwiseIf p e body ts)
      (hrest : AreFurtherClauses g o observers branches last tss) :
      AreFurtherClauses g o observers (.mk p e body :: branches) last (ts :: tss)

variable {g : Grammar} {o : Options} {n k : Nat} {w : Keyword} {p : Position} {e : Expr}
  {body : List Stmt} {branches : List Branch} {last : Option (List Stmt)} {cs ts inner bs : List Token}
  {tss : List (List Token)}

section texts

theorem IsCondition.isInline (h : IsCondition g o n e cs) : IsInline cs := by
  obtain ⟨rule, hread⟩ := h.accepted
  have hregular : ∀ t ∈ (Slice.ofTokens cs).tokens, t.IsRegular := fun t ht =>
    (h.condensed t ht).isRegular
  exact isInline_of_outcome hregular
    (outcome_of_read (.refl _) (recalls_start g (.ofTokens cs) o n) hread)

theorem IsCondition.ne_nil (h : IsCondition g o n e cs) : cs ≠ [] := by
  rintro rfl
  obtain ⟨rule, hread⟩ := h.accepted
  cases hread

theorem IsCondition.not_mem_depthZero (h : IsCondition g o n e cs) :
    .thenWord ∉ (depthZero 0 0 cs).map (·.2) := by
  intro hmem
  obtain ⟨entry, hentry, hk⟩ := List.mem_map.mp hmem
  have hnone := h.noThen
  rw [Slice.first_eq, Option.map_eq_none_iff, List.find?_eq_none] at hnone
  exact hnone entry hentry (by rw [hk]; rfl)

theorem IsClause.text (h : IsClause g o n w p e body ts) : IsClauseText w ts := by
  cases h with
  | @mk lead sep e cs inner bs hlead hc hsep hb =>
    have hsepFlat : sep.IsFlat := ⟨by rw [hsep]; rfl, by rw [hsep]; rfl⟩
    have hassoc : lead :: (cs ++ sep :: bs) = lead :: ((cs ++ [sep]) ++ bs) := by
      rw [List.append_assoc, List.singleton_append]
    rw [hassoc]
    exact .mk hlead (hc.isInline.append (.word hsepFlat (by rw [hsep]; rfl))) hb

/-- A clause has the place of its first word. -/
theorem IsClause.position_eq (h : IsClause g o n w p e body ts) (k : Nat) :
    (⟨k, ts⟩ : Slice).position = p := by
  cases h
  rfl

theorem IsClause.startsWith (h : IsClause g o n w p e body ts) (k : Nat) :
    (⟨k, ts⟩ : Slice).startsWith w = true := by
  cases h with
  | mk hlead hc hsep hb => simp [Slice.startsWith, hlead]

/-- A clause in front of further clauses. -/
theorem isChainText_cons (hw : w ≠ .otherwise) (h : IsClauseText w ts)
    (hrest : tss = [] ∨ ∃ next, (next = .otherwiseIf ∨ next = .otherwise) ∧
      IsChainText next tss) : IsChainText w (ts :: tss) := by
  rcases hrest with rfl | ⟨next, hnext, hrest⟩
  · exact .last h
  · exact .cons h hw hnext hrest

theorem AreFurtherClauses.text (h : AreFurtherClauses g o n branches last tss) :
    tss = [] ∨ ∃ next, (next = .otherwiseIf ∨ next = .otherwise) ∧ IsChainText next tss := by
  induction h with
  | none => exact .inl rfl
  | @otherwise lead inner bs hlead hb =>
    have htext : IsClauseText .otherwise (lead :: ([] ++ bs)) := .mk hlead ⟨.nil, by simp⟩ hb
    exact .inr ⟨_, .inr rfl, .last htext⟩
  | more h _ ih => exact .inr ⟨_, .inl rfl, isChainText_cons (by decide) h.text ih⟩

end texts

section reading

/-- A condition is what its tokens are read as alone. -/
theorem comes_condition (h : IsCondition g o n e cs) (missing invalid : Problem) (k : Nat) :
    Comes g o k (k + cs.length) (Stmt.ofExpr (Expr.requiredOr missing invalid ⟨k, cs⟩)) e := by
  obtain ⟨rule, hread⟩ := h.accepted
  have hne : ¬(⟨k, cs⟩ : Slice).isEmpty = true := by
    intro hempty
    exact h.ne_nil (List.isEmpty_iff.mp hempty)
  have hquestion : Comes g o k (k + cs.length)
      (Inquiry.question (Stmt.Question.reading ⟨k, cs⟩) : Stmt.Query Reading) (some (rule, e)) :=
    comes_question fun τ hτ => read_onward hτ hread
  rw [Expr.requiredOr, if_neg hne]
  exact hquestion.bind (comes_pure (Nat.le_refl _) e)

/-- The statements of a body are those of the tokens inside it. -/
theorem comes_requiredBody (h : IsClauseBody inner bs) (hroom : inner.length + 1 < o.maxNestingDepth)
    (origin : String) (whole : List Token) (n k : Nat) :
    Comes g o k (k + bs.length) (Stmt.requiredBody origin ⟨k, bs⟩ whole)
      (freshBlock g o n inner).1 := by
  have hblock (i : Nat) : Comes g o i (i + inner.length)
      (Stmt.readBlock origin whole ⟨i, inner⟩) (freshBlock g o n inner).1 :=
    comes_question fun τ hτ => reply_block_onward origin whole hτ hroom n
  -- A body stands in braces, which are taken off, or is one sentence, whose `.` is taken off.
  cases h with
  | braced h =>
    have htwo := h.length_eq
    have hne : ¬(⟨k, bs⟩ : Slice).isEmpty = true := by
      cases h
      exact Bool.false_ne_true
    rw [Stmt.requiredBody, Slice.withoutTerminator_of_isBraced h, Slice.enclosed_of_isBraced h]
    simp only [if_neg hne, Option.getD_some]
    exact (hblock (k + 1)).mono (Nat.le_succ k) (by omega)
  | sentence h =>
    cases h with
    | @mk ts dot hts hflat hdots hdot =>
      have hne : ¬(⟨k, ts⟩ : Slice).isEmpty = true := by
        intro hempty
        exact hts (List.isEmpty_iff.mp hempty)
      -- A sentence in one line does not begin with a brace, so nothing more is taken off.
      have hstart : (⟨k, ts⟩ : Slice).startsWith .blockStart = false := by
        cases ts with
        | nil => rfl
        | cons t ts =>
          have hinline := (hflat t (List.mem_cons_self ..)).isInline
            (hdots t (List.mem_cons_self ..))
          rw [Slice.startsWith, List.head?_cons, Option.any_some, beq_eq_false_iff_ne]
          intro hk
          rw [hk] at hinline
          cases hinline
      rw [Stmt.requiredBody, Slice.withoutTerminator_of_concat ts hdot rfl,
        Slice.enclosed_eq_none_of_startsWith hstart]
      simp only [if_neg hne, Option.getD_none]
      exact hblock k

/-- A clause is cut at its `then`, as neither the condition nor a bracket in it shows another one. -/
theorem comes_readClause (h : IsClause g o n w p e body ts) (hroom : ts.length < o.maxNestingDepth)
    (k : Nat) : Comes g o k (k + ts.length) (Stmt.readClause ⟨k, ts⟩) (e, body) := by
  cases h with
  | @mk lead sep e cs inner bs hlead hc hsep hb =>
    have hsepFlat : sep.IsFlat := ⟨by rw [hsep]; rfl, by rw [hsep]; rfl⟩
    have hinner := hb.length_le
    have hlen : (lead :: (cs ++ sep :: bs)).length = 1 + cs.length + 1 + bs.length := by
      simp only [List.length_cons, List.length_append]
      omega
    have hthen : (⟨k, lead :: (cs ++ sep :: bs)⟩ : Slice).first .thenWord 1 = some (1 + cs.length) :=
      Slice.first_eq_some hc.isInline.nested.shows hc.not_mem_depthZero hsepFlat hsep rfl
    have hcondition : (⟨k, lead :: (cs ++ sep :: bs)⟩ : Slice).extract 1 (1 + cs.length) =
        ⟨k + 1, cs⟩ := Slice.extract_eq [lead] cs (sep :: bs) rfl rfl rfl
    have hbody : (⟨k, lead :: (cs ++ sep :: bs)⟩ : Slice).drop (1 + cs.length + 1) =
        ⟨k + (1 + cs.length + 1), bs⟩ :=
      Slice.drop_eq (lead :: (cs ++ [sep])) bs (by simp) (by simp; omega)
    rw [Stmt.readClause_eq, hthen]
    simp only [hcondition, hbody]
    refine ((comes_condition hc _ _ (k + 1)).mono (Nat.le_succ k) (Nat.le_refl _)).bind ?_
    refine ((comes_requiredBody hb (by omega) _ _ n (k + (1 + cs.length + 1))).mono (by omega)
      (Nat.le_refl _)).bind ?_
    exact comes_pure (by omega) _

/-- Clauses that stand one behind the other are read in turn, each from a session that remembers
nothing of it. -/
theorem comes_readFurtherClauses (h : AreFurtherClauses g o n branches last tss)
    (hroom : tss.flatten.length < o.maxNestingDepth) (k : Nat) :
    Comes g o k (k + tss.flatten.length) (Stmt.readFurtherClauses (slicesFrom k tss))
      (branches, last) := by
  induction h generalizing k with
  | none => exact comes_pure (Nat.le_add_right k _) _
  | @otherwise lead inner bs hlead hb =>
    have hinner := hb.length_le
    rw [List.flatten_singleton, List.length_cons] at hroom ⊢
    have hstart : (⟨k, lead :: bs⟩ : Slice).startsWith .otherwise = true := by
      simp [Slice.startsWith, hlead]
    have hstart' : (⟨k, lead :: bs⟩ : Slice).startsWith .otherwiseIf = false := by
      simp [Slice.startsWith, hlead]
    have hbody : (⟨k, lead :: bs⟩ : Slice).drop 1 = ⟨k + 1, bs⟩ := rfl
    rw [slicesFrom, slicesFrom, Stmt.readFurtherClauses_cons, hstart, hstart', hbody]
    refine ((comes_requiredBody hb (by omega) _ _ n (k + 1)).mono (Nat.le_succ k)
      (Nat.le_refl _)).bind ?_
    exact comes_pure (by omega) _
  | @more p e body branches last ts tss h hrest ih =>
    rw [List.flatten_cons, List.length_append] at hroom ⊢
    rw [slicesFrom, Stmt.readFurtherClauses_cons, if_pos (h.startsWith k), h.position_eq k]
    refine (comes_readClause h (by omega) k).bind ?_
    refine (ih (by omega) (k + ts.length)).bind ?_
    exact comes_pure (by omega) _

theorem comes_readConditional {slices : List Slice}
    (hslices : slices.flatMap Stmt.clauses = slicesFrom 0 (ts :: tss))
    (h : IsClause g o n .ifWord p e body ts) (hrest : AreFurtherClauses g o n branches last tss)
    (hroom : (ts ++ tss.flatten).length < o.maxNestingDepth) :
    Comes g o 0 (ts ++ tss.flatten).length (Stmt.readConditional slices)
      (.conditional p e body branches last) := by
  rw [List.length_append] at hroom ⊢
  have hclause := comes_readClause h (by omega) 0
  have hfurther := comes_readFurtherClauses hrest (by omega) ts.length
  rw [Nat.zero_add] at hclause
  rw [Stmt.readConditional_eq, hslices, slicesFrom, Nat.zero_add]
  simp only [if_pos (h.startsWith 0), h.position_eq 0]
  exact hclause.bind (hfurther.bind (comes_pure (Nat.le_refl _) _))

end reading

/-- A conditional is one statement, however many clauses it has and whichever of its bodies are blocks
in brackets: it has the conditions and bodies of its clauses in their order, and the statements behind
`otherwise` if that is there. -/
theorem freshBlock_conditional (g : Grammar) (o : Options) (observers : Nat)
    (h : IsClause g o observers .ifWord p e body ts)
    (hrest : AreFurtherClauses g o observers branches last tss)
    (hroom : (ts ++ tss.flatten).length < o.maxNestingDepth) :
    (freshBlock g o observers (ts ++ tss.flatten)).1 =
      [.conditional p e body branches last] := by
  have hchain : IsChainText .ifWord (ts :: tss) :=
    isChainText_cons (by decide) h.text hrest.text
  obtain ⟨slices, hblock, hclauses⟩ := Sentence.ofBlock_chain o.requireTerminators hchain
  -- Dividing the block may have logged a warning, but nothing is remembered yet.
  obtain ⟨υ, hrun, -⟩ := comes_readConditional hclauses h hrest hroom _
    (IsFreshFrom.opened o observers 0
      (Segment.divide o.requireTerminators (.ofTokens (ts ++ tss.flatten))))
  have hfresh : freshBlock g o observers (ts ++ tss.flatten) =
      (sentences g (reply g (block g)) (Sentence.ofBlock o.requireTerminators
        (.ofTokens (ts ++ tss.flatten)))).run
          ((start o observers).opened (Segment.divide o.requireTerminators
            (.ofTokens (ts ++ tss.flatten)))) :=
    block_run (.ofTokens (ts ++ tss.flatten)) (.start o observers)
  rw [List.flatten_cons] at hblock
  rw [hfresh, hblock, sentences_cons_run, sentence, hrun]
  rfl

def mixedCheck : List Token :=
  (Slice.ofSource
    ("if $a then \x7b if $b then break . otherwise exit . \x7d " ++
      "otherwise if $b then break . otherwise exit .") "t").tokens

def mixedToken (i : Nat) : Token :=
  mixedCheck.getD i default

theorem keywords_mixedToken :
    [0, 2, 3, 12, 13, 15, 16, 17, 18, 19, 20].map (fun i => (mixedToken i).keyword) =
      [.ifWord, .thenWord, .blockStart, .blockEnd, .otherwiseIf, .thenWord, .breakWord,
        .endOfStatement, .otherwise, .exit, .endOfStatement] := by
  decide +kernel

def mixedInner : List Token :=
  (mixedCheck.drop 4).take 8

def mixedFirst : List Token :=
  mixedToken 0 :: ([mixedToken 1] ++ mixedToken 2 :: (mixedToken 3 ::
    (mixedInner ++ [mixedToken 12])))

def mixedFurther : List (List Token) :=
  [mixedToken 13 :: ([mixedToken 14] ++ mixedToken 15 :: ([mixedToken 16] ++ [mixedToken 17])),
    mixedToken 18 :: ([mixedToken 19] ++ [mixedToken 20])]

theorem exists_isCondition_mixedToken {i : Nat} (hi : mixedToken i ∈ mixedCheck)
    (haccepted : ((read .standard (.ofTokens [mixedToken i])).run.run
      (.start {} 0)).1.toOption.join.isSome = true)
    (hthen : (Slice.ofTokens [mixedToken i]).first .thenWord 0 = none) :
    ∃ e, IsCondition .standard {} 0 e [mixedToken i] := by
  obtain ⟨⟨rule, e⟩, hread⟩ := exists_eq_ok_some haccepted
  have hcondensed : (mixedToken i).IsCondensed := ⟨_, Slice.isCondensed_ofSource _ _, hi⟩
  exact ⟨e, List.forall_mem_singleton.mpr hcondensed, ⟨rule, hread⟩, hthen⟩

/-- A word that is no bracket, with its `.` -/
theorem isSentence_pair {t dot : Token} {k : Keyword} (ht : t.keyword = k)
    (hflat : k.isOpener = false ∧ k.isCloser = false) (hk : k ≠ .endOfStatement)
    (hdot : dot.keyword = .endOfStatement) : IsSentence ([t] ++ [dot]) := by
  subst ht
  exact .mk (List.cons_ne_nil _ _) (List.forall_mem_singleton.mpr hflat)
    (List.forall_mem_singleton.mpr hk) hdot

/-- Every kind of clause and of body occurs. The conditional in brackets keeps its own clauses. -/
theorem freshBlock_conditional_mixedCheck :
    mixedCheck = mixedFirst ++ mixedFurther.flatten ∧
      (mixedFirst ++ mixedFurther.flatten).length < 256 ∧
      ∃ p e body branches last, IsClause .standard {} 0 .ifWord p e body mixedFirst ∧
        AreFurtherClauses .standard {} 0 branches last mixedFurther ∧
        (freshBlock .standard {} 0 (mixedFirst ++ mixedFurther.flatten)).1 =
          [.conditional p e body branches last] := by
  have hkeywords := keywords_mixedToken
  simp only [List.map_cons, List.map_nil, List.cons.injEq, and_true] at hkeywords
  obtain ⟨hif, hthen, hstart, hend, hotherwiseIf, hthen', hbreak, hdot, hotherwise, hexit, hdot'⟩ :=
    hkeywords
  -- What depends on the two conditions alone is computed at once.
  obtain ⟨hsame, hroom, hinner, ⟨hmem, hread, hnoThen⟩, hmem', hread', hnoThen'⟩ :
      mixedCheck = mixedFirst ++ mixedFurther.flatten ∧
        (mixedFirst ++ mixedFurther.flatten).length < 256 ∧ Balanced mixedInner ∧
        (mixedToken 1 ∈ mixedCheck ∧ ((read .standard (.ofTokens [mixedToken 1])).run.run
            (.start {} 0)).1.toOption.join.isSome = true ∧
          (Slice.ofTokens [mixedToken 1]).first .thenWord 0 = none) ∧
        mixedToken 14 ∈ mixedCheck ∧ ((read .standard (.ofTokens [mixedToken 14])).run.run
            (.start {} 0)).1.toOption.join.isSome = true ∧
          (Slice.ofTokens [mixedToken 14]).first .thenWord 0 = none := by
    decide +kernel
  obtain ⟨e, he⟩ := exists_isCondition_mixedToken hmem hread hnoThen
  obtain ⟨e', he'⟩ := exists_isCondition_mixedToken hmem' hread' hnoThen'
  have hbreaks := isSentence_pair hbreak (by decide) (by decide) hdot
  have hexits := isSentence_pair hexit (by decide) (by decide) hdot'
  have hfirst : IsClause .standard {} 0 .ifWord _ e _ mixedFirst :=
    .mk hif he hthen (.braced (.mk hstart hend hinner))
  have hfurther : AreFurtherClauses .standard {} 0 [.mk _ e' _] _ mixedFurther :=
    .more (.mk hotherwiseIf he' hthen' (.sentence hbreaks)) (.otherwise hotherwise
      (.sentence hexits))
  exact ⟨hsame, hroom, _, _, _, _, _, hfirst, hfurther,
    freshBlock_conditional .standard {} 0 hfirst hfurther hroom⟩

end Prose.Parse
