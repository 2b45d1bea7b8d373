import Prose.Proofs.Node
import Prose.Proofs.Stmt.Blame
import Prose.Proofs.Stmt.Known
import Prose.Proofs.Stmt.Sound

namespace Prose

/-- A part is some of the tokens. -/
theorem Slice.IsPartOf.sublist {q s : Slice} (h : q.IsPartOf s) : q.tokens.Sublist s.tokens := by
  obtain ⟨i, -, hi⟩ := h
  exact hi.sublist.trans (List.drop_sublist i s.tokens)

namespace Param

variable {unit : Stmt → List Token → Prop} {ps : List Param} {ts : List Token}

/-- A name has its token for its own. -/
theorem standsIn_name {n : String} {t : Token} :
    (Node.param ⟨n, t.position⟩).StandsIn unit (t :: ts) :=
  .mk (List.cons_sublist_cons.mpr (List.nil_sublist ts)) (List.cons_ne_nil t []) rfl
    (fun _ hstatement => Node.noConfusion hstatement) (List.forall_mem_nil _)

theorem DerivesList.standsIn (h : DerivesList ps ts) :
    ∀ n ∈ ps.map Node.param, n.StandsIn unit ts := by
  induction h with
  | last => exact List.forall_mem_singleton.mpr standsIn_name
  | more _ _ _ ih =>
    exact List.forall_mem_cons.mpr ⟨standsIn_name, fun n hn => (ih n hn).cons.cons⟩

theorem DerivesOptional.standsIn (h : DerivesOptional ps ts) :
    ∀ n ∈ ps.map Node.param, n.StandsIn unit ts := by
  cases h with
  | none => exact List.forall_mem_nil _
  | some _ hps => exact fun n hn => (hps.standsIn n hn).cons

end Param

namespace Stmt

open Inquiry Node Slice

def Question.tokens : Question → List Token
  | reading part => part.tokens
  | block _ _ inner => inner.tokens
  | unusedValue _ shown => shown

def AnswersIn (unit : Stmt → List Token → Prop) (ts : List Token) : (q : Question) → q.Reply → Prop
  | .reading _, r => ∀ x ∈ r, (Node.expression x.2).StandsIn unit ts
  | .block .., body => ∀ n ∈ ofStmts body, n.StandsIn unit ts
  | .unusedValue .., _ => True

def Stands (unit : Stmt → List Token → Prop) (q : Question) (r : q.Reply) : Prop :=
  AnswersIn unit q.tokens q r

variable {unit : Stmt → List Token → Prop} {ts us : List Token} {s : Slice} {st : Stmt}
  {q : Question}

theorem AnswersIn.mono {r : q.Reply} (h : AnswersIn unit ts q r) (hsub : ts.Sublist us) :
    AnswersIn unit us q r := by
  cases q with
  | reading part => exact fun x hx => (h x hx).mono hsub
  | block origin whole inner => exact fun n hn => (h n hn).mono hsub
  | unusedValue e shown => trivial

theorem Stands.answersIn {r : q.Reply} (hq : q.IsWithin s) (h : Stands unit q r) :
    AnswersIn unit s.tokens q r := by
  cases q with
  | reading part => exact h.mono (IsPartOf.sublist hq)
  | block origin whole inner => exact h.mono hq.1.sublist
  | unusedValue e shown => trivial

/-- What is asked about a slice is answered in its tokens. -/
theorem yields_stands {α : Type} {E : α → Prop} {x : Query α} (hasks : x.Asks (·.IsWithin s))
    (hx : x.Yields (AnswersIn unit s.tokens) E) : x.Yields (Stands unit) E := by
  intro a ha
  exact hx a ((ha.of_asks hasks).mono fun q r ⟨hq, hr⟩ => hr.answersIn hq)

def HasPartsIn (unit : Stmt → List Token → Prop) (ts : List Token) (st : Stmt) : Prop :=
  ∀ n ∈ st.parts, n.StandsIn unit ts

def knownStanding (unit : Stmt → List Token → Prop) (ts : List Token) : Known where
  expr e := (Node.expression e).StandsIn unit ts
  body sts := ∀ n ∈ ofStmts sts, n.StandsIn unit ts
  params ps := ∀ n ∈ ps.map param, n.StandsIn unit ts
  imported _ := True

theorem gives_standing : Gives (AnswersIn unit ts) (knownStanding unit ts) :=
  ⟨fun _ _ h => h, fun _ _ _ _ h => h⟩

/-- The names of a list stand in its tokens. -/
theorem covers_standing : (knownStanding unit s.tokens).Covers s where
  params hpart h n hn := ((derivesOptional_of_optionalParams h).standsIn n hn).mono hpart.sublist
  imported _ _ := trivial

/-- The nodes right below a statement are its expressions, the statements of its bodies and its names.
-/
theorem IsMadeOf.hasPartsIn (h : st.IsMadeOf (knownStanding unit ts)) : st.HasPartsIn unit ts := by
  cases st with
  | entryPoint | block | structureDefinition => exact h
  | functionDefinition => exact List.forall_mem_append.mpr h
  | conditional => exact h.elim
  | whileLoop | untilLoop | doWhile | doUntil | forEach | repeatLoop =>
    exact List.forall_mem_cons.mpr h
  | forRange _ _ a b step body =>
    obtain ⟨ha, hb, hstep, hbody⟩ := h
    have hbounds : ∀ n ∈ (a :: b :: step.toList).map Node.expression, n.StandsIn unit ts :=
      List.forall_mem_map.mpr (List.forall_mem_cons.mpr ⟨ha, List.forall_mem_cons.mpr ⟨hb, hstep⟩⟩)
    exact List.forall_mem_append.mpr ⟨hbounds, hbody⟩
  | tryCatch _ body _ handler cleanup =>
    obtain ⟨hbody, hhandler, hcleanup⟩ := h
    have hlast : ∀ n ∈ ofStmts (cleanup.getD []), n.StandsIn unit ts := by
      cases cleanup with
      | none => exact List.forall_mem_nil _
      | some sts => exact hcleanup sts rfl
    exact List.forall_mem_append.mpr ⟨hbody, List.forall_mem_append.mpr ⟨hhandler, hlast⟩⟩
  | returning | increment | decrement => exact List.forall_mem_map.mpr h
  | throwing | declaration | print | assertion | expression =>
    exact List.forall_mem_singleton.mpr h
  | assignment | listAdd | listRemove =>
    exact List.forall_mem_cons.mpr ⟨h.1, List.forall_mem_singleton.mpr h.2⟩
  | breaking | continuing | exiting | swap | readInto | importing => exact List.forall_mem_nil _

section clauses

theorem yields_readClause_standing {clause : Slice} : (readClause clause).Yields (Stands unit)
    fun x => (Node.expression x.1).StandsIn unit clause.tokens ∧
      ∀ n ∈ ofStmts x.2, n.StandsIn unit clause.tokens :=
  yields_stands ((asks_readClause clause).mono fun _ hq => hq.isWithin)
    (yields_readClause gives_standing)

/-- A further clause has its tokens for its own. -/
theorem standsIn_branch {clause : Slice} (hclause : 0 < clause.length) {c : Expr}
    {body : List Stmt} (hc : (Node.expression c).StandsIn unit clause.tokens)
    (hbody : ∀ n ∈ ofStmts body, n.StandsIn unit clause.tokens) :
    (branch (.mk clause.position c body)).StandsIn unit clause.tokens :=
  .mk (.refl _) (List.ne_nil_of_length_pos hclause) rfl
    (fun _ hstatement => Node.noConfusion hstatement) (List.forall_mem_cons.mpr ⟨hc, hbody⟩)

theorem yields_readFurtherClauses_standing {slices : List Slice}
    (hslices : ∀ clause ∈ slices, 0 < clause.length) :
    (readFurtherClauses slices).Yields (Stands unit) fun x =>
      (∀ n ∈ x.1.map branch, n.StandsIn unit (slices.flatMap (·.tokens))) ∧
        ∀ n ∈ ofStmts (x.2.getD []), n.StandsIn unit (slices.flatMap (·.tokens)) := by
  induction slices with
  | nil => exact yields_pure ⟨List.forall_mem_nil _, List.forall_mem_nil _⟩
  | cons clause rest ih =>
    obtain ⟨hclause, hrest⟩ := List.forall_mem_cons.mp hslices
    simp only [List.flatMap_cons]
    rw [readFurtherClauses_cons]
    split
    -- A clause with a condition is a node of its own and has its own slice.
    · refine yields_bind yields_readClause_standing ?_
      rintro ⟨c, body⟩ ⟨hc, hbody⟩
      refine yields_bind (ih hrest) ?_
      rintro ⟨branches, elseBody⟩ ⟨hbranches, helse⟩
      refine yields_pure ⟨?_, fun n hn => (helse n hn).append_left⟩
      refine List.forall_mem_cons.mpr ⟨?_, fun n hn => (hbranches n hn).append_left⟩
      exact (standsIn_branch hclause hc hbody).append_right
    -- The last clause may have no condition: then its statements are parts of the conditional.
    · split
      · split
        · have hasks : (requiredBody conditionalOrigin (clause.drop 1) clause.tokens).Asks
              (·.IsWithin clause) := asks_requiredBody _ _ fun inner hinner =>
            hinner.trans_isStrictPartOf (isStrictPartOf_drop hclause Nat.one_pos)
          refine yields_bind (yields_stands hasks (yields_requiredBody gives_standing))
            fun body hbody => ?_
          exact yields_pure ⟨List.forall_mem_nil _, fun n hn => (hbody n hn).append_right⟩
        · exact yields_fail _
      · exact yields_fail _

/-- The clauses of a slice are its tokens from where they begin. -/
theorem flatMap_clausesFrom {start : Nat} {is : List Nat} (hordered : is.Pairwise (· < ·))
    (hstart : ∀ i ∈ is, start ≤ i + 1) :
    (clausesFrom s start is).flatMap (·.tokens) = s.tokens.drop start := by
  induction is generalizing start with
  | nil => rw [clausesFrom, List.flatMap_singleton, tokens_drop]
  | cons i is ih =>
    obtain ⟨hlater, hordered⟩ := List.pairwise_cons.mp hordered
    obtain ⟨hi, hstart⟩ := List.forall_mem_cons.mp hstart
    rw [clausesFrom]
    -- Only a block end with another clause right behind it ends a clause.
    split
    · split
      · have hnext : ∀ j ∈ is, i + 1 ≤ j + 1 := fun j hj =>
          Nat.succ_le_succ (Nat.le_of_lt (hlater j hj))
        rw [List.flatMap_cons, ih hordered hnext, ← s.drop_tokens_eq_append hi]
      · exact ih hordered hstart
    · exact ih hordered hstart

theorem flatMap_clauses (chain : List Slice) :
    (chain.flatMap clauses).flatMap (·.tokens) = chain.flatMap (·.tokens) := by
  rw [List.flatMap_assoc]
  congr 1
  funext s
  rw [clauses_eq_clausesFrom]
  exact flatMap_clausesFrom (s.pairwise_allOf .blockEnd) fun _ _ => Nat.zero_le _

/-- A conditional stands in the tokens of all its slices. -/
theorem yields_readConditional_standing {chain : List Slice}
    (hchain : ∀ s ∈ chain, 0 < s.length) :
    (readConditional chain).Yields (Stands unit)
      (HasPartsIn unit (chain.flatMap (·.tokens))) := by
  have hclauses : ∀ clause ∈ chain.flatMap clauses, 0 < clause.length := by
    intro clause hclause
    obtain ⟨s, hs, hmem⟩ := List.mem_flatMap.mp hclause
    exact length_pos_of_mem_clauses (hchain s hs) hmem
  have htokens := flatMap_clauses chain
  rw [readConditional_eq]
  split
  · exact yields_fail _
  · rename_i first rest hall
    rw [hall] at hclauses htokens
    rw [← htokens, List.flatMap_cons]
    split
    · refine yields_bind yields_readClause_standing ?_
      rintro ⟨c, body⟩ ⟨hc, hbody⟩
      refine yields_bind (yields_readFurtherClauses_standing
        (List.forall_mem_cons.mp hclauses).2) ?_
      rintro ⟨branches, elseBody⟩ ⟨hbranches, helse⟩
      refine yields_pure (List.forall_mem_cons.mpr ⟨hc.append_right, ?_⟩)
      refine List.forall_mem_append.mpr ⟨fun n hn => (hbody n hn).append_right, ?_⟩
      refine List.forall_mem_append.mpr ⟨fun n hn => (hbranches n hn).append_left, ?_⟩
      exact fun n hn => (helse n hn).append_left
    · exact yields_fail _

theorem yields_readIf_standing (hs : 0 < s.length) :
    (readIf s).Yields (Stands unit) fun r => ∀ st ∈ r, st.HasPartsIn unit s.tokens := by
  unfold readIf
  split
  · refine yields_map fun st hst => ?_
    rintro st' ⟨⟩
    have hparts := yields_readConditional_standing (List.forall_mem_singleton.mpr hs) st hst
    rwa [List.flatMap_singleton] at hparts
  · exact yields_pure fun _ h => absurd h (Option.not_mem_none _)

end clauses

/-- What a form reads has its parts in the tokens of the slice. -/
theorem yields_form_standing (hs : 0 < s.length) (f : Form) :
    (f.read s).Yields (Stands unit) fun r => ∀ st ∈ r, st.HasPartsIn unit s.tokens := by
  by_cases hf : f = .conditional
  · subst hf
    exact yields_readIf_standing hs
  · refine yields_stands (asks_form s f) fun r hr st hst => ?_
    exact (makes_form gives_standing covers_standing hf r hr st hst).hasPartsIn

end Stmt

end Prose
