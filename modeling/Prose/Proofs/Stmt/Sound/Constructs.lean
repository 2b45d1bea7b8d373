import Prose.Proofs.Stmt.Sound.Parts

namespace Prose.Stmt

open Inquiry Slice

variable {s part : Slice} {whole : List Token} {origin name : String} {st : Stmt}
  {body : List Stmt} {n : String}

section definitions

theorem derives_of_readBlockStatement (h : Reaches Sound (readBlockStatement s) (some st)) :
    st.Derives s.tokens := by
  rw [readBlockStatement_eq] at h
  split at h
  · cases reaches_pure_iff.mp h
  rename_i inner hinner
  obtain ⟨body, hbody, h⟩ := reaches_bind_iff.mp h
  cases reaches_pure_iff.mp h
  obtain ⟨o, c, ho, hc, hs⟩ := tokens_of_enclosed (b := .brace) hinner
  apply derives_of_withoutTerminator
  rw [position_of_withoutTerminator hs, hs]
  exact .block (.mk ho (derivesBlock_of_readBlock hbody) hc)

theorem derives_of_readEntryPoint (h : Reaches Sound (readEntryPoint s) (some st)) :
    st.Derives s.tokens := by
  rw [readEntryPoint_eq] at h
  simp only at h
  split at h
  · cases reaches_pure_iff.mp h
  rename_i asAt hfound
  split at h
  · exact (not_reaches_fail _ _ h).elim
  rename_i hone
  rw [Decidable.not_not] at hone
  subst hone
  obtain ⟨body, hbody, h⟩ := reaches_bind_iff.mp h
  cases reaches_pure_iff.mp h
  obtain ⟨t, u, ht, hu, hs⟩ := tokens_of_lead hfound
  have hnil : (s.extract 1 1).tokens = [] := by
    rw [tokens_extract, List.drop_take, Nat.sub_self, List.take_zero]
  rw [hnil, List.nil_append] at hs
  rw [Expr.position_of_tokens hs, hs]
  exact .entryPoint ht hu (derivesBody_of_requiredBody hbody)

/-- A name at the beginning of some tokens. -/
theorem exists_cons_of_requiredName_take
    (h : requiredName origin name (part.take 1) whole = .ok n) :
    ∃ t, part.tokens = t :: part.tokens.drop 1 ∧ t.name? = some n := by
  obtain ⟨t, htake, hn⟩ := exists_token_of_requiredName h
  refine ⟨t, ?_, hn⟩
  conv_lhs => rw [← List.take_append_drop 1 part.tokens]
  rw [← tokens_take, htake]
  rfl

theorem derives_of_readFunctionDefinition
    (h : Reaches Sound (readFunctionDefinition s) (some st)) : st.Derives s.tokens := by
  rw [readFunctionDefinition_eq] at h
  simp only at h
  split at h
  · cases reaches_pure_iff.mp h
  rename_i asAt hfound
  obtain ⟨n, hn, h⟩ := reaches_bind_iff.mp h
  obtain ⟨ps, hps, h⟩ := reaches_bind_iff.mp h
  obtain ⟨body, hbody, h⟩ := reaches_bind_iff.mp h
  cases reaches_pure_iff.mp h
  obtain ⟨t, u, ht, hu, hs⟩ := tokens_of_lead hfound
  obtain ⟨f, hheader, hf⟩ := exists_cons_of_requiredName_take (reaches_ofExcept_iff.mp hn)
  have hparams := derivesOptional_of_optionalParams (reaches_ofExcept_iff.mp hps)
  rw [tokens_drop] at hparams
  rw [Expr.position_of_tokens hs, hs, hheader]
  exact .functionDefinition ht hf hparams hu (derivesBody_of_requiredBody hbody)

theorem derives_of_readStructureDefinition
    (h : Reaches Sound (readStructureDefinition s) (some st)) : st.Derives s.tokens := by
  rw [readStructureDefinition_eq] at h
  simp only at h
  split at h
  · rename_i hstart
    obtain ⟨n, hn, h⟩ := reaches_bind_iff.mp h
    obtain ⟨fs, hfs, h⟩ := reaches_bind_iff.mp h
    cases reaches_pure_iff.mp h
    obtain ⟨t, ht, hs⟩ := tokens_of_startsWith hstart
    have hname := reaches_ofExcept_iff.mp hn
    rw [extract, drop_take] at hname
    obtain ⟨x, hx, hxn⟩ := exists_cons_of_requiredName_take hname
    have hfields := derivesOptional_of_optionalParams (reaches_ofExcept_iff.mp hfs)
    rw [tokens_drop, List.drop_drop] at hx
    rw [tokens_drop] at hfields
    apply derives_of_withoutTerminator
    rw [position_of_withoutTerminator hs, hs, hx]
    exact .structureDefinition ht hxn hfields
  · cases reaches_pure_iff.mp h

end definitions

section loops

theorem exists_of_readConditionLoop {lead : Keyword} {loop : Position → Expr → List Stmt → Stmt}
    (h : Reaches Sound (readConditionLoop lead origin loop s) (some st)) :
    ∃ c body t u cs ts, s.tokens = t :: (cs ++ u :: ts) ∧ st = loop t.position c body ∧
      t.keyword = lead ∧ c.Derives cs ∧ u.keyword = .doWord ∧ DerivesBody body ts := by
  rw [readConditionLoop_eq] at h
  split at h
  · cases reaches_pure_iff.mp h
  rename_i doAt hfound
  obtain ⟨c, hc, h⟩ := reaches_bind_iff.mp h
  obtain ⟨body, hbody, h⟩ := reaches_bind_iff.mp h
  cases reaches_pure_iff.mp h
  obtain ⟨t, u, ht, hu, hs⟩ := tokens_of_lead hfound
  exact ⟨c, body, t, u, _, _, hs, by rw [Expr.position_of_tokens hs], ht, derives_of_required hc, hu,
    derivesBody_of_requiredBody hbody⟩

theorem derives_of_readRepeat (h : Reaches Sound (readRepeat s) (some st)) :
    st.Derives s.tokens := by
  rw [readRepeat_eq] at h
  simp only at h
  split at h
  · cases reaches_pure_iff.mp h
  rename_i timesAt hfound
  obtain ⟨e, he, h⟩ := reaches_bind_iff.mp h
  obtain ⟨body, hbody, h⟩ := reaches_bind_iff.mp h
  cases reaches_pure_iff.mp h
  obtain ⟨t, u, ht, hu, hs⟩ := tokens_of_lead hfound
  rw [Expr.position_of_tokens hs, hs]
  exact .repeatLoop ht (derives_of_required he) hu (derivesBody_of_requiredBody hbody)

theorem derives_of_readDoLoop (h : Reaches Sound (readDoLoop s) (some st)) :
    st.Derives s.tokens := by
  rw [readDoLoop_eq] at h
  simp only at h
  split at h
  · rename_i hlead
    split at h
    · exact (not_reaches_fail _ _ h).elim
    rename_i close hclose
    split at h
    · rename_i htail
      obtain ⟨c, hc, h⟩ := reaches_bind_iff.mp h
      obtain ⟨block, hblock, h⟩ := reaches_bind_iff.mp h
      obtain ⟨t, ht, hs⟩ := tokens_of_startsWith hlead.1
      -- The body reaches to the brace that matches the first one; behind it stand the word and the
      -- condition.
      obtain ⟨o, k, ho, hk, hcut⟩ := drop_tokens_of_matchingClose (b := .brace) hlead.2 hclose
      have hc := derives_of_required hc
      have hbraced : DerivesBraced block _ := .mk ho (derivesBlock_of_readBlock hblock) hk
      apply derives_of_withoutTerminator
      split at h
      · rename_i hwhile
        cases reaches_pure_iff.mp h
        obtain ⟨u, hu, htokens⟩ := tokens_of_startsWith hwhile
        rw [position_of_withoutTerminator hs, hs, hcut, ← tokens_drop, htokens]
        exact .doWhile ht hbraced hu hc
      · rename_i hwhile
        cases reaches_pure_iff.mp h
        obtain ⟨u, hu, htokens⟩ := tokens_of_startsWith (htail.resolve_left hwhile)
        rw [position_of_withoutTerminator hs, hs, hcut, ← tokens_drop, htokens]
        exact .doUntil ht hbraced hu hc
    · cases reaches_pure_iff.mp h
  · cases reaches_pure_iff.mp h

theorem derives_of_readForEach (h : Reaches Sound (readForEach s) (some st)) :
    st.Derives s.tokens := by
  rw [readForEach_eq] at h
  simp only at h
  split at h
  · cases reaches_pure_iff.mp h
  rename_i inAt hfound
  split at h
  · cases reaches_pure_iff.mp h
  rename_i doAt hdo
  obtain ⟨n, hn, h⟩ := reaches_bind_iff.mp h
  obtain ⟨e, he, h⟩ := reaches_bind_iff.mp h
  obtain ⟨body, hbody, h⟩ := reaches_bind_iff.mp h
  cases reaches_pure_iff.mp h
  obtain ⟨t, u, ht, hu, hs⟩ := tokens_of_lead hfound
  obtain ⟨v, hv, hcut⟩ := drop_tokens_of_first hdo
  obtain ⟨x, hx, hxn⟩ := exists_token_of_requiredName (reaches_ofExcept_iff.mp hn)
  rw [Expr.position_of_tokens hs, hs, hx, hcut]
  exact .forEach ht hxn hu (derives_of_required he) hv (derivesBody_of_requiredBody hbody)

/-- The tokens of the end of a range and of its step. -/
theorem exists_of_readLoopStep {i j : Nat} {step : Option Expr}
    (h : Reaches Sound (readLoopStep origin s ((s.take j).first .byWord i) j name) step) :
    ∃ ss, Expr.DerivesOptional .byWord step ss ∧
      (s.extract i j).tokens = (s.extract i (((s.take j).first .byWord i).getD j)).tokens ++ ss := by
  unfold readLoopStep at h
  split at h
  · rename_i hnone
    cases reaches_pure_iff.mp h
    exact ⟨[], .none, by rw [hnone, Option.getD_none, List.append_nil]⟩
  · rename_i k hby
    obtain ⟨e, he, rfl⟩ := reaches_map_iff.mp h
    obtain ⟨u, hu, hcut⟩ := drop_tokens_of_first hby
    have hk : k ≤ j := by
      have hlt := lt_length_of_first hby
      rw [length_take] at hlt
      omega
    rw [s.extract_take hk] at hcut
    rw [hby, Option.getD_some]
    exact ⟨_, .some hu (derives_of_required he), hcut⟩

theorem derives_of_readForRange (h : Reaches Sound (readForRange s) (some st)) :
    st.Derives s.tokens := by
  rw [readForRange_eq] at h
  simp only at h
  split at h
  · cases reaches_pure_iff.mp h
  rename_i fromAt hfound
  split at h
  · cases reaches_pure_iff.mp h
  rename_i toAt hto
  split at h
  · cases reaches_pure_iff.mp h
  rename_i doAt hdo
  obtain ⟨n, hn, h⟩ := reaches_bind_iff.mp h
  obtain ⟨a, ha, h⟩ := reaches_bind_iff.mp h
  obtain ⟨b, hb, h⟩ := reaches_bind_iff.mp h
  obtain ⟨step, hstep, h⟩ := reaches_bind_iff.mp h
  obtain ⟨body, hbody, h⟩ := reaches_bind_iff.mp h
  cases reaches_pure_iff.mp h
  obtain ⟨t, u, ht, hu, hs⟩ := tokens_of_lead hfound
  obtain ⟨v, hv, hcut⟩ := drop_tokens_of_first hto
  obtain ⟨w, hw, hcut'⟩ := drop_tokens_of_first hdo
  obtain ⟨x, hx, hxn⟩ := exists_token_of_requiredName (reaches_ofExcept_iff.mp hn)
  obtain ⟨ss, hss, hrange⟩ := exists_of_readLoopStep hstep
  have hb := derives_of_required hb
  rw [Expr.position_of_tokens hs, hs, hx, hcut, hcut', hrange, List.append_assoc]
  exact .forRange ht hxn hu (derives_of_required ha) hv hb hss hw (derivesBody_of_requiredBody hbody)

end loops

section handlers

theorem derivesHandler_of_handlerName {handler : Slice} {t : Token} (ht : t.keyword = .catchWord)
    (h : DerivesBraced body (handlerName handler).2.tokens) :
    DerivesHandler (handlerName handler).1 body (t :: handler.tokens) := by
  rw [handlerName_eq] at h ⊢
  split
  · rename_i x ts hs
    simp only [hs] at h
    split
    · rename_i hk
      rw [if_pos hk, tokens_drop, hs] at h
      rw [hs]
      -- The name is taken by the kind of the token alone; what is none is dropped.
      match hn : x.name? with
      | some n => exact .named ht hn h
      | none => exact .misnamed ht hk hn h
    · rename_i hk
      rw [if_neg hk] at h
      exact .unnamed ht h
  · rename_i hs
    simp only [hs] at h
    rw [hs]
    exact .unnamed ht h

theorem derives_of_readTry (h : Reaches Sound (readTry s) (some st)) : st.Derives s.tokens := by
  rw [readTry_eq] at h
  simp only at h
  split at h
  · cases reaches_pure_iff.mp h
  rename_i catchAt hfound
  obtain ⟨body, hbody, h⟩ := reaches_bind_iff.mp h
  obtain ⟨handler, hhandler, h⟩ := reaches_bind_iff.mp h
  obtain ⟨t, u, ht, hu, hs⟩ := tokens_of_lead hfound
  have hbody := derivesBraced_of_requiredBlock hbody
  have hhandler := derivesHandler_of_handlerName hu (derivesBraced_of_requiredBlock hhandler)
  apply derives_of_withoutTerminator
  split at h
  · rename_i i hfinally
    obtain ⟨_, hmap, h⟩ := reaches_bind_iff.mp h
    obtain ⟨cleanup, hcleanup, rfl⟩ := reaches_map_iff.mp hmap
    cases reaches_pure_iff.mp h
    obtain ⟨v, hv, hcut⟩ := drop_tokens_of_first hfinally
    rw [hfinally, Option.getD_some] at hhandler
    rw [position_of_withoutTerminator hs, hs, hcut, hfinally, Option.getD_some]
    exact .tryCatch ht hbody hhandler (.some hv (derivesBraced_of_requiredBlock hcleanup))
  · rename_i hfinally
    cases reaches_pure_iff.mp h
    rw [hfinally, Option.getD_none] at hhandler
    rw [position_of_withoutTerminator hs, hs, hfinally, Option.getD_none, ← tokens_drop,
      ← extract_length]
    have htry := Derives.tryCatch ht hbody hhandler .none
    rwa [List.append_nil] at htry

end handlers

end Prose.Stmt
