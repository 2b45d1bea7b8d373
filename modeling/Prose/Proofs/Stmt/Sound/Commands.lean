import Prose.Proofs.Stmt.Sound.Parts

namespace Prose.Stmt

open Inquiry Slice

variable {s : Slice} {origin : String} {st : Stmt}

theorem derives_of_readAssignment (h : Reaches Sound (readAssignment s) (some st)) :
    st.Derives s.tokens := by
  rw [readAssignment_eq] at h
  simp only at h
  split at h
  · cases reaches_pure_iff.mp h
  rename_i equalAt hfound
  obtain ⟨t, u, ht, hu, hs⟩ := tokens_of_lead hfound
  obtain ⟨x, hx, h⟩ := reaches_bind_iff.mp h
  have hx := derives_of_required hx
  apply derives_of_withoutTerminator
  split at h
  · obtain ⟨e, he, h⟩ := reaches_bind_iff.mp h
    cases reaches_pure_iff.mp h
    rw [position_of_withoutTerminator hs, hs]
    exact .assignment ht trivial hx hu (derives_of_required he)
  · obtain ⟨e, he, h⟩ := reaches_bind_iff.mp h
    cases reaches_pure_iff.mp h
    rw [position_of_withoutTerminator hs, hs]
    exact .assignment ht trivial hx hu (derives_of_required he)
  · exact (not_reaches_fail _ _ h).elim

theorem derives_of_readDeclaration (h : Reaches Sound (readDeclaration s) (some st)) :
    st.Derives s.tokens := by
  rw [readDeclaration_eq] at h
  simp only at h
  split at h
  · cases reaches_pure_iff.mp h
  rename_i beAt hfound
  obtain ⟨n, hn, h⟩ := reaches_bind_iff.mp h
  obtain ⟨e, he, h⟩ := reaches_bind_iff.mp h
  cases reaches_pure_iff.mp h
  obtain ⟨t, u, ht, hu, hs⟩ := tokens_of_lead hfound
  obtain ⟨x, hx, hxn⟩ := exists_token_of_requiredName (reaches_ofExcept_iff.mp hn)
  apply derives_of_withoutTerminator
  rw [position_of_withoutTerminator hs, hs, hx]
  exact .declaration ht hxn hu (derives_of_required he)

/-- What `increment` and `decrement` have in common: a name and perhaps an amount. -/
theorem exists_of_readIncrement (h : Reaches Sound (readIncrement s) (some st)) :
    ∃ n e t x es, s.withoutTerminator.tokens = t :: x :: es ∧
      (t.keyword = .increment ∧ st = .increment t.position n e ∨
        t.keyword = .decrement ∧ st = .decrement t.position n e) ∧
      x.name? = some n ∧ Expr.DerivesOptional .byWord e es := by
  rw [readIncrement_eq] at h
  simp only at h
  split at h
  · rename_i hstart
    obtain ⟨n, hn, h⟩ := reaches_bind_iff.mp h
    obtain ⟨x, hx, hxn⟩ := exists_token_of_requiredName (reaches_ofExcept_iff.mp hn)
    -- The name ends at `by`, behind which the amount stands, or at the end.
    obtain ⟨e, es, hbehind, hes, hst⟩ : ∃ e es, s.withoutTerminator.tokens.drop 1 = x :: es ∧
        Expr.DerivesOptional .byWord e es ∧
        st = if s.withoutTerminator.startsWith .increment then .increment s.position n e
          else .decrement s.position n e := by
      split at h
      · rename_i i hby
        obtain ⟨_, hmap, h⟩ := reaches_bind_iff.mp h
        obtain ⟨e, he, rfl⟩ := reaches_map_iff.mp hmap
        obtain ⟨u, hu, hcut⟩ := drop_tokens_of_first hby
        rw [hby, Option.getD_some] at hx
        rw [hx] at hcut
        exact ⟨some e, _, hcut, .some hu (derives_of_required he),
          Option.some.inj (reaches_pure_iff.mp h)⟩
      · rename_i hby
        rw [hby, Option.getD_none, extract_length, tokens_drop] at hx
        exact ⟨none, [], hx, .none, Option.some.inj (reaches_pure_iff.mp h)⟩
    -- Which of the two commands it is shows in the first token.
    by_cases hlead : s.withoutTerminator.startsWith .increment = true
    · obtain ⟨t, ht, hs⟩ := tokens_of_startsWith hlead
      rw [if_pos hlead, position_of_withoutTerminator hs] at hst
      rw [hbehind] at hs
      exact ⟨n, e, t, x, es, hs, .inl ⟨ht, hst⟩, hxn, hes⟩
    · obtain ⟨t, ht, hs⟩ := tokens_of_startsWith (hstart.resolve_left hlead)
      rw [if_neg hlead, position_of_withoutTerminator hs] at hst
      rw [hbehind] at hs
      exact ⟨n, e, t, x, es, hs, .inr ⟨ht, hst⟩, hxn, hes⟩
  · cases reaches_pure_iff.mp h

theorem derives_of_readIncrement (h : Reaches Sound (readIncrement s) (some st)) :
    st.Derives s.tokens := by
  obtain ⟨n, e, t, x, es, hs, ⟨ht, rfl⟩ | ⟨ht, rfl⟩, hn, he⟩ := exists_of_readIncrement h
  · apply derives_of_withoutTerminator
    rw [hs]
    exact .increment ht hn he
  · apply derives_of_withoutTerminator
    rw [hs]
    exact .decrement ht hn he

theorem derives_of_readSwap (h : Reaches Sound (readSwap s) (some st)) : st.Derives s.tokens := by
  rw [readSwap_eq] at h
  simp only at h
  split at h
  · cases reaches_pure_iff.mp h
  rename_i andAt hfound
  obtain ⟨l, hl, h⟩ := reaches_bind_iff.mp h
  obtain ⟨r, hr, h⟩ := reaches_bind_iff.mp h
  cases reaches_pure_iff.mp h
  obtain ⟨t, u, ht, hu, hs⟩ := tokens_of_lead hfound
  obtain ⟨x, hx, hxl⟩ := exists_token_of_requiredName (reaches_ofExcept_iff.mp hl)
  obtain ⟨y, hy, hyr⟩ := exists_token_of_requiredName (reaches_ofExcept_iff.mp hr)
  rw [tokens_drop] at hy
  apply derives_of_withoutTerminator
  rw [position_of_withoutTerminator hs, hs, hx, hy]
  exact .swap ht hxl hu hyr

theorem exists_of_readPair {lead separator : Keyword} {first second : String}
    {pair : Position → Expr → Expr → Stmt}
    (h : Reaches Sound (readPair lead separator origin first second pair s) (some st)) :
    ∃ e l t u es ls, s.withoutTerminator.tokens = t :: (es ++ u :: ls) ∧
      st = pair t.position e l ∧ t.keyword = lead ∧ e.Derives es ∧ u.keyword = separator ∧
      l.Derives ls := by
  rw [readPair_eq] at h
  simp only at h
  split at h
  · cases reaches_pure_iff.mp h
  rename_i i hfound
  obtain ⟨e, he, h⟩ := reaches_bind_iff.mp h
  obtain ⟨l, hl, h⟩ := reaches_bind_iff.mp h
  cases reaches_pure_iff.mp h
  obtain ⟨t, u, ht, hu, hs⟩ := tokens_of_lead hfound
  exact ⟨e, l, t, u, _, _, hs, by rw [position_of_withoutTerminator hs], ht,
    derives_of_required he, hu, derives_of_required hl⟩

theorem exists_of_readValue {leads : List Keyword} {statement : Position → Expr → Stmt}
    (h : Reaches Sound (readValue leads origin statement s) (some st)) :
    ∃ e t ts, s.withoutTerminator.tokens = t :: ts ∧ st = statement t.position e ∧
      t.keyword ∈ leads ∧ e.Derives ts := by
  rw [readValue_eq] at h
  simp only at h
  split at h
  · rename_i hstart
    obtain ⟨k, hk, hstart⟩ := List.any_eq_true.mp hstart
    obtain ⟨e, he, h⟩ := reaches_bind_iff.mp h
    cases reaches_pure_iff.mp h
    obtain ⟨t, ht, hs⟩ := tokens_of_startsWith hstart
    exact ⟨e, t, _, hs, by rw [position_of_withoutTerminator hs], ht ▸ hk, derives_of_required he⟩
  · cases reaches_pure_iff.mp h

theorem derives_of_readReturn (h : Reaches Sound (readReturn s) (some st)) :
    st.Derives s.tokens := by
  rw [readReturn_eq] at h
  simp only at h
  split at h
  · rename_i hstart
    obtain ⟨t, ht, hs⟩ := tokens_of_startsWith hstart
    apply derives_of_withoutTerminator
    split at h
    · rename_i hone
      cases reaches_pure_iff.mp h
      have hnil : s.withoutTerminator.tokens.drop 1 = [] :=
        List.drop_eq_nil_of_le (Nat.le_of_eq hone)
      rw [position_of_withoutTerminator hs, hs, hnil]
      exact .returning ht
    · obtain ⟨e, he, h⟩ := reaches_bind_iff.mp h
      cases reaches_pure_iff.mp h
      rw [position_of_withoutTerminator hs, hs]
      exact .returningValue ht (derives_of_required he)
  · cases reaches_pure_iff.mp h

theorem exists_of_readBare {lead : Keyword} {statement : Position → Stmt}
    (h : Reaches Sound (readBare lead origin statement s) (some st)) :
    ∃ t, s.withoutTerminator.tokens = [t] ∧ st = statement t.position ∧ t.keyword = lead := by
  rw [readBare_eq] at h
  simp only at h
  split at h
  · rename_i hstart
    obtain ⟨t, ht, hs⟩ := tokens_of_startsWith hstart
    split at h
    · exact (not_reaches_fail _ _ h).elim
    · rename_i hone
      cases reaches_pure_iff.mp h
      have hnil : s.withoutTerminator.tokens.drop 1 = [] :=
        List.drop_eq_nil_of_le (Nat.le_of_not_lt hone)
      rw [hnil] at hs
      exact ⟨t, hs, by rw [position_of_withoutTerminator hs], ht⟩
  · cases reaches_pure_iff.mp h

theorem derives_of_readImport (h : Reaches Sound (readImport s) (some st)) :
    st.Derives s.tokens := by
  rw [readImport_eq] at h
  simp only at h
  split at h
  · rename_i hstart
    obtain ⟨t, ht, hs⟩ := tokens_of_startsWith hstart
    split at h
    · exact (not_reaches_fail _ _ h).elim
    · rename_i x hx
      split at h
      · rename_i hk
        split at h
        · rename_i n hn
          cases reaches_pure_iff.mp h
          rw [tokens_drop] at hx
          apply derives_of_withoutTerminator
          rw [position_of_withoutTerminator hs, hs, hx]
          exact .importing ht (.text hk hn)
        · exact (not_reaches_fail _ _ h).elim
      · exact (not_reaches_fail _ _ h).elim
    · exact (not_reaches_fail _ _ h).elim
  · cases reaches_pure_iff.mp h

theorem derives_of_readReadInto (h : Reaches Sound (readReadInto s) (some st)) :
    st.Derives s.tokens := by
  rw [readReadInto_eq] at h
  simp only at h
  split at h
  · rename_i hstart
    obtain ⟨n, hn, h⟩ := reaches_bind_iff.mp h
    cases reaches_pure_iff.mp h
    obtain ⟨t, ht, hs⟩ := tokens_of_startsWith hstart
    obtain ⟨x, hx, hxn⟩ := exists_token_of_requiredName (reaches_ofExcept_iff.mp hn)
    rw [tokens_drop] at hx
    apply derives_of_withoutTerminator
    rw [position_of_withoutTerminator hs, hs, hx]
    exact .readInto ht hxn
  · cases reaches_pure_iff.mp h

theorem derives_of_readExpressionStatement
    (h : Reaches Sound (readExpressionStatement s) (some st)) : st.Derives s.tokens := by
  rw [readExpressionStatement_eq] at h
  split at h
  · cases reaches_pure_iff.mp h
  obtain ⟨_ | ⟨rule, e⟩, hread, h⟩ := reaches_bind_iff.mp h
  · cases reaches_pure_iff.mp h
  have hst : st = .expression s.position e := by
    simp only at h
    split at h
    · exact Option.some.inj (reaches_pure_iff.mp h)
    · obtain ⟨_, _, h⟩ := reaches_bind_iff.mp h
      exact Option.some.inj (reaches_pure_iff.mp h)
  have he : e.Derives s.withoutTerminator.tokens := Expr.derives_of_read (reaches_of_ofExpr hread)
  obtain ⟨t, ts, hs⟩ := List.exists_cons_of_ne_nil he.ne_nil
  have hplace : s.position = Token.firstPlace s.withoutTerminator.tokens := by
    rw [position_of_withoutTerminator hs, hs]
    rfl
  rw [hst, hplace]
  exact derives_of_withoutTerminator (.expression he)

end Prose.Stmt
