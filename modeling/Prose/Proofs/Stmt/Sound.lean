import Prose.Proofs.Segment.Partition
import Prose.Proofs.Stmt.Indices
import Prose.Proofs.Stmt.Sound.Commands
import Prose.Proofs.Stmt.Sound.Constructs
import Prose.Proofs.Stmt.Sound.Parts

namespace Prose.Stmt

open Inquiry Slice

variable {s : Slice} {st : Stmt} {body : List Stmt}

section clauses

theorem DerivesBody.dots {ts us : List Token} (h : DerivesBody body ts)
    (hus : ∀ d ∈ us, d.keyword = .endOfStatement) : DerivesBody body (ts ++ us) := by
  induction us generalizing ts with
  | nil => rwa [List.append_nil]
  | cons d us ih =>
    obtain ⟨hd, hus⟩ := List.forall_mem_cons.mp hus
    rw [List.append_cons]
    exact ih (.terminated h hd) hus

theorem tiled_clausesFrom {start : Nat} {is : List Nat} (hordered : is.Pairwise (· < ·))
    (hstart : ∀ i ∈ is, start ≤ i + 1) :
    TiledFrom (s.start + start) (clausesFrom s start is) (s.tokens.drop start) := by
  induction is generalizing start with
  | nil => exact .singleton (s.drop start)
  | cons i is ih =>
    obtain ⟨hlater, hordered⟩ := List.pairwise_cons.mp hordered
    obtain ⟨hi, hstart⟩ := List.forall_mem_cons.mp hstart
    rw [clausesFrom]
    split
    · rename_i ht
      split
      · have hnext : i + 1 < s.length := (List.getElem?_eq_some_iff.mp ht).1
        have hend : (s.extract start (i + 1)).start + (s.extract start (i + 1)).length =
            s.start + (i + 1) := by
          change s.start + start + _ = _
          rw [length_extract]
          omega
        rw [s.drop_tokens_eq_append hi]
        apply TiledFrom.cons (s.extract start (i + 1))
        rw [hend]
        exact ih hordered fun j hj => Nat.succ_le_succ (Nat.le_of_lt (hlater j hj))
      · exact ih hordered hstart
    · exact ih hordered hstart

/-- The clauses of a slice are all its tokens. -/
theorem tiled_clauses (s : Slice) : TiledFrom s.start (clauses s) s.tokens := by
  rw [clauses_eq_clausesFrom]
  exact tiled_clausesFrom (s.pairwise_allOf .blockEnd) fun _ _ => Nat.zero_le _

theorem exists_of_readClause {clause : Slice} {c : Expr} {t : Token}
    (hs : clause.tokens = t :: clause.tokens.drop 1)
    (h : Reaches Sound (readClause clause) (c, body)) :
    ∃ u cs bs, clause.tokens = t :: (cs ++ u :: bs) ∧ c.Derives cs ∧ u.keyword = .thenWord ∧
      DerivesBody body bs := by
  rw [readClause_eq] at h
  split at h
  · exact (not_reaches_fail _ _ h).elim
  rename_i thenAt hthen
  obtain ⟨c, hc, h⟩ := reaches_bind_iff.mp h
  obtain ⟨body, hbody, h⟩ := reaches_bind_iff.mp h
  cases reaches_pure_iff.mp h
  obtain ⟨u, hu, hcut⟩ := drop_tokens_of_first hthen
  rw [hcut] at hs
  exact ⟨u, _, _, hs, Expr.derives_of_requiredOr (reaches_of_ofExpr hc), hu,
    derivesBody_of_requiredBody hbody⟩

/-- Every clause stands behind nothing but `.`, and so does the end. -/
theorem derivesFurther_of_readFurtherClauses {slices : List Slice} {ts : List Token}
    {branches : List Branch} {b : Option (List Stmt)} {i : Nat} (hslices : TiledFrom i slices ts)
    (h : Reaches Sound (readFurtherClauses slices) (branches, b)) :
    DerivesFurther branches b ts := by
  induction hslices generalizing branches with
  | nil =>
    cases reaches_pure_iff.mp h
    exact .nil
  | dot hd _ ih => exact .dot hd (ih h)
  | cons clause hrest ih =>
    rw [readFurtherClauses_cons] at h
    split at h
    · rename_i hlead
      obtain ⟨t, ht, hs⟩ := tokens_of_startsWith hlead
      obtain ⟨⟨c, body⟩, hclause, h⟩ := reaches_bind_iff.mp h
      obtain ⟨⟨further, b'⟩, hfurther, h⟩ := reaches_bind_iff.mp h
      cases reaches_pure_iff.mp h
      obtain ⟨u, cs, bs, hclause, hc, hu, hb⟩ := exists_of_readClause hs hclause
      rw [Expr.position_of_tokens hs, hclause, List.cons_append, List.append_assoc, List.cons_append]
      exact .otherwiseIf ht hc hu hb (ih hfurther)
    · split at h
      · rename_i hlead
        obtain ⟨t, ht, hs⟩ := tokens_of_startsWith hlead
        split at h
        · rename_i hlast
          obtain ⟨body, hbody, h⟩ := reaches_bind_iff.mp h
          cases reaches_pure_iff.mp h
          -- Nothing is left but `.`, which the body of the last clause takes in.
          rw [List.isEmpty_iff.mp hlast] at hrest
          rw [hs, List.cons_append]
          exact .otherwise ht ((derivesBody_of_requiredBody hbody).dots hrest.keyword_of_nil)
        · exact (not_reaches_fail _ _ h).elim
      · exact (not_reaches_fail _ _ h).elim

/-- A conditional stands behind nothing but `.` -/
theorem exists_of_readConditional {chain : List Slice} {ts : List Token} {i : Nat}
    (hchain : TiledFrom i chain ts)
    (h : Reaches Sound (readConditional chain) st) :
    ∃ ds us, ts = ds ++ us ∧ (∀ d ∈ ds, d.keyword = .endOfStatement) ∧ st.Derives us := by
  have hclauses : TiledFrom i (chain.flatMap clauses) ts :=
    hchain.flatMap fun s _ => tiled_clauses s
  rw [readConditional_eq] at h
  split at h
  · exact (not_reaches_fail _ _ h).elim
  rename_i first rest hfirst
  rw [hfirst] at hclauses
  split at h
  · rename_i hlead
    obtain ⟨t, ht, hs⟩ := tokens_of_startsWith hlead
    obtain ⟨⟨c, body⟩, hclause, h⟩ := reaches_bind_iff.mp h
    obtain ⟨⟨branches, b⟩, hfurther, h⟩ := reaches_bind_iff.mp h
    cases reaches_pure_iff.mp h
    obtain ⟨ds, us, rfl, hds, -, hrest⟩ := hclauses.exists_cons
    obtain ⟨u, cs, bs, hclause, hc, hu, hb⟩ := exists_of_readClause hs hclause
    refine ⟨ds, _, rfl, hds, ?_⟩
    rw [Expr.position_of_tokens hs, hclause, List.cons_append, List.append_assoc, List.cons_append]
    exact .conditional ht hc hu hb (derivesFurther_of_readFurtherClauses hrest hfurther)
  · exact (not_reaches_fail _ _ h).elim

theorem derives_of_readIf (h : Reaches Sound (readIf s) (some st)) : st.Derives s.tokens := by
  unfold readIf at h
  split at h
  · rename_i hlead
    obtain ⟨t, ht, hs⟩ := tokens_of_startsWith hlead
    obtain ⟨st, hst, h⟩ := reaches_map_iff.mp h
    cases h
    obtain ⟨ds, us, hcut, hds, hus⟩ := exists_of_readConditional (.singleton s) hst
    -- The slice begins with its leading word, so no `.` stands in front of it.
    cases ds with
    | nil =>
      rw [hcut]
      exact hus
    | cons d ds =>
      rw [hs] at hcut
      have hdot := hds d (List.mem_cons_self ..)
      rw [← (List.cons_eq_cons.mp hcut).1, ht] at hdot
      cases hdot
  · cases reaches_pure_iff.mp h

end clauses

/-- Where the expressions and the blocks inside are derived, so is what a form accepts. -/
theorem derives_of_form (f : Form) (h : Reaches Sound (f.read s) (some st)) :
    st.Derives s.tokens := by
  cases f with
  | block => exact derives_of_readBlockStatement h
  | entryPoint => exact derives_of_readEntryPoint h
  | functionDefinition => exact derives_of_readFunctionDefinition h
  | structureDefinition => exact derives_of_readStructureDefinition h
  | conditional => exact derives_of_readIf h
  -- The forms of one shape have one reader, whose inversion is used for each of them.
  | whileLoop =>
    obtain ⟨c, body, t, u, cs, ts, hs, rfl, ht, hc, hu, hbody⟩ := exists_of_readConditionLoop h
    rw [hs]
    exact .whileLoop ht hc hu hbody
  | untilLoop =>
    obtain ⟨c, body, t, u, cs, ts, hs, rfl, ht, hc, hu, hbody⟩ := exists_of_readConditionLoop h
    rw [hs]
    exact .untilLoop ht hc hu hbody
  | doLoop => exact derives_of_readDoLoop h
  | forEach => exact derives_of_readForEach h
  | forRange => exact derives_of_readForRange h
  | repeatLoop => exact derives_of_readRepeat h
  | tryCatch => exact derives_of_readTry h
  | assignment => exact derives_of_readAssignment h
  | declaration => exact derives_of_readDeclaration h
  | increment => exact derives_of_readIncrement h
  | print =>
    obtain ⟨e, t, ts, hs, rfl, ht, he⟩ := exists_of_readValue h
    exact derives_of_withoutTerminator (hs ▸ .print ht he)
  | returning => exact derives_of_readReturn h
  | breaking =>
    obtain ⟨t, hs, rfl, ht⟩ := exists_of_readBare h
    exact derives_of_withoutTerminator (hs ▸ .breaking ht)
  | continuing =>
    obtain ⟨t, hs, rfl, ht⟩ := exists_of_readBare h
    exact derives_of_withoutTerminator (hs ▸ .continuing ht)
  | exiting =>
    obtain ⟨t, hs, rfl, ht⟩ := exists_of_readBare h
    exact derives_of_withoutTerminator (hs ▸ .exiting ht)
  | throwing =>
    obtain ⟨e, t, ts, hs, rfl, ht, he⟩ := exists_of_readValue h
    exact derives_of_withoutTerminator (hs ▸ .throwing ht he)
  | assertion =>
    obtain ⟨e, t, ts, hs, rfl, ht, he⟩ := exists_of_readValue h
    exact derives_of_withoutTerminator (hs ▸ .assertion (List.mem_singleton.mp ht) he)
  | importing => exact derives_of_readImport h
  | listAdd =>
    obtain ⟨e, l, t, u, es, ls, hs, rfl, ht, he, hu, hl⟩ := exists_of_readPair h
    exact derives_of_withoutTerminator (hs ▸ .listAdd ht he hu hl)
  | listRemove =>
    obtain ⟨e, l, t, u, es, ls, hs, rfl, ht, he, hu, hl⟩ := exists_of_readPair h
    exact derives_of_withoutTerminator (hs ▸ .listRemove ht he hu hl)
  | swap => exact derives_of_readSwap h
  | readInto => exact derives_of_readReadInto h
  | expression => exact derives_of_readExpressionStatement h

end Prose.Stmt
