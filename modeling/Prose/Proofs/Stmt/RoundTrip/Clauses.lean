import Prose.Proofs.Stmt.Clauses
import Prose.Proofs.Stmt.Questions
import Prose.Proofs.Stmt.RoundTrip.Blocks

namespace Prose.Stmt

open Grammar Inquiry

variable {p : Position} {c : Expr} {body : List Stmt} {cs bs ts : List Token} {t : Token}
  {m : String}

section cleanups

inductive ReadsCleanup : Option (List Stmt) → List Token → Prop
  | none : ReadsCleanup none []
  | some {body : List Stmt} {ts : List Token} (w : Word .finallyWord) (h : IsBody body ts) :
      ReadsCleanup (some body) (w.val :: ts)

variable {name : Option String} {handler : List Stmt} {cleanup : Option (List Stmt)}
  {ns us : List Token}

theorem ReadsCleanup.nested (h : ReadsCleanup cleanup cs) : WellNested cs := by
  cases h with
  | none => exact .nil
  | some w h => exact .flat (Expr.isFlat_word w (by decide)) h.around.wellNested

/-- A block, and perhaps a `finally` behind it, ends a statement. -/
theorem ReadsCleanup.completes (h : ReadsCleanup cleanup cs) (hh : IsBody handler us) :
    Segment.Completes (us ++ cs) := by
  cases h with
  | none =>
    rw [List.append_nil]
    exact Segment.completes_brace hh.around
  | some w h =>
    exact (completes_word w (by decide) (by decide) (Segment.completes_brace h.around)).brace
      hh.around (by rw [w.property.1]; rfl)

theorem handlerName_nested (h : WritesHandlerName name ns) : WellNested ns := by
  cases h with
  | none => exact .nil
  | some h => exact wellNested_singleton (isFlat_of_names h)

theorem handlerName_shows (h : WritesHandlerName name ns) : Shows [.unknown] ns := by
  cases h with
  | none => exact shows_nil
  | some h => exact shows_singleton (isFlat_of_names h) (by simp [h.1])

theorem handlerName_completes (h : WritesHandlerName name ns) (hts : Segment.Completes ts) :
    Segment.Completes (ns ++ ts) := by
  cases h with
  | none => exact hts
  | some h => exact completes_name h hts

/-- The name of a handler is told from its block by its kind. -/
theorem exists_handlerName_eq (hn : WritesHandlerName name ns) (hh : IsBody handler us) {q : Slice}
    (hq : q.tokens = ns ++ us) :
    ∃ part, handlerName q = (name, part) ∧ part.IsPartOf q ∧ part.tokens = us := by
  cases hn with
  | none =>
    obtain ⟨o, inner, c, rfl, -⟩ := hh
    have hkind : o.val.kind ≠ .identifier := by
      intro hk
      have hplain := o.property.2
      rw [hk] at hplain
      cases hplain
    refine ⟨q, ?_, .refl q, hq⟩
    rw [handlerName_eq, hq]
    simp only [List.nil_append, if_neg hkind]
  | @some m t h =>
    refine ⟨q.drop 1, ?_, Slice.isPartOf_drop q 1, drop_one_of_tokens hq⟩
    rw [handlerName_eq, hq]
    simp only [List.cons_append, if_pos (Expr.name?_kind h.2), h.2]

/-- The handler of a `try` reaches to its `finally`, or to the end. -/
theorem reaches_cleanup {s stream : Slice} {n room i : Nat} (hc : ReadsCleanup cleanup cs)
    (hn : WritesHandlerName name ns) (hh : IsBody handler us)
    (hs : s.tokens.drop i = ns ++ (us ++ cs)) (hroom : HasRoom stream n room s) :
    ∃ finallyAt cleanup', s.first .finallyWord i = finallyAt ∧
      (s.extract i (finallyAt.getD s.length)).tokens = ns ++ us ∧
      cleanup'.map bareAll = cleanup.map bareAll ∧
      ((finallyAt = none ∧ cleanup' = none) ∨ ∃ j body', finallyAt = some j ∧
        cleanup' = some body' ∧ ∀ (origin : String) (whole : List Token),
          Reaches (Answers stream n room) (requiredBlock origin (s.drop (j + 1)) whole) body') := by
  -- Neither the name nor the handler shows a `finally`, which stands inside the braces at most.
  have hshows : Shows [.unknown, .blockStart, .blockEnd] (ns ++ us) :=
    ((handlerName_shows hn).mono (by simp)).append (hh.shows.mono (by simp))
  rw [← List.append_assoc] at hs
  have hmid := Slice.extract_tokens_of_drop _ _ hs
  cases hc with
  | none =>
    rw [List.append_nil] at hs
    have hlen : s.length = i + (ns ++ us).length := by
      have hrest := congrArg List.length hs
      have htwo := hh.two_le_length
      simp only [List.length_drop, List.length_append] at hrest ⊢
      simp only [Slice.length]
      omega
    refine ⟨none, none, Slice.first_eq_none (by rwa [hs]) (by decide), ?_, rfl, .inl ⟨rfl, rfl⟩⟩
    rw [Option.getD_none, hlen]
    exact hmid
  | some w h =>
    have hrest := Slice.drop_tokens_of_drop _ _ hs
    have hlen := hroom.length_le (Nat.succ_pos _) hrest
    obtain ⟨body', hbare, hblock⟩ := h.reaches_requiredBlock (n := n)
      (q := s.drop (i + (ns ++ us).length + 1)) room hrest
      ((Slice.isPartOf_drop s _).trans hroom.part) (by omega) (by omega)
    exact ⟨_, some body', Slice.first_eq_some hshows (by decide) (Expr.isFlat_word w (by decide))
      w.property.1 hs, hmid, by rw [Option.map_some, hbare]; rfl, .inr ⟨_, body', rfl, rfl, hblock⟩⟩

/-- `try BLOCK catch $e BLOCK finally BLOCK`, with or without the name and the last block. -/
theorem readsBack_tryCatch (u : Word .tryWord) (hb : IsBody body bs) (v : Word .catchWord)
    (hn : WritesHandlerName name ns) (hh : IsBody handler us) (hc : ReadsCleanup cleanup cs) :
    ReadsBack (tryCatch p body name handler cleanup)
      (u.val :: (bs ++ v.val :: (ns ++ (us ++ cs)))) := by
  have hv : v.val.IsFlat := Expr.isFlat_word v (by decide)
  refine readsBack_of_lead (f := .tryCatch) (by decide) (by decide) u ?_ ?_
    fun stream n s htokens hroom => ?_
  · exact (completes_word v (by decide) (by decide) (handlerName_completes hn
      (hc.completes hh))).brace hb.around (by rw [v.property.1]; rfl)
  · exact hb.around.wellNested.append (.flat hv ((handlerName_nested hn).append
      (hh.around.wellNested.append hc.nested)))
  · -- A `.` is taken off before the statement is read, but the last block ends with a brace.
    have htrim : s.withoutTerminator = s := by
      cases hc with
      | none => exact hh.withoutTerminator_append (u.val :: (bs ++ v.val :: ns)) (by simp [htokens])
      | some w h =>
        exact h.withoutTerminator_append (u.val :: (bs ++ v.val :: (ns ++ (us ++ [w.val]))))
          (by simp [htokens])
    have hbehind := drop_one_of_tokens htokens
    have hrest := Slice.drop_tokens_of_drop bs _ hbehind
    have hcatch : s.first .catchWord 1 = some (1 + bs.length) :=
      Slice.first_eq_some hb.shows (by decide) hv v.property.1 hbehind
    have hroom' := hroom.length_le Nat.one_pos hbehind
    have hlen : (bs ++ v.val :: (ns ++ (us ++ cs))).length =
        bs.length + (ns.length + (us.length + cs.length) + 1) := by
      simp only [List.length_append, List.length_cons]
    -- Every block is a shorter part of the statement, so there is room for it.
    obtain ⟨body', hbbare, hbody⟩ := hb.reaches_requiredBlock (n := n)
      (bs ++ v.val :: (ns ++ (us ++ cs))).length (Slice.extract_tokens_of_drop bs _ hbehind)
      ((Slice.isPartOf_extract s _ _).trans hroom.part) (by omega) (by omega)
    obtain ⟨finallyAt, cleanup', hfinally, hmid, hcbare, hcleanup⟩ := reaches_cleanup hc hn hh hrest
      hroom
    obtain ⟨part, hname, hpart, hptokens⟩ := exists_handlerName_eq hn hh hmid
    obtain ⟨handler', hhbare, hhandler⟩ := hh.reaches_requiredBlock (n := n)
      (bs ++ v.val :: (ns ++ (us ++ cs))).length hptokens
      (hpart.trans ((Slice.isPartOf_extract s _ _).trans hroom.part))
      (by omega) (by omega)
    refine ⟨tryCatch s.position body' name handler' cleanup',
      by rw [bare_tryCatch, bare_tryCatch, hbbare, hhbare, hcbare], ?_⟩
    simp only [Form.read, readTry_eq, htrim, startsWith_of_tokens u htokens, if_true, hcatch,
      hfinally, hname]
    refine reaches_bind (hbody _ _) (reaches_bind (hhandler _ _) ?_)
    obtain ⟨rfl, rfl⟩ | ⟨j, last, rfl, rfl, hlast⟩ := hcleanup
    · exact .done _
    · exact reaches_bind (reaches_map some (hlast _ _)) (.done _)

end cleanups

section conditionals

inductive ReadsClauses : List Branch → Option (List Stmt) → List Token → Prop
  | none : ReadsClauses [] none []
  | otherwise {body : List Stmt} {ts : List Token} (u : Word .otherwise) (h : IsBody body ts) :
      ReadsClauses [] (some body) (u.val :: ts)
  | more {p : Position} {c : Expr} {body : List Stmt} {branches : List Branch}
      {d : Option (List Stmt)} {cs bs ts : List Token} (u : Word .otherwiseIf)
      (hc : Expr.IsOperand c cs) (v : Word .thenWord) (hb : IsBody body bs)
      (h : ReadsClauses branches d ts) :
      ReadsClauses (.mk p c body :: branches) d (u.val :: (cs ++ v.val :: (bs ++ ts)))

inductive AreClauses : List Branch → Option (List Stmt) → List Slice → Prop
  | none : AreClauses [] none []
  | otherwise {body : List Stmt} {ts : List Token} {q : Slice} (u : Word .otherwise)
      (h : IsBody body ts) (hq : q.tokens = u.val :: ts) : AreClauses [] (some body) [q]
  | more {p : Position} {c : Expr} {body : List Stmt} {branches : List Branch}
      {d : Option (List Stmt)} {cs bs : List Token} {q : Slice} {qs : List Slice}
      (u : Word .otherwiseIf) (hc : Expr.IsOperand c cs) (v : Word .thenWord)
      (hb : IsBody body bs) (hq : q.tokens = u.val :: (cs ++ v.val :: bs))
      (hqs : AreClauses branches d qs) : AreClauses (.mk p c body :: branches) d (q :: qs)

variable {branches : List Branch} {d : Option (List Stmt)} {s : Slice} {us : List Token}

theorem ReadsClauses.nested (h : ReadsClauses branches d ts) : WellNested ts := by
  induction h with
  | none => exact .nil
  | otherwise u h => exact .flat (Expr.isFlat_word u (by decide)) h.around.wellNested
  | more u hc v hb _ ih =>
    exact .flat (Expr.isFlat_word u (by decide)) ((nested_operand hc).append (.flat
      (Expr.isFlat_word v (by decide)) (hb.around.wellNested.append ih)))

/-- The body of a clause ends the conditional, or the next clause goes on with it. -/
theorem ReadsClauses.completes (h : ReadsClauses branches d ts) :
    ∀ {body : List Stmt} {bs : List Token}, IsBody body bs → Segment.Completes (bs ++ ts) := by
  induction h with
  | none =>
    intro body bs hb
    rw [List.append_nil]
    exact Segment.completes_brace hb.around
  | otherwise u h =>
    intro body bs hb
    exact (completes_word u (by decide) (by decide) (Segment.completes_brace h.around)).brace
      hb.around (by rw [u.property.1]; rfl)
  | more u hc v hb _ ih =>
    intro body bs hb'
    exact (completes_word u (by decide) (by decide) (.paren (completes_word v (by decide)
      (by decide) (ih hb)) hc.around)).brace hb'.around (by rw [u.property.1]; rfl)

/-- Before a body a clause shows its words and the parentheses of its condition. -/
theorem shows_condition {k : Keyword} (u : Word k) (hflat : k.isOpener = false ∧ k.isCloser = false)
    (hc : Expr.IsOperand c cs) (v : Word .thenWord) :
    Shows [.openParen, .closeParen, .thenWord, k] (u.val :: (cs ++ [v.val])) :=
  ((hc.shows.mono (by simp)).append (shows_singleton (Expr.isFlat_word v (by decide))
    (by simp [v.property.1]))).cons (Expr.isFlat_word u hflat) (by simp [u.property.1])

/-- The clauses of a conditional are its slices. -/
theorem ReadsClauses.slices (h : ReadsClauses branches d ts) :
    ∀ {ks : List Keyword} {ls : List Token} {body : List Stmt} {bs : List Token} (pre : List Token),
      Shows ks ls → .blockEnd ∉ ks → IsBody body bs → s.tokens = pre ++ (ls ++ (bs ++ ts)) →
      ∃ qs, clausesFrom s pre.length (blockEnds pre.length (ls ++ (bs ++ ts))) =
        ⟨s.start + pre.length, ls ++ bs⟩ :: qs ∧ AreClauses branches d qs := by
  -- By the clauses that follow: each one shows where the body in front of it ends.
  induction h with
  | none =>
    intro ks ls body bs pre hls hk hb hs
    rw [List.append_nil] at hs ⊢
    obtain ⟨inner, hbraced⟩ := hb.around.exists_isBraced
    exact ⟨[], clausesFrom_last hls hk hbraced hs, .none⟩
  | @otherwise last us u h =>
    intro ks ls body bs pre hls hk hb hs
    rw [← List.append_assoc ls] at hs
    have hu : Shows [.otherwise] [u.val] :=
      shows_singleton (Expr.isFlat_word u (by decide)) (by simp [u.property.1])
    obtain ⟨inner, hbraced⟩ := hb.around.exists_isBraced
    obtain ⟨innerLast, hbracedLast⟩ := h.around.exists_isBraced
    have hlast := clausesFrom_last hu (by decide) hbracedLast
      (show s.tokens = (pre ++ (ls ++ bs)) ++ ([u.val] ++ us) by rw [hs]; simp)
    exact ⟨_, (clausesFrom_more hls hk hbraced (.inr u.property.1) hs).trans
      (congrArg _ hlast), .otherwise u h rfl⟩
  | @more p c body branches d cs bs ts u hc v hb _ ih =>
    intro ks ls body' bs' pre hls hk hb' hs
    rw [← List.append_assoc ls] at hs
    have hassoc : u.val :: (cs ++ v.val :: (bs ++ ts)) =
        (u.val :: (cs ++ [v.val])) ++ (bs ++ ts) := by simp
    obtain ⟨qs, hqs, hclauses⟩ := ih (pre ++ (ls ++ bs')) (shows_condition u (by decide) hc v)
      (by decide) hb (by rw [hs]; simp)
    obtain ⟨inner, hbraced⟩ := hb'.around.exists_isBraced
    have hmore := clausesFrom_more hls hk hbraced (.inl u.property.1) hs
    rw [hassoc, hqs] at hmore
    exact ⟨_, hassoc ▸ hmore, .more u hc v hb (by simp) hclauses⟩

section reads

variable {stream : Slice} {n room : Nat} {q : Slice}

/-- A condition and a body are read. -/
theorem reaches_readClause (hc : Expr.IsOperand c cs) (v : Word .thenWord) (hb : IsBody body bs)
    (hq : q.tokens = t :: (cs ++ v.val :: bs)) (hroom : HasRoom stream n room q) :
    ∃ c' body', c'.bare = c.bare ∧ bareAll body' = bareAll body ∧
      Reaches (Answers stream n room) (readClause q) (c', body') := by
  have hbehind := drop_one_of_tokens hq
  obtain ⟨hthen, c', hcbare, hcondition⟩ := reaches_until hc v (by decide) hbehind Nat.one_pos hroom
  obtain ⟨body', hbare, hbody⟩ := hb.reaches_requiredBody (Slice.drop_tokens_of_drop cs bs hbehind)
    (Nat.succ_pos _) hroom
  refine ⟨c', body', hcbare, hbare, ?_⟩
  rw [readClause_eq, hthen]
  exact reaches_bind (hcondition _ _) (reaches_bind (hbody _ _) (.done _))

/-- The clauses behind the first are read in their order. -/
theorem reaches_readFurtherClauses {qs : List Slice} (h : AreClauses branches d qs)
    (hroom : ∀ q ∈ qs, HasRoom stream n room q) :
    ∃ branches' d', bareBranches branches' = bareBranches branches ∧
      d'.map bareAll = d.map bareAll ∧
      Reaches (Answers stream n room) (readFurtherClauses qs) (branches', d') := by
  induction h with
  | none => exact ⟨[], none, rfl, rfl, .done _⟩
  | @otherwise body ts q u h hq =>
    have hstart : q.startsWith .otherwiseIf = false := by
      simp [Slice.startsWith, hq, u.property.1]
    obtain ⟨body', hbare, hbody⟩ := h.reaches_requiredBody (drop_one_of_tokens hq) Nat.one_pos
      (hroom q (List.mem_singleton_self q))
    refine ⟨[], some body', rfl, by rw [Option.map_some, hbare]; rfl, ?_⟩
    rw [readFurtherClauses_cons, hstart, startsWith_of_tokens u hq]
    exact reaches_bind (hbody _ _) (.done _)
  | @more p c body branches d cs bs q qs u hc v hb hq _ ih =>
    obtain ⟨c', body', hcbare, hbare, hclause⟩ := reaches_readClause hc v hb hq
      (hroom q (List.mem_cons_self ..))
    obtain ⟨branches', d', hbbare, hd, hrest⟩ := ih fun q hq => hroom q (List.mem_cons_of_mem _ hq)
    refine ⟨.mk q.position c' body' :: branches', d',
      by simp only [bareBranches, hcbare, hbare, hbbare], hd, ?_⟩
    rw [readFurtherClauses_cons, startsWith_of_tokens u hq, if_pos rfl]
    exact reaches_bind hclause (reaches_bind hrest (.done _))

end reads

/-- `if ( C ) then BODY otherwise if ( C ) then BODY otherwise BODY`, with any number of clauses. -/
theorem readsBack_conditional (u : Word .ifWord) (hc : Expr.IsOperand c cs) (v : Word .thenWord)
    (hb : IsBody body bs) (h : ReadsClauses branches d ts) :
    ReadsBack (conditional p c body branches d) (u.val :: (cs ++ v.val :: (bs ++ ts))) := by
  have hu : u.val.IsFlat := Expr.isFlat_word u (by decide)
  refine ⟨Segment.isUnit_of_completes (.paren (completes_word v (by decide) (by decide)
      (h.completes hb)) hc.around) hu ?_ ?_ ?_, ?_, fun stream n a hpart hlen => ?_⟩
  · rw [u.property.1]
    rfl
  · rw [u.property.1]
    decide
  · rw [u.property.1]
    decide
  · exact .flat hu ((nested_operand hc).append (.flat (Expr.isFlat_word v (by decide))
      (hb.around.wellNested.append h.nested)))
  · generalize hs : (⟨a, u.val :: (cs ++ v.val :: (bs ++ ts))⟩ : Slice) = s at hpart
    have htokens : s.tokens = (u.val :: (cs ++ [v.val])) ++ (bs ++ ts) := by rw [← hs]; simp
    have hsize : s.length ≤ n + 1 := by rw [← hs]; exact hlen
    -- The first clause is the one in front of the others, and nothing stands in front of it.
    obtain ⟨qs, hqs, hclauses⟩ := h.slices [] (shows_condition u (by decide) hc v) (by decide) hb
      htokens
    have hslices : clauses s = ⟨s.start, (u.val :: (cs ++ [v.val])) ++ bs⟩ :: qs := by
      rw [clauses_eq_clausesFrom, Slice.allOf, htokens]
      exact hqs
    have hroom : ∀ q ∈ clauses s, HasRoom stream n s.length q := fun q hq =>
      HasRoom.of_isPartOf ⟨hpart, Nat.le_succ _, hsize⟩ (isPartOf_of_mem_clauses hq)
    rw [hslices] at hroom
    obtain ⟨c', body', hcbare, hbare, hclause⟩ := reaches_readClause hc v hb (t := u.val)
      (by simp) (hroom _ (List.mem_cons_self ..))
    obtain ⟨branches', d', hbbare, hd, hrest⟩ := reaches_readFurtherClauses hclauses
      fun q hq => hroom q (List.mem_cons_of_mem _ hq)
    have hstart : s.startsWith .ifWord = true := startsWith_of_tokens u (by rw [htokens]; rfl)
    have hfirst : (⟨s.start, (u.val :: (cs ++ [v.val])) ++ bs⟩ : Slice).startsWith .ifWord = true :=
      startsWith_of_tokens u rfl
    refine ⟨conditional (⟨s.start, (u.val :: (cs ++ [v.val])) ++ bs⟩ : Slice).position c' body'
      branches' d', by rw [bare_conditional, bare_conditional, hcbare, hbare, hbbare, hd], ?_⟩
    rw [ReadsSentence, if_pos hstart, readConditional_eq, List.flatMap_singleton, hslices]
    simp only [hfirst, if_true]
    exact reaches_bind hclause (reaches_bind hrest (.done _))

end conditionals

end Prose.Stmt
