import Prose.Proofs.Stmt.RoundTrip.Commands

namespace Prose.Stmt

open Grammar Inquiry

variable {p : Position} {k : Keyword} {ps : List Param} {body : List Stmt} {ts us : List Token}
  {t : Token} {m : String}

section params

theorem names_nested (h : WritesNames ps us) : WellNested us := by
  induction h with
  | last h => exact wellNested_singleton (isFlat_of_names h)
  | more h w _ ih => exact .flat (isFlat_of_names h) (.flat (Expr.isFlat_word w (by decide)) ih)

theorem names_shows (h : WritesNames ps us) : Shows [.unknown, .withWord, .comma] us := by
  induction h with
  | last h => exact shows_singleton (isFlat_of_names h) (by simp [h.1])
  | more h w _ ih =>
    exact (ih.cons (Expr.isFlat_word w (by decide)) (by simp [w.property.1])).cons
      (isFlat_of_names h) (by simp [h.1])

theorem names_completes (h : WritesNames ps us) (hts : Segment.Completes ts) :
    Segment.Completes (us ++ ts) := by
  induction h with
  | last h => exact completes_name h hts
  | more h w _ ih => exact completes_name h (completes_word w (by decide) (by decide) ih)

def readParam (origin : String) (whole : List Token) (piece : Slice) : Except Problem Param := do
  let name ← requiredName origin "a name" piece whole
  return ⟨name, piece.position⟩

theorem readParam_eq (h : t.Names m) (origin : String) (whole : List Token) {piece : Slice}
    (hp : piece.tokens = [t]) : readParam origin whole piece = .ok ⟨m, t.position⟩ := by
  rw [readParam, requiredName_eq h hp]
  simp only [Slice.position, hp]
  rfl

/-- Between the commas stand the names. -/
theorem names_pieces (h : WritesNames ps us) (s : Slice) (pre : List Token)
    (hs : s.tokens = pre ++ us) :
    ∃ ps', ps'.map Param.bare = ps.map Param.bare ∧ ∀ (origin : String) (whole : List Token),
      (s.cutAt pre.length (Expr.commas pre.length us)).mapM (readParam origin whole) = .ok ps' := by
  induction h generalizing pre with
  | @last m q t h =>
    have hshows : Shows [.unknown] [t] := shows_singleton (isFlat_of_names h) (by simp [h.1])
    refine ⟨[⟨m, t.position⟩], rfl, fun origin whole => ?_⟩
    rw [Expr.cutAt_last hshows (by decide) hs, List.mapM_cons, readParam_eq h origin whole rfl]
    rfl
  | @more m q ps t us h w _ ih =>
    have hshows : Shows [.unknown] [t] := shows_singleton (isFlat_of_names h) (by simp [h.1])
    obtain ⟨ps', hbare, hrest⟩ := ih (pre ++ [t] ++ [w.val]) (by rw [hs]; simp)
    refine ⟨⟨m, t.position⟩ :: ps', by rw [List.map_cons, List.map_cons, hbare]; rfl,
      fun origin whole => ?_⟩
    have hcut := Expr.cutAt_more hshows (by decide) w
      (show s.tokens = pre ++ ([t] ++ w.val :: us) by simpa using hs)
    rw [List.singleton_append] at hcut
    rw [hcut, List.mapM_cons, readParam_eq h origin whole rfl, hrest]
    rfl

theorem exists_requiredParams_eq (h : WritesNames ps us) {q : Slice} (hq : q.tokens = us) :
    ∃ ps', ps'.map Param.bare = ps.map Param.bare ∧ ∀ (origin : String) (whole : List Token),
      requiredParams origin q whole = .ok ps' := by
  obtain ⟨ps', hbare, hpieces⟩ := names_pieces h q [] hq
  refine ⟨ps', hbare, fun origin whole => ?_⟩
  have hne : ∃ t ts, us = t :: ts := by cases h <;> exact ⟨_, _, rfl⟩
  obtain ⟨t, ts, rfl⟩ := hne
  have hpos : 0 < q.length := by rw [Slice.length, hq]; exact Nat.succ_pos _
  rw [requiredParams_eq, isEmpty_eq_false_of_tokens hq, Expr.split_comma hpos, hq]
  exact hpieces origin whole

/-- The names behind `with` are read, and no names where there is nothing. -/
theorem exists_optionalParams_eq (h : WritesParams ps us) {q : Slice} (hq : q.tokens = us) :
    ∃ ps', ps'.map Param.bare = ps.map Param.bare ∧
      ∀ (origin noun : String) (help : Option String) (whole : List Token),
        optionalParams origin noun help q whole = .ok ps' := by
  cases h with
  | none =>
    refine ⟨[], rfl, fun origin noun help whole => ?_⟩
    rw [optionalParams_eq, Slice.isEmpty, hq]
    rfl
  | some w h =>
    obtain ⟨ps', hbare, hread⟩ := exists_requiredParams_eq h (q := q.drop 1) (drop_one_of_tokens hq)
    refine ⟨ps', hbare, fun origin noun help whole => ?_⟩
    rw [optionalParams_eq, isEmpty_eq_false_of_tokens hq, startsWith_of_tokens w hq]
    exact hread origin whole

theorem params_nested (h : WritesParams ps us) : WellNested us := by
  cases h with
  | none => exact .nil
  | some w h => exact .flat (Expr.isFlat_word w (by decide)) (names_nested h)

theorem params_shows (h : WritesParams ps us) : Shows [.unknown, .withWord, .comma] us := by
  cases h with
  | none => exact shows_nil
  | some w h => exact (names_shows h).cons (Expr.isFlat_word w (by decide)) (by simp [w.property.1])

theorem params_completes (h : WritesParams ps us) (hts : Segment.Completes ts) :
    Segment.Completes (us ++ ts) := by
  cases h with
  | none => exact hts
  | some w h => exact completes_word w (by decide) (by decide) (names_completes h hts)

end params

/-- A block on its own. -/
theorem readsBack_block (h : IsBody body ts) : ReadsBack (block p body) ts := by
  refine ⟨Segment.isUnit_brace h.around, h.around.wellNested, fun stream n a hpart hlen => ?_⟩
  have htwo := h.two_le_length
  obtain ⟨body', inner, hbare, henclosed, hreads⟩ := h.reaches_enclosed (n := n)
    (q := ⟨a, ts⟩) (ts.length - 1) rfl hpart (by omega) (by omega)
  have htrim : (⟨a, ts⟩ : Slice).withoutTerminator = ⟨a, ts⟩ := h.withoutTerminator rfl
  refine ⟨block (⟨a, ts⟩ : Slice).position body', by simp only [bare, hbare], ?_⟩
  obtain ⟨o, inner', c, rfl, -⟩ := h
  refine readsSentence_of_lead (f := .block) rfl (by rw [o.property.1]; decide) (by decide) ?_
  simp only [Form.read, readBlockStatement_eq, htrim, henclosed]
  exact reaches_bind (hreads _ _) (.done _)

/-- `define entry point as BODY` -/
theorem readsBack_entryPoint (u : Word .defineEntryPoint) (v : Word .asWord)
    (h : IsBody body ts) : ReadsBack (entryPoint p body) (u.val :: v.val :: ts) := by
  refine readsBack_of_lead (f := .entryPoint) (by decide) (by decide) u
    (completes_word v (by decide) (by decide) (Segment.completes_brace h.around))
    (.flat (Expr.isFlat_word v (by decide)) h.around.wellNested) fun stream n s hs hroom => ?_
  have hbehind := drop_one_of_tokens hs
  have hfirst : s.first .asWord 1 = some 1 :=
    Slice.first_eq_some (show Shows [] [] from shows_nil) (by decide)
      (Expr.isFlat_word v (by decide)) v.property.1 hbehind
  obtain ⟨body', hbare, hbody⟩ := h.reaches_requiredBody
    (Slice.drop_tokens_of_drop [] ts hbehind) (Nat.succ_pos _) hroom
  refine ⟨entryPoint s.position body', by simp only [bare, hbare], ?_⟩
  simp only [Form.read, readEntryPoint_eq, startsWith_of_tokens u hs, if_true, hfirst]
  exact reaches_bind (hbody _ _) (.done _)

/-- `define function $f with $a , $b as BODY` -/
theorem readsBack_functionDefinition (u : Word .defineFunction) (ht : t.Names m)
    (hps : WritesParams ps us) (v : Word .asWord) (h : IsBody body ts) :
    ReadsBack (functionDefinition p m ps body) (u.val :: t :: (us ++ v.val :: ts)) := by
  have hflat : v.val.IsFlat := Expr.isFlat_word v (by decide)
  refine readsBack_of_lead (f := .functionDefinition) (by decide) (by decide) u
    (completes_name ht (params_completes hps (completes_word v (by decide) (by decide)
      (Segment.completes_brace h.around))))
    (.flat (isFlat_of_names ht) ((params_nested hps).append (.flat hflat h.around.wellNested)))
    fun stream n s hs hroom => ?_
  have hbehind : s.tokens.drop 1 = (t :: us) ++ v.val :: ts := drop_one_of_tokens hs
  have hheader := Slice.extract_tokens_of_drop (t :: us) (v.val :: ts) hbehind
  have hfirst : s.first .asWord 1 = some (1 + (t :: us).length) :=
    Slice.first_eq_some ((params_shows hps).cons (isFlat_of_names ht) (by simp [ht.1])) (by decide)
      hflat v.property.1 hbehind
  generalize hq : s.extract 1 (1 + (t :: us).length) = q at hheader
  obtain ⟨ps', hpsbare, hparams⟩ := exists_optionalParams_eq hps (q := q.drop 1)
    (drop_one_of_tokens hheader)
  have hname := requiredName_eq ht (q := q.take 1) (by rw [Slice.tokens_take, hheader]; rfl)
  obtain ⟨body', hbare, hbody⟩ := h.reaches_requiredBody
    (Slice.drop_tokens_of_drop (t :: us) ts hbehind) (Nat.succ_pos _) hroom
  refine ⟨functionDefinition s.position m ps' body', by simp only [bare, hbare, hpsbare], ?_⟩
  simp only [Form.read, readFunctionDefinition_eq, startsWith_of_tokens u hs, if_true, hfirst, hq,
    hname, hparams]
  exact reaches_bind (.done m) (reaches_bind (.done ps') (reaches_bind (hbody _ _) (.done _)))

/-- `define structure $Name with $a , $b .` -/
theorem readsBack_structureDefinition (u : Word .defineStructure) (ht : t.Names m)
    (hps : WritesParams ps us) (dot : Word .endOfStatement) :
    ReadsBack (structureDefinition p m ps) (u.val :: t :: (us ++ [dot.val])) := by
  refine readsBack_of_command _ .structureDefinition (t :: us) (by decide) (by decide)
    u dot (completes_name ht (params_completes hps (Segment.completes_dot dot.property.1)))
    (.flat (isFlat_of_names ht) (params_nested hps)) fun stream n room s hs _ => ?_
  obtain ⟨ps', hbare, hparams⟩ := exists_optionalParams_eq hps (q := s.withoutTerminator.drop 2)
    (by rw [Slice.tokens_drop, hs]; rfl)
  have hname := requiredName_eq ht (q := s.withoutTerminator.extract 1 2)
    (by rw [Slice.tokens_extract, hs]; rfl)
  refine ⟨structureDefinition s.position m ps', by simp only [bare, hbare], ?_⟩
  simp only [Form.read, readStructureDefinition_eq, startsWith_of_tokens u hs, if_true, hname,
    hparams]
  exact reaches_bind (.done m) (reaches_bind (.done ps') (.done _))

variable {c e : Expr} {cs es : List Token}

/-- An operand and a body with a word between them. -/
theorem completes_operand_body (hc : Expr.IsOperand c cs) (v : Word k)
    (hflat : k.isOpener = false ∧ k.isCloser = false) (hk : k ≠ .endOfStatement)
    (h : IsBody body ts) : Segment.Completes (cs ++ v.val :: ts) :=
  (completes_word v hflat hk (Segment.completes_brace h.around)).paren hc.around

theorem nested_operand_body (hc : Expr.IsOperand c cs) (v : Word k)
    (hflat : k.isOpener = false ∧ k.isCloser = false) (h : IsBody body ts) :
    WellNested (cs ++ v.val :: ts) :=
  (nested_operand hc).append (.flat (Expr.isFlat_word v hflat) h.around.wellNested)

/-- `while ( C ) do BODY` and `until ( C ) do BODY` -/
theorem readsBack_conditionLoop {f : Form} {origin : String}
    {loop : Position → Expr → List Stmt → Stmt} (hk : k ∈ f.leads)
    (hf : f ≠ .block ∧ f ≠ .conditional ∧ f ≠ .doLoop)
    (hread : f.read = readConditionLoop k origin loop)
    (hbare : ∀ p c body, (loop p c body).bare = loop .unknown c.bare (bareAll body)) (u : Word k)
    (hc : Expr.IsOperand c cs) (v : Word .doWord) (h : IsBody body ts) :
    ReadsBack (loop p c body) (u.val :: (cs ++ v.val :: ts)) := by
  refine readsBack_of_lead hk hf u (completes_operand_body hc v (by decide) (by decide) h)
    (nested_operand_body hc v (by decide) h) fun stream n s hs hroom => ?_
  have hbehind := drop_one_of_tokens hs
  obtain ⟨hfirst, c', hcbare, hcondition⟩ := reaches_until hc v (by decide) hbehind Nat.one_pos hroom
  obtain ⟨body', hbbare, hbody⟩ := h.reaches_requiredBody (Slice.drop_tokens_of_drop cs ts hbehind)
    (Nat.succ_pos _) hroom
  refine ⟨loop s.position c' body', by rw [hbare, hbare, hcbare, hbbare], ?_⟩
  simp only [hread, readConditionLoop_eq, startsWith_of_tokens u hs, if_true, hfirst]
  exact reaches_bind (hcondition _ _) (reaches_bind (hbody _ _) (.done _))

/-- `repeat ( E ) times BODY` -/
theorem readsBack_repeatLoop (u : Word .repeatWord) (he : Expr.IsOperand e es) (v : Word .times)
    (h : IsBody body ts) : ReadsBack (repeatLoop p e body) (u.val :: (es ++ v.val :: ts)) := by
  refine readsBack_of_lead (f := .repeatLoop) (by decide) (by decide) u
    (completes_operand_body he v (by decide) (by decide) h) (nested_operand_body he v (by decide) h)
    fun stream n s hs hroom => ?_
  have hbehind := drop_one_of_tokens hs
  obtain ⟨hfirst, e', hebare, hcount⟩ := reaches_until he v (by decide) hbehind Nat.one_pos hroom
  obtain ⟨body', hbare, hbody⟩ := h.reaches_requiredBody (Slice.drop_tokens_of_drop es ts hbehind)
    (Nat.succ_pos _) hroom
  refine ⟨repeatLoop s.position e' body', by simp only [bare, hebare, hbare], ?_⟩
  simp only [Form.read, readRepeat_eq, startsWith_of_tokens u hs, if_true, hfirst]
  exact reaches_bind (hcount _ _) (reaches_bind (hbody _ _) (.done _))

/-- `for each $x in ( E ) do BODY` -/
theorem readsBack_forEach (u : Word .forEach) (ht : t.Names m) (v : Word .inWord)
    (he : Expr.IsOperand e es) (w : Word .doWord) (h : IsBody body ts) :
    ReadsBack (forEach p m e body) (u.val :: t :: v.val :: (es ++ w.val :: ts)) := by
  refine readsBack_of_lead (f := .forEach) (by decide) (by decide) u
    (completes_name ht (completes_word v (by decide) (by decide)
      (completes_operand_body he w (by decide) (by decide) h)))
    (.flat (isFlat_of_names ht) (.flat (Expr.isFlat_word v (by decide))
      (nested_operand_body he w (by decide) h))) fun stream n s hs hroom => ?_
  have hbehind := drop_one_of_tokens hs
  obtain ⟨hin, hname⟩ := name_until ht v (by decide) (by decide) hbehind
  have hrest : s.tokens.drop (1 + 1 + 1) = es ++ w.val :: ts :=
    Slice.drop_tokens_of_drop [t] _ hbehind
  obtain ⟨hdo, e', hebare, hlist⟩ := reaches_until he w (by decide) hrest (Nat.succ_pos _) hroom
  obtain ⟨body', hbare, hbody⟩ := h.reaches_requiredBody (Slice.drop_tokens_of_drop es ts hrest)
    (Nat.succ_pos _) hroom
  refine ⟨forEach s.position m e' body', by simp only [bare, hebare, hbare], ?_⟩
  simp only [Form.read, readForEach_eq, startsWith_of_tokens u hs, if_true, hin, hdo, hname]
  exact reaches_bind (.done m) (reaches_bind (hlist _ _) (reaches_bind (hbody _ _) (.done _)))

section ranges

variable {x y : Expr} {xs ys ss : List Token} {step : Option Expr} {s stream : Slice}
  {n room i : Nat}

theorem ReadsOptional.completes (h : ReadsOptional k step ss)
    (hflat : k.isOpener = false ∧ k.isCloser = false) (hk : k ≠ .endOfStatement)
    (hts : Segment.Completes ts) : Segment.Completes (ss ++ ts) := by
  cases h with
  | none => exact hts
  | some w he => exact completes_word w hflat hk (hts.paren he.around)

theorem ReadsOptional.nested (h : ReadsOptional k step ss)
    (hflat : k.isOpener = false ∧ k.isCloser = false) : WellNested ss := by
  cases h with
  | none => exact .nil
  | some w he => exact .flat (Expr.isFlat_word w hflat) (nested_operand he)

/-- The end and the step of a counting loop. Without a `by` the end reaches to the `do`. -/
theorem reaches_stop_step (hy : Expr.IsOperand y ys) (hstep : ReadsOptional .byWord step ss)
    (d : Word .doWord) (hs : s.tokens.drop i = ys ++ (ss ++ d.val :: ts)) (hi : 0 < i)
    (hroom : HasRoom stream n room s) :
    ∃ doAt y' step', s.first .doWord i = some doAt ∧ s.tokens.drop (doAt + 1) = ts ∧
      y'.bare = y.bare ∧ step'.map Expr.bare = step.map Expr.bare ∧
      (∀ missing invalid : Problem, Reaches (Answers stream n room) (ofExpr
        (Expr.requiredOr missing invalid
          (s.extract i (((s.take doAt).first .byWord i).getD doAt)))) y') ∧
      ∀ origin name : String, Reaches (Answers stream n room)
        (readLoopStep origin s ((s.take doAt).first .byWord i) doAt name) step' := by
  cases hstep with
  | none =>
    obtain ⟨hdo, y', hybare, hstop⟩ := reaches_until hy d (by decide) hs hi hroom
    -- Nothing stands between the end and the `do`, so no `by` is found in front of it.
    have hby : (s.take (i + ys.length)).first .byWord i = none := by
      refine Slice.first_eq_none ?_ (show .byWord ∉ [Keyword.openParen, .closeParen] by decide)
      have htokens := Slice.extract_tokens_of_drop ys ([] ++ d.val :: ts) hs
      rw [Slice.tokens_extract] at htokens
      rw [Slice.tokens_take, htokens]
      exact hy.shows
    refine ⟨_, y', none, hdo, Slice.drop_tokens_of_drop ys ts hs, hybare, rfl, ?_, ?_⟩
    · rw [hby]
      exact hstop
    · rw [hby]
      exact fun origin name => .done none
  | @some e es b he =>
    rw [List.cons_append] at hs
    obtain ⟨-, y', hybare, hstop⟩ := reaches_until hy b (by decide) hs hi hroom
    have hrest := Slice.drop_tokens_of_drop ys (es ++ d.val :: ts) hs
    obtain ⟨-, e', hebare, hamount⟩ := reaches_until he d (by decide) hrest (Nat.succ_pos _) hroom
    have hlen : i + (ys ++ b.val :: es).length = i + ys.length + 1 + es.length := by
      simp only [List.length_append, List.length_cons]
      omega
    have hassoc : s.tokens.drop i = (ys ++ b.val :: es) ++ d.val :: ts := by
      rw [hs, List.append_assoc, List.cons_append]
    have hshows : Shows [.openParen, .closeParen, .byWord] (ys ++ b.val :: es) :=
      (hy.shows.mono (by simp)).append ((he.shows.mono (by simp)).cons
        (Expr.isFlat_word b (by decide)) (by simp [b.property.1]))
    -- Neither the end nor the step shows the `do` that is searched for.
    have hdo := Slice.first_eq_some hshows (k := .doWord) (by decide)
      (Expr.isFlat_word d (by decide)) d.property.1 hassoc
    have htokens := Slice.extract_tokens_of_drop (ys ++ b.val :: es) (d.val :: ts) hassoc
    rw [hlen] at hdo htokens
    have hby : (s.take (i + ys.length + 1 + es.length)).first .byWord i = some (i + ys.length) :=
      Expr.first_behind hy b htokens (by decide)
    refine ⟨_, y', some e', hdo, Slice.drop_tokens_of_drop es ts hrest, hybare,
      by rw [Option.map_some, hebare]; rfl, ?_, ?_⟩
    · rw [hby]
      exact hstop
    · rw [hby]
      exact fun origin name => reaches_map _ (hamount _ _)

/-- `for $i from ( A ) to ( B ) by ( S ) do BODY`, with or without a step. -/
theorem readsBack_forRange (u : Word .forWord) (ht : t.Names m) (v : Word .fromWord)
    (hx : Expr.IsOperand x xs) (w : Word .to) (hy : Expr.IsOperand y ys)
    (hstep : ReadsOptional .byWord step ss) (d : Word .doWord) (h : IsBody body ts) :
    ReadsBack (forRange p m x y step body)
      (u.val :: t :: v.val :: (xs ++ w.val :: (ys ++ (ss ++ d.val :: ts)))) := by
  refine readsBack_of_lead (f := .forRange) (by decide) (by decide) u ?_ ?_
    fun stream n s hs hroom => ?_
  · exact completes_name ht (completes_word v (by decide) (by decide) (.paren (completes_word w
      (by decide) (by decide) (.paren (hstep.completes (by decide) (by decide) (completes_word d
        (by decide) (by decide) (Segment.completes_brace h.around))) hy.around)) hx.around))
  · exact .flat (isFlat_of_names ht) (.flat (Expr.isFlat_word v (by decide)) ((nested_operand hx).append
      (.flat (Expr.isFlat_word w (by decide)) ((nested_operand hy).append ((hstep.nested
        (by decide)).append (.flat (Expr.isFlat_word d (by decide)) h.around.wellNested))))))
  · have hbehind := drop_one_of_tokens hs
    obtain ⟨hfrom, hname⟩ := name_until ht v (by decide) (by decide) hbehind
    have hbegin : s.tokens.drop (1 + 1 + 1) = xs ++ w.val :: (ys ++ (ss ++ d.val :: ts)) :=
      Slice.drop_tokens_of_drop [t] _ hbehind
    obtain ⟨hto, x', hxbare, hstart⟩ := reaches_until hx w (by decide) hbegin (Nat.succ_pos _) hroom
    obtain ⟨doAt, y', step', hdo, hrest, hybare, hsbare, hstop, hamount⟩ := reaches_stop_step hy
      hstep d (Slice.drop_tokens_of_drop xs _ hbegin) (Nat.succ_pos _) hroom
    obtain ⟨body', hbare, hbody⟩ := h.reaches_requiredBody hrest (Nat.succ_pos _) hroom
    refine ⟨forRange s.position m x' y' step' body',
      by simp only [bare, hxbare, hybare, hsbare, hbare], ?_⟩
    simp only [Form.read, readForRange_eq, startsWith_of_tokens u hs, if_true, hfrom, hto, hdo, hname]
    exact reaches_bind (.done m) (reaches_bind (hstart _ _) (reaches_bind (hstop _ _)
      (reaches_bind (hamount _ _) (reaches_bind (hbody _ _) (.done _)))))

end ranges

/-- `do BLOCK while ( C ) .` and `do BLOCK until ( C ) .` -/
theorem readsBack_doLoop {loop : Position → List Stmt → Expr → Stmt}
    (hk : k = .whileWord ∨ k = .untilWord)
    (hloop : ∀ p b c, (if k = .whileWord then doWhile p b c else doUntil p b c) = loop p b c)
    (hbare : ∀ p b c, (loop p b c).bare = loop .unknown (bareAll b) c.bare) (u : Word .doWord)
    (h : IsBody body ts) (v : Word k) (hc : Expr.IsOperand c cs) (dot : Word .endOfStatement) :
    ReadsBack (loop p body c) (u.val :: (ts ++ v.val :: (cs ++ [dot.val]))) := by
  have hflat : k.isOpener = false ∧ k.isCloser = false := by rcases hk with rfl | rfl <;> decide
  have hdot : dot.val.IsFlat := Expr.isFlat_word dot (by decide)
  refine ⟨Segment.isUnit_do u.property.1 h.around (by rwa [v.property.1]) (completes_operand hc dot),
    .flat (Expr.isFlat_word u (by decide)) (h.around.wellNested.append (.flat
      (Expr.isFlat_word v hflat) ((nested_operand hc).append (wellNested_singleton hdot)))),
    fun stream n a hpart hlen => ?_⟩
  generalize hs : (⟨a, u.val :: (ts ++ v.val :: (cs ++ [dot.val]))⟩ : Slice) = s at hpart
  have htokens : s.tokens = (u.val :: (ts ++ v.val :: cs)) ++ [dot.val] := by rw [← hs]; simp
  generalize hq : s.withoutTerminator = q
  have htrim : q = ⟨s.start, u.val :: (ts ++ v.val :: cs)⟩ :=
    hq ▸ withoutTerminator_concat dot htokens
  have hqs : q.tokens = u.val :: (ts ++ v.val :: cs) := by rw [htrim]
  have hqpart : q.IsPartOf s := by
    rw [htrim]
    exact ⟨0, rfl, by rw [htokens]; exact List.prefix_append _ _⟩
  have hsize : (u.val :: (ts ++ v.val :: (cs ++ [dot.val]))).length = q.length + 1 := by
    rw [Slice.length, hqs]
    simp only [List.length_cons, List.length_append, List.length_nil]
    omega
  -- The `.` is not read, so the tokens behind the `do` leave one level of room.
  have hroom : HasRoom stream n (ts ++ v.val :: (cs ++ [dot.val])).length q := by
    refine ⟨hqpart.trans hpart, ?_, ?_⟩
    · rw [List.length_cons] at hsize
      omega
    · omega
  have hbehind := drop_one_of_tokens hqs
  have hclose : q.matchingClose 1 = some (1 + ts.length - 1) :=
    Slice.matchingClose_of_around _ h.around hbehind
  have hblock : (q.drop 1).startsWith .blockStart = true := by
    obtain ⟨o, inner, c, rfl, -⟩ := h
    exact startsWith_of_tokens o hbehind
  have htail : (q.drop (1 + ts.length - 1 + 1)).tokens = v.val :: cs := by
    rw [Slice.tokens_drop, show 1 + ts.length - 1 + 1 = 1 + ts.length by omega, ← List.drop_drop,
      hbehind, List.drop_left]
  have hword : (q.drop (1 + ts.length - 1 + 1)).startsWith .whileWord = decide (k = .whileWord) := by
    simp only [Slice.startsWith, htail, List.head?_cons, Option.any_some, v.property.1]
    rfl
  have hlead : (q.drop (1 + ts.length - 1 + 1)).startsWith .whileWord = true ∨
      (q.drop (1 + ts.length - 1 + 1)).startsWith .untilWord = true := by
    rcases hk with rfl | rfl
    · exact .inl (startsWith_of_tokens v htail)
    · exact .inr (startsWith_of_tokens v htail)
  obtain ⟨c', hcbare, hcondition⟩ := reaches_rest hc (drop_one_of_tokens htail) Nat.one_pos
    (hroom.of_isPartOf (Slice.isPartOf_drop q _))
  obtain ⟨body', hbbare, hbody⟩ : ∃ body', bareAll body' = bareAll body ∧
      ∀ (origin : String) (whole : List Token), Reaches
        (Answers stream n (ts ++ v.val :: (cs ++ [dot.val])).length)
        (readBlock origin whole (q.extract 2 (1 + ts.length - 1))) body' := by
    obtain ⟨o, inner, c, rfl, hinner⟩ := h
    have hlast : 1 + (o.val :: (inner ++ [c.val])).length - 1 = 2 + inner.length := by
      simp only [List.length_cons, List.length_append, List.length_nil]
      omega
    have hinside : q.tokens.drop 2 = inner ++ c.val :: v.val :: cs := by
      rw [hqs]
      simp
    have hlen' := hroom.length_le Nat.two_pos hinside
    rw [List.length_append, List.length_cons] at hlen'
    rw [hlast]
    exact hinner.reaches_readBlock (Slice.extract_tokens_of_drop inner _ hinside)
      ((Slice.isPartOf_extract q _ _).trans hroom.part) (by omega) (by omega)
  refine ⟨loop s.position body' c', by rw [hbare, hbare, hbbare, hcbare], ?_⟩
  refine readsSentence_of_lead (f := .doLoop) (by rw [← hs]) (by rw [u.property.1]; decide)
    (by decide) ?_
  rw [← hloop]
  simp only [Form.read, readDoLoop_eq, hq, startsWith_of_tokens u hqs, hblock, and_self, if_true,
    hclose]
  rw [if_pos hlead]
  simp only [hword, decide_eq_true_eq]
  exact reaches_bind (hcondition _ _) (reaches_bind (hbody _ _) (.done _))

end Prose.Stmt
