import Prose.Proofs.Stmt.RoundTrip.Parts

namespace Prose.Stmt

open Grammar Inquiry

variable {p : Position} {e : Expr} {f : Form} {k : Keyword} {es ts : List Token} {t : Token}
  {m : String} {stream : Slice} {n room : Nat}

section parts

/-- An operand before the `.` completes a statement. -/
theorem completes_operand (h : Expr.IsOperand e es) (dot : Word .endOfStatement) :
    Segment.Completes (es ++ [dot.val]) :=
  (Segment.completes_dot dot.property.1).paren h.around

theorem nested_operand (h : Expr.IsOperand e es) : WellNested es :=
  h.around.wellNested

theorem completes_word (w : Word k) (hflat : k.isOpener = false ∧ k.isCloser = false)
    (hk : k ≠ .endOfStatement) (h : Segment.Completes ts) : Segment.Completes (w.val :: ts) :=
  h.cons (Expr.isFlat_word w hflat) (by rwa [w.property.1])

theorem completes_name (ht : t.Names m) (h : Segment.Completes ts) : Segment.Completes (t :: ts) :=
  h.cons (isFlat_of_names ht) (by rw [ht.1]; decide)

theorem startsWith_of_tokens {s : Slice} (w : Word k) (hs : s.tokens = w.val :: ts) :
    s.startsWith k = true := by
  simp [Slice.startsWith, hs, w.property.1]

theorem drop_one_of_tokens {s : Slice} (hs : s.tokens = t :: ts) : s.tokens.drop 1 = ts := by
  rw [hs]
  rfl

end parts

section values

/-- `print ( E ) .` and the other statements of a word and a value. -/
theorem readsBack_value {leads : List Keyword} {origin : String}
    {statement : Position → Expr → Stmt} (hf : f ≠ .block ∧ f ≠ .conditional ∧ f ≠ .doLoop)
    (hleads : f.leads = leads) (hread : f.read = readValue leads origin statement)
    (hbare : ∀ p e, (statement p e).bare = statement .unknown e.bare) (hk : k ∈ leads) (u : Word k)
    (he : Expr.IsOperand e es) (dot : Word .endOfStatement) :
    ReadsBack (statement p e) (u.val :: (es ++ [dot.val])) := by
  refine readsBack_of_command _ f _ (by rwa [hleads]) hf u dot (completes_operand he dot)
    (nested_operand he) fun stream n room s hs hroom => ?_
  obtain ⟨e', hebare, hvalue⟩ := reaches_rest he (drop_one_of_tokens hs) Nat.one_pos hroom
  have hlead : leads.any s.withoutTerminator.startsWith = true :=
    List.any_eq_true.mpr ⟨k, hk, startsWith_of_tokens u hs⟩
  refine ⟨statement s.position e', by rw [hbare, hbare, hebare], ?_⟩
  simp only [hread, readValue_eq, hlead, if_true]
  exact reaches_bind (hvalue _ _) (.done _)

/-- `return .` -/
theorem readsBack_returning (u : Word .returnWord) (dot : Word .endOfStatement) :
    ReadsBack (returning p none) [u.val, dot.val] := by
  refine readsBack_of_command _ .returning [] (by decide) (by decide) u dot
    (Segment.completes_dot dot.property.1) .nil fun stream n room s hs _ => ?_
  have hlen : s.withoutTerminator.length = 1 := by rw [Slice.length, hs, List.length_singleton]
  refine ⟨returning s.position none, by simp only [bare], ?_⟩
  simp only [Form.read, readReturn_eq, startsWith_of_tokens u hs, if_true, hlen]
  exact .done _

/-- `return ( E ) .` -/
theorem readsBack_returningValue (u : Word .returnWord) (he : Expr.IsOperand e es)
    (dot : Word .endOfStatement) :
    ReadsBack (returning p (some e)) (u.val :: (es ++ [dot.val])) := by
  refine readsBack_of_command _ .returning _ (by decide) (by decide) u dot
    (completes_operand he dot) (nested_operand he) fun stream n room s hs hroom => ?_
  obtain ⟨e', hbare, hvalue⟩ := reaches_rest he (drop_one_of_tokens hs) Nat.one_pos hroom
  have htwo := he.two_le_length
  have hlen : ¬s.withoutTerminator.length = 1 := by
    rw [Slice.length, hs, List.length_cons]
    omega
  refine ⟨returning s.position (some e'), by simp only [bare, Option.map_some, hbare], ?_⟩
  simp only [Form.read, readReturn_eq, startsWith_of_tokens u hs, if_true, if_neg hlen]
  exact reaches_bind (hvalue _ _) (.done _)

/-- `break .` and the other statements of a single word. -/
theorem readsBack_bare {origin : String} {statement : Position → Stmt}
    (hf : f ≠ .block ∧ f ≠ .conditional ∧ f ≠ .doLoop) (hk : k ∈ f.leads)
    (hread : f.read = readBare k origin statement)
    (hbare : ∀ p, (statement p).bare = statement .unknown) (u : Word k)
    (dot : Word .endOfStatement) : ReadsBack (statement p) [u.val, dot.val] := by
  refine readsBack_of_command _ f [] hk hf u dot (Segment.completes_dot dot.property.1) .nil
    fun stream n room s hs _ => ⟨statement s.position, by rw [hbare, hbare], ?_⟩
  have hlen : ¬1 < s.withoutTerminator.length := by
    rw [Slice.length, hs, List.length_singleton]
    exact Nat.lt_irrefl 1
  simp only [hread, readBare_eq, startsWith_of_tokens u hs, if_true, if_neg hlen]
  exact .done _

/-- `add ( E ) to ( L ) .` and `remove ( E ) from ( L ) .` -/
theorem readsBack_pair {separator : Keyword} {origin first second : String}
    {pair : Position → Expr → Expr → Stmt} {l : Expr} {ls : List Token}
    (hf : f ≠ .block ∧ f ≠ .conditional ∧ f ≠ .doLoop) (hk : k ∈ f.leads)
    (hread : f.read = readPair k separator origin first second pair)
    (hbare : ∀ p e l, (pair p e l).bare = pair .unknown e.bare l.bare)
    (hflat : separator.isOpener = false ∧ separator.isCloser = false)
    (hsep : separator ≠ .endOfStatement) (u : Word k) (he : Expr.IsOperand e es)
    (v : Word separator) (hl : Expr.IsOperand l ls) (dot : Word .endOfStatement) :
    ReadsBack (pair p e l) (u.val :: (es ++ v.val :: (ls ++ [dot.val]))) := by
  have hcompletes : Segment.Completes ((es ++ v.val :: ls) ++ [dot.val]) := by
    rw [List.append_assoc]
    exact (completes_word v hflat hsep (completes_operand hl dot)).paren he.around
  have hback := readsBack_of_command (pair p e l) f _ hk hf u dot hcompletes
    ((nested_operand he).append (.flat (Expr.isFlat_word v hflat) (nested_operand hl)))
    fun stream n room s hs hroom => ?_
  · rwa [List.append_assoc] at hback
  · have hbehind := drop_one_of_tokens hs
    obtain ⟨hfirst, e', hebare, hvalue⟩ := reaches_until he v hflat hbehind Nat.one_pos hroom
    obtain ⟨l', hlbare, hlist⟩ := reaches_rest hl (Slice.drop_tokens_of_drop es ls hbehind)
      (Nat.succ_pos _) hroom
    refine ⟨pair s.position e' l', by rw [hbare, hbare, hebare, hlbare], ?_⟩
    simp only [hread, readPair_eq, startsWith_of_tokens u hs, if_true, hfirst]
    exact reaches_bind (hvalue _ _) (reaches_bind (hlist _ _) (.done _))

end values

section targets

variable {x : Expr}

structure ReadsTarget (x : Expr) (ts : List Token) : Prop where
  nested : WellNested ts
  shows : Shows [.unknown, .item, .of, .openParen, .closeParen] ts
  completes {us : List Token} : Segment.Completes us → Segment.Completes (ts ++ us)
  reads (a : Nat) : ∃ rule x', standard.outcome ⟨a, ts⟩ = .ok (some (rule, x')) ∧ IsTarget x' ∧
    x'.bare = x.bare

theorem readsTarget_of_writes (hx : IsTarget x) (h : Expr.Writes x ts) : ReadsTarget x ts := by
  cases h with
  | identifier h =>
    have hflat := isFlat_of_names h
    refine ⟨wellNested_singleton hflat, shows_singleton hflat (by simp [h.1]),
      fun hus => completes_name h hus, fun a => ?_⟩
    exact ⟨_, _, Expr.outcome_identifier h a, trivial, by simp only [Expr.bare]⟩
  | @index p c i cs is v hi w hc =>
    have houtline := Expr.hasOutline_index v hi.isOperand w hc.isOperand
    refine ⟨houtline.nested, houtline.shows.mono (by simp), fun hus => ?_, fun a => ?_⟩
    · rw [List.cons_append, List.append_assoc, List.cons_append]
      exact completes_word v (by decide) (by decide) (.paren (completes_word w (by decide)
        (by decide) (hus.paren hc.isOperand.around)) hi.isOperand.around)
    · obtain ⟨c', i', houtcome, hcbare, hibare⟩ := Expr.outcome_index v hi.isOperand w hc.isOperand a
      exact ⟨_, _, houtcome, trivial, by simp only [Expr.bare, hcbare, hibare]⟩
  | _ => exact hx.elim

/-- `set TARGET equal to ( E ) .` -/
theorem readsBack_assignment (u : Word .set) (hx : ReadsTarget x ts) (v : Word .equalTo)
    (he : Expr.IsOperand e es) (dot : Word .endOfStatement) :
    ReadsBack (assignment p x e) (u.val :: (ts ++ v.val :: (es ++ [dot.val]))) := by
  have hcompletes : Segment.Completes ((ts ++ v.val :: es) ++ [dot.val]) := by
    rw [List.append_assoc]
    exact hx.completes (completes_word v (by decide) (by decide) (completes_operand he dot))
  have hflat : v.val.IsFlat := Expr.isFlat_word v (by decide)
  have hback := readsBack_of_command (assignment p x e) .assignment _ (by decide)
    (by decide) u dot hcompletes (hx.nested.append (.flat hflat (nested_operand he)))
    fun stream n room s hs hroom => ?_
  · rwa [List.append_assoc] at hback
  · have hbehind := drop_one_of_tokens hs
    have hfirst : s.withoutTerminator.first .equalTo 1 = some (1 + ts.length) :=
      Slice.first_eq_some hx.shows (by decide) hflat v.property.1 hbehind
    have hlen := (hroom.length_le Nat.one_pos hbehind).1
    generalize hq : s.withoutTerminator.extract 1 (1 + ts.length) = q at *
    have htokens : q.tokens = ts := by
      rw [← hq]
      exact Slice.extract_tokens_of_drop ts _ hbehind
    have hpart : q.IsPartOf stream := by
      rw [← hq]
      exact (Slice.isPartOf_extract _ _ _).trans hroom.part
    obtain ⟨rule, x', houtcome, htarget, hxbare⟩ := hx.reads q.start
    have hqread : standard.outcome q = .ok (some (rule, x')) := by
      rwa [← htokens] at houtcome
    obtain ⟨e', hebare, hvalue⟩ := reaches_rest he (Slice.drop_tokens_of_drop ts es hbehind)
      (Nat.succ_pos _) hroom
    have hset : ∀ missing invalid : Problem, Reaches (Answers stream n room)
        (ofExpr (Expr.requiredOr missing invalid q)) x' :=
      reaches_requiredOr hpart hqread (by
        rw [Slice.length, htokens]
        rw [List.length_append] at hlen
        omega)
    refine ⟨assignment s.position x' e', by simp only [bare, hxbare, hebare], ?_⟩
    simp only [Form.read, readAssignment_eq, startsWith_of_tokens u hs, if_true, hfirst, hq]
    refine reaches_bind (hset _ _) ?_
    -- Only a name or an index may be set, and a written target is one of them.
    cases x' with
    | identifier => exact reaches_bind (hvalue _ _) (.done _)
    | index => exact reaches_bind (hvalue _ _) (.done _)
    | _ => exact htarget.elim

end targets

section names

inductive ReadsOptional (k : Keyword) : Option Expr → List Token → Prop
  | none : ReadsOptional k none []
  | some {e : Expr} {es : List Token} (w : Word k) (h : Expr.IsOperand e es) :
      ReadsOptional k (some e) (w.val :: es)

theorem WritesOptional.readsOptional {k : Keyword} {e : Option Expr} {es : List Token}
    (h : WritesOptional k e es) : ReadsOptional k e es := by
  cases h with
  | none => exact .none
  | some w h => exact .some w h.isOperand

/-- `let $x be ( E ) .` -/
theorem readsBack_declaration (u : Word .letWord) (h : t.Names m) (v : Word .be)
    (he : Expr.IsOperand e es) (dot : Word .endOfStatement) :
    ReadsBack (declaration p m e) (u.val :: t :: v.val :: (es ++ [dot.val])) := by
  refine readsBack_of_command _ .declaration (t :: v.val :: es) (by decide) (by decide)
    u dot (completes_name h (completes_word v (by decide) (by decide) (completes_operand he dot)))
    (.flat (isFlat_of_names h) (.flat (Expr.isFlat_word v (by decide)) (nested_operand he)))
    fun stream n room s hs hroom => ?_
  have hbehind := drop_one_of_tokens hs
  obtain ⟨hfirst, hname⟩ := name_until h v (by decide) (by decide) hbehind
  obtain ⟨e', hbare, hvalue⟩ := reaches_rest he (Slice.drop_tokens_of_drop [t] es hbehind)
    (Nat.succ_pos _) hroom
  refine ⟨declaration s.position m e', by simp only [bare, hbare], ?_⟩
  simp only [Form.read, readDeclaration_eq, startsWith_of_tokens u hs, if_true, hfirst, hname]
  exact reaches_bind (.done m) (reaches_bind (hvalue _ _) (.done _))

/-- `swap $a and $b .` -/
theorem readsBack_swap {l r : String} {t' : Token} (u : Word .swap) (hl : t.Names l)
    (v : Word .andWord) (hr : t'.Names r) (dot : Word .endOfStatement) :
    ReadsBack (swap p l r) [u.val, t, v.val, t', dot.val] := by
  refine readsBack_of_command _ .swap [t, v.val, t'] (by decide) (by decide) u dot
    (completes_name hl (completes_word v (by decide) (by decide) (completes_name hr
      (Segment.completes_dot dot.property.1))))
    (.flat (isFlat_of_names hl) (.flat (Expr.isFlat_word v (by decide))
      (wellNested_singleton (isFlat_of_names hr))))
    fun stream n room s hs hroom => ⟨swap s.position l r, by simp only [bare], ?_⟩
  have hbehind := drop_one_of_tokens hs
  obtain ⟨hfirst, hleft⟩ := name_until hl v (by decide) (by decide) hbehind
  have hright : (s.withoutTerminator.drop (1 + 1 + 1)).tokens = [t'] :=
    Slice.drop_tokens_of_drop [t] [t'] hbehind
  simp only [Form.read, readSwap_eq, startsWith_of_tokens u hs, if_true, hfirst, hleft,
    requiredName_eq hr hright]
  exact reaches_bind (.done l) (reaches_bind (.done r) (.done _))

/-- `read into $x .` -/
theorem readsBack_readInto (u : Word .readInto) (h : t.Names m) (dot : Word .endOfStatement) :
    ReadsBack (readInto p m) [u.val, t, dot.val] := by
  refine readsBack_of_command _ .readInto [t] (by decide) (by decide) u dot
    (completes_name h (Segment.completes_dot dot.property.1))
    (wellNested_singleton (isFlat_of_names h))
    fun stream n room s hs _ => ⟨readInto s.position m, by simp only [bare], ?_⟩
  have hname : (s.withoutTerminator.drop 1).tokens = [t] := drop_one_of_tokens hs
  simp only [Form.read, readReadInto_eq, startsWith_of_tokens u hs, if_true,
    requiredName_eq h hname]
  exact reaches_bind (.done m) (.done _)

/-- `import "module" .` -/
theorem readsBack_importing (u : Word .importWord) (h : t.Denotes (.text m))
    (dot : Word .endOfStatement) : ReadsBack (importing p m) [u.val, t, dot.val] := by
  obtain ⟨hkind, hkey, hvalue⟩ := h
  have hflat : t.IsFlat := ⟨by rw [hkey]; rfl, by rw [hkey]; rfl⟩
  refine readsBack_of_command _ .importing [t] (by decide) (by decide) u dot
    ((Segment.completes_dot dot.property.1).cons hflat (by rw [hkey]; decide))
    (wellNested_singleton hflat)
    fun stream n room s hs _ => ⟨importing s.position m, by simp only [bare], ?_⟩
  have hmodule : (s.withoutTerminator.drop 1).tokens = [t] := drop_one_of_tokens hs
  simp only [Form.read, readImport_eq, startsWith_of_tokens u hs, if_true, hmodule, hkind, hvalue]
  exact .done _

/-- `increment $x by ( E ) .` and `decrement $x by ( E ) .`, with or without an amount. -/
theorem readsBack_change {amount : Option Expr} {change : Position → String → Option Expr → Stmt}
    (hk : k ∈ Form.increment.leads) (u : Word k) (h : t.Names m)
    (hamount : ReadsOptional .byWord amount es) (dot : Word .endOfStatement)
    (hchange : ∀ p e, (if k = .increment then increment p m e else decrement p m e) = change p m e)
    (hbare : ∀ p e, (change p m e).bare = change .unknown m (e.map Expr.bare)) :
    ReadsBack (change p m amount) (u.val :: t :: (es ++ [dot.val])) := by
  have hes : WellNested es ∧ Segment.Completes (es ++ [dot.val]) := by
    cases hamount with
    | none => exact ⟨.nil, Segment.completes_dot dot.property.1⟩
    | some w he =>
      exact ⟨.flat (Expr.isFlat_word w (by decide)) (nested_operand he),
        completes_word w (by decide) (by decide) (completes_operand he dot)⟩
  refine readsBack_of_command _ .increment (t :: es) hk (by decide) u dot
    (completes_name h hes.2) (.flat (isFlat_of_names h) hes.1) fun stream n room s hs hroom => ?_
  have hlead : s.withoutTerminator.startsWith .increment = true ∨
      s.withoutTerminator.startsWith .decrement = true := by
    rcases List.mem_cons.mp hk with rfl | hk
    · exact .inl (startsWith_of_tokens u hs)
    · rw [List.mem_singleton] at hk
      subst hk
      exact .inr (startsWith_of_tokens u hs)
  -- One form reads both commands and tells them apart by the first word.
  have hword : s.withoutTerminator.startsWith .increment = decide (k = .increment) := by
    simp only [Slice.startsWith, hs, List.head?_cons, Option.any_some, u.property.1]
    rfl
  have hbehind := drop_one_of_tokens hs
  cases hamount with
  | none =>
    -- Without `by` the name reaches to the end.
    have hshows : Shows [.unknown] (s.withoutTerminator.tokens.drop 1) := by
      rw [hbehind]
      exact shows_singleton (isFlat_of_names h) (by simp [h.1])
    have hnone : s.withoutTerminator.first .byWord 1 = none :=
      Slice.first_eq_none hshows (by decide)
    have hlen : s.withoutTerminator.length = 1 + [t].length := by rw [Slice.length, hs]; rfl
    have hname := requiredName_eq h (Slice.extract_tokens_of_drop [t] [] hbehind)
    refine ⟨change s.position m none, by rw [hbare, hbare], ?_⟩
    rw [← hchange]
    simp only [Form.read, readIncrement_eq]
    rw [if_pos hlead]
    simp only [hnone, Option.getD_none, hlen, hname, hword, decide_eq_true_eq]
    exact reaches_bind (.done m) (.done _)
  | @some e es w he =>
    obtain ⟨hfirst, hname⟩ := name_until h w (by decide) (by decide) hbehind
    obtain ⟨e', hebare, hvalue⟩ := reaches_rest he (Slice.drop_tokens_of_drop [t] es hbehind)
      (Nat.succ_pos _) hroom
    refine ⟨change s.position m (some e'), by rw [hbare, hbare, Option.map_some, hebare]; rfl, ?_⟩
    rw [← hchange]
    simp only [Form.read, readIncrement_eq]
    rw [if_pos hlead]
    simp only [hfirst, Option.getD_some, hname, hword, decide_eq_true_eq]
    exact reaches_bind (.done m) (reaches_bind (reaches_map _ (hvalue _ _)) (.done _))

end names

/-- `( E ) .` -/
theorem readsBack_expression (he : Expr.IsOperand e es) (dot : Word .endOfStatement) :
    ReadsBack (expression p e) (es ++ [dot.val]) := by
  have hflat : dot.val.IsFlat := Expr.isFlat_word dot (by decide)
  refine ⟨Segment.isUnit_paren (Segment.completes_dot dot.property.1) he.around,
    (nested_operand he).append (wellNested_singleton hflat), fun stream n a hpart _ => ?_⟩
  obtain ⟨e', hread, hbare⟩ := he.reads a
  have htrim : (⟨a, es ++ [dot.val]⟩ : Slice).withoutTerminator = ⟨a, es⟩ :=
    withoutTerminator_concat dot rfl
  have hpart' : (⟨a, es⟩ : Slice).IsPartOf stream :=
    Slice.IsPartOf.trans ⟨0, rfl, List.prefix_append _ _⟩ hpart
  refine ⟨expression (⟨a, es ++ [dot.val]⟩ : Slice).position e', by simp only [bare, hbare], ?_⟩
  obtain ⟨o, inner, c, rfl, ho, -, -⟩ := he.around
  refine readsSentence_of_paren rfl ho ?_
  have hempty : ((⟨a, o :: (inner ++ [c]) ++ [dot.val]⟩ : Slice).isEmpty) = false := rfl
  simp only [Form.read, readExpressionStatement_eq, htrim, hempty, Bool.false_eq_true, if_false]
  have hasked : Reaches (Answers stream n ((inner ++ [c]) ++ [dot.val]).length)
      (ofExpr (Expr.read ⟨a, o :: (inner ++ [c])⟩)) (some (Expr.Form.parenthesized.rule, e')) :=
    reaches_question ⟨hpart', by simp [Slice.length], hread⟩
  have hnoted (x : Expr) (shown : List Token) :
      Reaches (Answers stream n ((inner ++ [c]) ++ [dot.val]).length)
        (question (Question.unusedValue x shown)) () :=
    reaches_question trivial
  refine reaches_bind hasked ?_
  cases e' with
  | call => exact .done _
  | _ => exact reaches_bind (hnoted _ _) (.done _)

end Prose.Stmt
