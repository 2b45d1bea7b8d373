import Prose.Proofs.Stmt.RoundTrip.Clauses

namespace Prose.Stmt

open Grammar

section blocks

variable {stream : Slice} {n a : Nat} {sts : List Stmt} {tss : List (List Token)}

theorem ReadsBack.length_pos {st : Stmt} {ts : List Token} (h : ReadsBack st ts) :
    0 < ts.length := by
  obtain ⟨t, us, rfl, -⟩ := h.unit.head
  exact Nat.succ_pos _

/-- The statements of a block are read one by one, each in its own slice. -/
theorem readsSentences (h : List.Forall₂ ReadsBack sts tss)
    (hpart : (⟨a, tss.flatten⟩ : Slice).IsPartOf stream) (hn : tss.flatten.length ≤ n + 1) :
    ∃ sts', bareAll sts' = bareAll sts ∧
      List.Forall₂ (fun s st => 0 < s.length ∧ ReadsSentence stream n s st)
        (Segment.slicesFrom a tss) sts' := by
  induction h generalizing a with
  | nil => exact ⟨[], rfl, .nil⟩
  | @cons st ts sts tss h _ ih =>
    rw [List.flatten_cons] at hpart hn
    rw [List.length_append] at hn
    have hfirst : (⟨a, ts⟩ : Slice).IsPartOf stream :=
      Slice.IsPartOf.trans ⟨0, rfl, List.prefix_append _ _⟩ hpart
    have hrest : (⟨a + ts.length, tss.flatten⟩ : Slice).IsPartOf stream :=
      Slice.IsPartOf.trans ⟨ts.length, rfl, by simp⟩ hpart
    obtain ⟨st', hbare, hread⟩ := h.reads stream n a hfirst (by omega)
    obtain ⟨sts', hbares, hreads⟩ := ih hrest (by omega)
    exact ⟨st' :: sts', by simp only [bareAll, hbare, hbares],
      .cons ⟨h.length_pos, hread⟩ hreads⟩

theorem units_of_readsBack (h : List.Forall₂ ReadsBack sts tss) :
    ∀ ts ∈ tss, Segment.IsUnit ts := by
  induction h with
  | nil => exact fun ts hts => by cases hts
  | cons h _ ih =>
    intro ts hts
    rcases List.mem_cons.mp hts with rfl | hts
    · exact h.unit
    · exact ih ts hts

theorem nested_of_readsBack (h : List.Forall₂ ReadsBack sts tss) : WellNested tss.flatten := by
  induction h with
  | nil => exact .nil
  | cons h _ ih => exact h.nested.append ih

/-- Statements that are read back are read back together. -/
theorem readsBackAll_flatten (h : List.Forall₂ ReadsBack sts tss) :
    ReadsBackAll sts tss.flatten := by
  refine ⟨nested_of_readsBack h, fun stream n a hpart hn => ?_⟩
  cases n with
  | zero =>
    cases h with
    | nil => exact ⟨[], rfl, fun σ hσ _ => ⟨σ, rfl, .refl hσ⟩⟩
    | cons h _ =>
      have hpos := h.length_pos
      rw [List.flatten_cons, List.length_append] at hn
      omega
  | succ n =>
    obtain ⟨sts', hbare, hreads⟩ := readsSentences h hpart hn
    exact ⟨sts', hbare, readsBlock_of_units (units_of_readsBack h) hreads⟩

end blocks

mutual

/-- Written statements are read back, by induction on how they are written. -/
theorem Writes.readsBack : ∀ {st : Stmt} {ts : List Token}, Writes st ts → ReadsBack st ts
  | _, _, .entryPoint u v h => readsBack_entryPoint u v h.isBody
  | _, _, .functionDefinition u hn hps v h => readsBack_functionDefinition u hn hps v h.isBody
  | _, _, .structureDefinition u hn hfs dot => readsBack_structureDefinition u hn hfs dot
  | _, _, .block h => readsBack_block h.isBody
  | _, _, .conditional u hc v hb h =>
    readsBack_conditional u hc.isOperand v hb.isBody h.readsClauses
  -- Statements of one shape are read back by one lemma, which is told their form.
  | _, _, .whileLoop u hc v h =>
    readsBack_conditionLoop (f := .whileLoop) (by decide) (by decide) rfl (fun _ _ _ => rfl) u
      hc.isOperand v h.isBody
  | _, _, .untilLoop u hc v h =>
    readsBack_conditionLoop (f := .untilLoop) (by decide) (by decide) rfl (fun _ _ _ => rfl) u
      hc.isOperand v h.isBody
  | _, _, .doWhile u h v hc dot =>
    readsBack_doLoop (.inl rfl) (fun _ _ _ => rfl) (fun _ _ _ => rfl) u h.isBody v hc.isOperand dot
  | _, _, .doUntil u h v hc dot =>
    readsBack_doLoop (.inr rfl) (fun _ _ _ => rfl) (fun _ _ _ => rfl) u h.isBody v hc.isOperand dot
  | _, _, .forEach u hn v he w h => readsBack_forEach u hn v he.isOperand w h.isBody
  | _, _, .forRange u hn v hx w hy hstep d h =>
    readsBack_forRange u hn v hx.isOperand w hy.isOperand hstep.readsOptional d h.isBody
  | _, _, .repeatLoop u he v h => readsBack_repeatLoop u he.isOperand v h.isBody
  | _, _, .tryCatch u hb v hn hh hc => readsBack_tryCatch u hb.isBody v hn hh.isBody hc.readsCleanup
  | _, _, .returning u dot => readsBack_returning u dot
  | _, _, .returningValue u he dot => readsBack_returningValue u he.isOperand dot
  | _, _, .breaking u dot =>
    readsBack_bare (f := .breaking) (by decide) (by decide) rfl (fun _ => rfl) u dot
  | _, _, .continuing u dot =>
    readsBack_bare (f := .continuing) (by decide) (by decide) rfl (fun _ => rfl) u dot
  | _, _, .exiting u dot =>
    readsBack_bare (f := .exiting) (by decide) (by decide) rfl (fun _ => rfl) u dot
  | _, _, .throwing hk u he dot =>
    readsBack_value (f := .throwing) (by decide) rfl rfl (fun _ _ => rfl) hk u he.isOperand dot
  | _, _, .assignment u hx hts v he dot =>
    readsBack_assignment u (readsTarget_of_writes hx hts) v he.isOperand dot
  | _, _, .declaration u hn v he dot => readsBack_declaration u hn v he.isOperand dot
  | _, _, .increment u hn he dot =>
    readsBack_change (by decide) u hn he.readsOptional dot (fun _ _ => rfl) (fun _ _ => rfl)
  | _, _, .decrement u hn he dot =>
    readsBack_change (by decide) u hn he.readsOptional dot (fun _ _ => rfl) (fun _ _ => rfl)
  | _, _, .swap u hl v hr dot => readsBack_swap u hl v hr dot
  | _, _, .listAdd u he v hl dot =>
    readsBack_pair (f := .listAdd) (by decide) (by decide) rfl (fun _ _ _ => rfl) (by decide)
      (by decide) u he.isOperand v hl.isOperand dot
  | _, _, .listRemove u he v hl dot =>
    readsBack_pair (f := .listRemove) (by decide) (by decide) rfl (fun _ _ _ => rfl) (by decide)
      (by decide) u he.isOperand v hl.isOperand dot
  | _, _, .print hk u he dot =>
    readsBack_value (f := .print) (by decide) rfl rfl (fun _ _ => rfl) hk u he.isOperand dot
  | _, _, .readInto u hn dot => readsBack_readInto u hn dot
  | _, _, .assertion u he dot =>
    readsBack_value (f := .assertion) (by decide) rfl rfl (fun _ _ => rfl)
      (List.mem_singleton_self _) u he.isOperand dot
  | _, _, .importing u hn dot => readsBack_importing u hn dot
  | _, _, .expression he dot => readsBack_expression he.isOperand dot

theorem WritesBody.isBody :
    ∀ {body : List Stmt} {ts : List Token}, WritesBody body ts → IsBody body ts
  | _, _, .braces o h c => by
    obtain ⟨tss, rfl, htss⟩ := h.readsBack
    exact ⟨o, _, c, rfl, readsBackAll_flatten htss⟩

theorem WritesAll.readsBack : ∀ {sts : List Stmt} {ts : List Token}, WritesAll sts ts →
    ∃ tss : List (List Token), ts = tss.flatten ∧ List.Forall₂ ReadsBack sts tss
  | _, _, .nil => ⟨[], rfl, .nil⟩
  | _, _, .cons h hs => by
    obtain ⟨tss, rfl, htss⟩ := hs.readsBack
    exact ⟨_ :: tss, rfl, .cons h.readsBack htss⟩

theorem WritesClauses.readsClauses : ∀ {branches : List Branch} {d : Option (List Stmt)}
    {ts : List Token}, WritesClauses branches d ts → ReadsClauses branches d ts
  | _, _, _, .none => .none
  | _, _, _, .otherwise u h => .otherwise u h.isBody
  | _, _, _, .more u hc v hb h => .more u hc.isOperand v hb.isBody h.readsClauses

theorem WritesCleanup.readsCleanup : ∀ {cleanup : Option (List Stmt)} {ts : List Token},
    WritesCleanup cleanup ts → ReadsCleanup cleanup ts
  | _, _, .none => .none
  | _, _, .some u h => .some u h.isBody

end

/-- Every writable program can be written down with its bodies in braces, its operands in
parentheses and a `.` behind every simple statement. A fresh session whose nesting limit exceeds the
number of tokens reads the block without an error, and the statements it reads differ from the
program in places and groupings only. -/
theorem block_of_writes (sts : List Stmt) (hsts : AreWritable sts) :
    (∃ ts, WritesAll sts ts) ∧ ∀ (s : Slice) (o : Options) (n : Nat), WritesAll sts s.tokens →
      s.length < o.maxNestingDepth →
      ∃ sts' τ, (Parse.block standard s).run (Session.start o n) = (sts', τ) ∧
        bareAll sts' = bareAll sts ∧ τ.errors = #[] := by
  refine ⟨exists_writesAll sts hsts, fun s o n hs hroom => ?_⟩
  obtain ⟨a, ts⟩ := s
  obtain ⟨tss, rfl, htss⟩ := WritesAll.readsBack hs
  obtain ⟨sts', hbare, hreads⟩ := (readsBackAll_flatten htss).reads ⟨a, tss.flatten⟩ _ a (.refl _)
    (Nat.le_refl _)
  obtain ⟨τ, hrun, hτ⟩ := hreads (Session.start o n) (Session.recalls_start standard _ o n)
    (by simpa [Session.start] using Nat.le_of_lt hroom)
  exact ⟨sts', τ, hrun, hbare, hτ.errors⟩

/-- The tokens of `while ( $x ) do { swap $x and $y . }` are read back. -/
theorem block_of_writes_while :
    let x := Token.ofName "$x"
    let y := Token.ofName "$y"
    let w := fun k => (Word.ofRole k).val
    let sts := [whileLoop .unknown (.identifier .unknown "$x") [swap .unknown "$x" "$y"]]
    let ts := [w .whileWord, w .openParen, x, w .closeParen, w .doWord, w .blockStart, w .swap, x,
      w .andWord, y, w .endOfStatement, w .blockEnd]
    WritesAll sts ts ∧ ∃ sts' τ, (Parse.block standard ⟨0, ts⟩).run
        (Session.start { maxNestingDepth := 13 } 0) = (sts', τ) ∧
      bareAll sts' = bareAll sts ∧ τ.errors = #[] := by
  have hx : IsName "$x" := by decide +kernel
  have hy : IsName "$y" := by decide +kernel
  have hswap : WritesAll [swap .unknown "$x" "$y"] _ :=
    .cons (.swap (.ofRole _) (Token.names_ofName hx) (.ofRole _) (Token.names_ofName hy) (.ofRole _))
      .nil
  have hwrites : WritesAll
      [whileLoop .unknown (.identifier .unknown "$x") [swap .unknown "$x" "$y"]] _ :=
    .cons (.whileLoop (.ofRole _) (.parens (.ofRole _) (.identifier (Token.names_ofName hx))
      (.ofRole _)) (.ofRole _) (.braces (.ofRole _) hswap (.ofRole _))) .nil
  have hsts : AreWritable
      [whileLoop .unknown (.identifier .unknown "$x") [swap .unknown "$x" "$y"]] :=
    ⟨⟨hx, ⟨hx, hy⟩, trivial⟩, trivial⟩
  exact ⟨hwrites, (block_of_writes _ hsts).2 _ _ 0 hwrites (by decide)⟩

end Prose.Stmt
