import Prose.Parser
import Prose.Proofs.Block
import Prose.Proofs.Stmt.Leaves
import Prose.Proofs.Token.Regular

/-! What a parse without problems tells of its tokens: every bracket is closed by one of its kind,
and the statements have the names and values of the tokens, in their order. The one thing that is
lost is what stands in the place of the name of a `catch` and is none. -/
namespace Prose

open Session

def Token.IsCondensed (t : Token) : Prop :=
  ∃ s : Slice, s.IsCondensed ∧ t ∈ s.tokens

theorem Token.IsCondensed.isRegular {t : Token} (h : t.IsCondensed) : t.IsRegular := by
  obtain ⟨s, hs, ht⟩ := h
  exact hs.isRegular t ht

/-- A block that is read without a problem is what the grammar derives. -/
theorem derivesBlock_of_block (g : Grammar) (s : Slice) {σ : Session} (hσ : σ.Recalls g s)
    (h : ((Parse.block g s).run σ).2.errors.size ≤ σ.errors.size) :
    Stmt.DerivesBlock ((Parse.block g s).run σ).1 s.tokens :=
  Parse.derivesBlock_of_blockWithin (Nat.le_refl _) (.refl s) ⟨hσ, h⟩

/-- In condensed tokens that are read as a block without a problem, every `(` is closed by `)` and
every block start by a block end. -/
theorem wellNested_of_block (g : Grammar) (o : Options) (n : Nat) {s : Slice}
    (hs : ∀ t ∈ s.tokens, t.IsCondensed) (h : ((Parse.block g s).run (start o n)).2.errors = #[]) :
    WellNested s.tokens := by
  have hblock := derivesBlock_of_block g s (recalls_start g s o n) (by rw [h]; exact Nat.zero_le _)
  exact hblock.account Stmt.accounts_wellNested fun t ht => (hs t ht).isRegular

def nestedCheck : Slice :=
  .ofSource
    ("while $a do execute the following ; if ( 1 plus ( 2 ) ) is null then " ++
      "\x7b print ( $b ) . \x7d fin") "t"

theorem wellNested_of_block_nestedCheck :
    (∀ t ∈ nestedCheck.tokens, t.IsCondensed) ∧
      ((Parse.block .standard nestedCheck).run (start {} 1)).2.errors = #[] ∧
      WellNested nestedCheck.tokens := by
  have hs : ∀ t ∈ nestedCheck.tokens, t.IsCondensed := fun t ht =>
    ⟨nestedCheck, Slice.isCondensed_ofSource _ _, ht⟩
  have herrors : ((Parse.block .standard nestedCheck).run (start {} 1)).2.errors = #[] := by
    decide +kernel
  exact ⟨hs, herrors, wellNested_of_block .standard {} 1 hs herrors⟩

/-- A program is read as a block; the log entries around it report no problem. -/
theorem exists_of_program (count : Nat) (cs : List Token) (σ : Session) :
    ∃ message, ((Parser.program count cs).run σ).1 =
        ((Parse.block .standard (.ofTokens cs)).run (σ.log .debug message)).1 ∧
      ((Parser.program count cs).run σ).2.errors =
        ((Parse.block .standard (.ofTokens cs)).run (σ.log .debug message)).2.errors := by
  simp only [Parser.program, StateT.run_bind, StateT.run_get, pure_bind]
  exact ⟨_, rfl, rfl⟩

/-- A source text that is parsed without a problem has condensed tokens, and the statements are
those that the grammar derives of them. -/
theorem exists_of_parseSource {p : Parser} {source : String} {r : Parsed}
    (h : p.parseSource source = some r) (hclean : r.isClean = true) :
    ∃ ts cs, tokenize source p.options.sourceName = .ok ts ∧ condense ts = .ok cs ∧
      Stmt.DerivesBlock r.nodes cs := by
  -- Where the tokens cannot be made, the parse ends with their problem.
  have habort (e : Problem) (h : some (p.abort e) = some r) : False := by
    cases h
    cases hclean
  unfold Parser.parseSource at h
  match htokens : tokenize source p.options.sourceName with
  | .error e =>
    rw [htokens] at h
    exact (habort _ h).elim
  | .ok ts =>
    rw [htokens] at h
    simp only [Parser.parse] at h
    match hcondensed : condense ts with
    | .error (.problem e) =>
      rw [hcondensed] at h
      exact (habort _ h).elim
    | .error .placesExhausted =>
      rw [hcondensed] at h
      cases h
    | .ok cs =>
      rw [hcondensed] at h
      refine ⟨ts, cs, rfl, hcondensed, ?_⟩
      cases h
      obtain ⟨message, hnodes, herrors⟩ := exists_of_program ts.length cs p.session
      have hrecalls : (p.session.log .debug message).Recalls .standard (.ofTokens cs) :=
        recalls_start _ _ p.options p.observers
      -- The session begins without problems and ends without one.
      have hempty : ((Parser.program ts.length cs).run p.session).2.errors.toList = [] :=
        List.isEmpty_iff.mp hclean
      have hsize := congrArg List.length hempty
      rw [herrors, Array.length_toList] at hsize
      have hblock := derivesBlock_of_block .standard (.ofTokens cs) hrecalls
        (by rw [hsize]; exact Nat.zero_le _)
      rw [← hnodes] at hblock
      exact hblock

/-- The statements of a source text that is parsed without a problem have the names and values of
its condensed tokens, in their order, but for tokens that stand directly behind a `catch` in the
place of a name and are none. -/
theorem leaves_of_parseSource {p : Parser} {source : String} {r : Parsed}
    (h : p.parseSource source = some r) (hclean : r.isClean = true) :
    ∃ ts cs, tokenize source p.options.sourceName = .ok ts ∧ condense ts = .ok cs ∧
      (cs.filter fun t => t.isContent && !t.isMisnamed).map Token.leaf? =
        (Stmt.leavesAll r.nodes).map some ∧
      Stmt.OnlyCatchMisnames cs := by
  obtain ⟨ts, cs, htokens, hcondensed, hblock⟩ := exists_of_parseSource h hclean
  have hregular : ∀ t ∈ cs, t.IsRegular :=
    Slice.IsCondensed.isRegular (s := ⟨0, cs⟩) ⟨source, _, ts, cs, htokens, hcondensed, .refl _⟩
  exact ⟨ts, cs, htokens, hcondensed, hblock.account Stmt.accounts_named hregular,
    hblock.account Stmt.accounts_onlyCatchMisnames hregular⟩

def guardedLoop : String :=
  "try \x7b do \x7b add 'c' to $a . \x7d while true \x7d " ++
    "catch $e \x7b set item 1 of $a equal to \"x\" \x7d"

theorem leaves_of_parseSource_guardedLoop :
    ∃ r, ({} : Parser).parseSource guardedLoop = some r ∧ r.isClean = true ∧
      ∃ ts cs, tokenize guardedLoop "<input>" = .ok ts ∧ condense ts = .ok cs ∧
        (cs.filter fun t => t.isContent && !t.isMisnamed).map Token.leaf? =
          (Stmt.leavesAll r.nodes).map some ∧
        Stmt.OnlyCatchMisnames cs := by
  obtain ⟨r, hr, hclean⟩ : ∃ r, ({} : Parser).parseSource guardedLoop = some r ∧
      r.isClean = true :=
    (Option.any_eq_true Parsed.isClean _).mp (by decide +kernel)
  exact ⟨r, hr, hclean, leaves_of_parseSource hr hclean⟩

def caughtAccent : String :=
  "try \x7b print 1 . \x7d catch $é \x7b print 2 . \x7d"

/-- The token behind the `catch` is lost without a problem. -/
theorem leaves_ne_of_caughtAccent :
    ∃ r, ({} : Parser).parseSource caughtAccent = some r ∧ r.isClean = true ∧
      ∃ ts cs, tokenize caughtAccent "<input>" = .ok ts ∧ condense ts = .ok cs ∧
        (cs.filter Token.isContent).map Token.leaf? ≠ (Stmt.leavesAll r.nodes).map some := by
  obtain ⟨r, hr, hread⟩ := (Option.any_eq_true
    (fun r => r.isClean && (Stmt.leavesAll r.nodes).length == 2)
    (({} : Parser).parseSource caughtAccent)).mp (by decide +kernel)
  obtain ⟨hclean, hleaves⟩ := Bool.and_eq_true_iff.mp hread
  obtain ⟨ts, cs, htokens, hcondensed, -⟩ := exists_of_parseSource hr hclean
  refine ⟨r, hr, hclean, ts, cs, htokens, hcondensed, fun heq => ?_⟩
  have hcs : Slice.ofSource caughtAccent "<input>" = ⟨0, cs⟩ :=
    Slice.ofSource_eq htokens hcondensed
  have hcontent : ((Slice.ofSource caughtAccent "<input>").tokens.filter Token.isContent).length =
      3 := by
    decide +kernel
  have hlength := congrArg List.length heq
  rw [hcs] at hcontent
  rw [List.length_map, List.length_map, hcontent, beq_iff_eq.mp hleaves] at hlength
  cases hlength

end Prose
