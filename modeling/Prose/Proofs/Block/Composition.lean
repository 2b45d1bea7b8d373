import Prose.Proofs.Block.Parallel
import Prose.Proofs.Segment.Sentences
import Prose.Proofs.Token.Regular

/-! Blocks one behind the other. Behind a complete run of statements, and behind a closer that closes
nothing, a block is read as if it stood alone: no statement has an influence on a later one. -/
namespace Prose

open Session

def Segment.Division.warnings (d : Division) : List LogEntry :=
  match d.openEnd with
  | some place => [⟨.warning, place.render ++ ": statement is missing its closing `.`"⟩]
  | none => []

theorem Segment.Division.warnings_of_openEnd_eq_none {d : Division} (h : d.openEnd = none) :
    d.warnings = [] := by
  rw [warnings, h]

namespace Session

def opened (σ : Session) (d : Segment.Division) : Session :=
  match d.openEnd with
  | some place => σ.log .warning (place.render ++ ": statement is missing its closing `.`")
  | none => σ

variable (σ : Session) (d : Segment.Division)

@[simp] theorem options_opened : (σ.opened d).options = σ.options := by
  unfold opened
  split <;> rfl

@[simp] theorem depth_opened : (σ.opened d).depth = σ.depth := by
  unfold opened
  split <;> rfl

@[simp] theorem memo_opened : (σ.opened d).memo = σ.memo := by
  unfold opened
  split <;> rfl

@[simp] theorem errors_opened : (σ.opened d).errors = σ.errors := by
  unfold opened
  split <;> rfl

@[simp] theorem logs_opened : (σ.opened d).logs.toList = σ.logs.toList ++ d.warnings := by
  unfold opened Segment.Division.warnings
  split
  · exact Array.toList_push
  · exact (List.append_nil _).symm

/-- A later state of a session, to which problems and log entries were added, and which remembers
nothing new of the tokens from index `stop` on. -/
structure Adds (ps : List Problem) (es : List LogEntry) (stop : Nat) (σ τ : Session) : Prop where
  options : τ.options = σ.options
  depth : τ.depth = σ.depth
  errors : τ.errors.toList = σ.errors.toList ++ ps
  logs : τ.logs.toList = σ.logs.toList ++ es
  memo : ∀ q : Slice, stop ≤ q.start → τ.memo.find? q = σ.memo.find? q

namespace Parallel

variable {n : Nat} {stream q : Slice} {σ₀ τ₀ σ τ : Session}
  (h : Parallel (.along n) stream σ₀ τ₀ σ τ)
include h

/-- Sessions side by side in the same places report the same problems. -/
theorem errors_along : ∃ ps, σ.errors.toList = σ₀.errors.toList ++ ps ∧
    τ.errors.toList = τ₀.errors.toList ++ ps := by
  obtain ⟨ps, hσ, hτ⟩ := h.errors
  rw [relocate_along_problems] at hτ
  exact ⟨ps, hσ, hτ⟩

/-- They log the same. -/
theorem logs_along : ∃ es, σ.logs.toList = σ₀.logs.toList ++ es ∧
    τ.logs.toList = τ₀.logs.toList ++ es := by
  obtain ⟨es, es', hσ, hτ, hes⟩ := h.logs
  have hsame : es' = es := by
    clear hσ hτ
    induction hes with
    | nil => rfl
    | cons he _ ih =>
      cases he
      rw [ih]
      rfl
  rw [hsame] at hτ
  exact ⟨es, hσ, hτ⟩

/-- What is remembered of tokens behind the stream stays. -/
theorem memo_behind (hq : stream.start + stream.length + n ≤ q.start) :
    τ.memo.find? q = τ₀.memo.find? q := by
  apply h.elsewhere
  intro r hr hpos hkey
  obtain ⟨i, hstart, hprefix⟩ := hr
  have hlength := hprefix.length_le
  rw [List.length_drop] at hlength
  have hkeystart : r.start + n = q.start := congrArg Prod.fst hkey
  unfold Slice.length at hq hpos
  omega

omit h

/-- Sessions may begin side by side if they remember nothing of the tokens that they are about. -/
theorem start_behind {k : Nat} (hoptions : τ₀.options = σ₀.options) (hdepth : τ₀.depth = σ₀.depth)
    (hσ : ∀ q, σ₀.memo.find? q = none) (hτ : ∀ q : Slice, k ≤ q.start → τ₀.memo.find? q = none)
    (stream : Slice) : Parallel (.along k) stream σ₀ τ₀ σ₀ τ₀ := by
  apply Parallel.start hoptions hdepth
  intro q hq hpos
  rw [hσ q, hτ (relocate (.along k) q) (Nat.le_add_left k q.start)]
  rfl

end Parallel

/-- A session in which only the open end of a block is known remembers nothing. -/
theorem find?_opened (o : Options) (observers : Nat) (d : Segment.Division) (q : Slice) :
    ((start o observers).opened d).memo.find? q = none := by
  rw [memo_opened]
  exact Memo.find?_empty q

end Session

namespace Parse

variable {g : Grammar}

def freshBlock (g : Grammar) (o : Options) (observers : Nat) (ts : List Token) :
    List Stmt × Session :=
  (block g (.ofTokens ts)).run (.start o observers)

/-- Reading a block begins with its division. -/
theorem divide_run (s : Slice) (σ : Session) :
    (divide s).run σ =
      ((Segment.divide σ.options.requireTerminators s).segments,
        σ.opened (Segment.divide σ.options.requireTerminators s)) := by
  cases hopen : (Segment.divide σ.options.requireTerminators s).openEnd <;>
  · simp only [divide, StateT.run_bind, StateT.run_get, pure_bind, hopen, opened]
    rfl

/-- A block is the run of its sentences, behind the warning of its open end. -/
theorem block_run (s : Slice) (σ : Session) :
    (block g s).run σ =
      (sentences g (reply g (block g)) (Sentence.ofBlock σ.options.requireTerminators s)).run
        (σ.opened (Segment.divide σ.options.requireTerminators s)) := by
  have hparts : ∀ x ∈ Sentence.ofBlock σ.options.requireTerminators s, ∀ part ∈ x.slices,
      part.IsPartOf s := by
    intro x hx part hpart
    exact Sentence.isPartOf_of_mem_ofBlock hx hpart
  rw [← sentences_block hparts, block_eq_blockWithin (Nat.le_succ_of_pred_le (Nat.le_refl _)),
    blockWithin, StateT.run_bind, divide_run]
  rfl

/-- Sentences one behind the other are read in turn. -/
theorem sentences_append_run {block : Slice → StateM Session (List Stmt)} (xs ys : List Sentence)
    (σ : Session) :
    (sentences g (reply g block) (xs ++ ys)).run σ =
      (((sentences g (reply g block) xs).run σ).1 ++
          ((sentences g (reply g block) ys).run ((sentences g (reply g block) xs).run σ).2).1,
        ((sentences g (reply g block) ys).run ((sentences g (reply g block) xs).run σ).2).2) := by
  induction xs generalizing σ with
  | nil => rfl
  | cons x xs ih =>
    rw [List.cons_append, sentences_cons_run, sentences_cons_run]
    match (sentence g (reply g block) x).run.run σ with
    | (.ok st, τ) =>
      simp only [ih]
      rfl
    | (.error p, τ) => exact ih (τ.report p)

/-- The sentences of a block are read elsewhere as they are read here. -/
theorem inParallel_ofBlock {ρ : Relocation} {s : Slice} (strict : Bool) :
    InParallel ρ s (sentences g (reply g (block g)) (Sentence.ofBlock strict s))
      (sentences g (reply g (block g)) (relocate ρ (Sentence.ofBlock strict s))) := by
  apply inParallel_sentences (.refl s)
  · intro inner hinner
    exact inParallel_block hinner.1
  · intro x hx part hpart
    exact Sentence.isPartOf_of_mem_ofBlock hx hpart

/-- The sentences of tokens that stand at index `k` of a stream, of which nothing is remembered, come
to what the tokens come to as a block of their own. -/
theorem sentences_behind (o : Options) (observers : Nat) (ts : List Token) {k : Nat} {τ₀ : Session}
    (hoptions : τ₀.options = o) (hdepth : τ₀.depth = 0)
    (hmemo : ∀ q : Slice, k ≤ q.start → τ₀.memo.find? q = none) :
    ∃ es τ, (sentences g (reply g (block g))
        (relocate (.along k) (Sentence.ofBlock o.requireTerminators (.ofTokens ts)))).run τ₀ =
          ((freshBlock g o observers ts).1, τ) ∧
      (freshBlock g o observers ts).2.logs.toList =
        (Segment.divide o.requireTerminators (.ofTokens ts)).warnings ++ es ∧
      Session.Adds (freshBlock g o observers ts).2.errors.toList es (k + ts.length) τ₀ τ := by
  have hparallel : InParallel (.along k) (.ofTokens ts)
      (sentences g (reply g (block g)) (Sentence.ofBlock o.requireTerminators (.ofTokens ts)))
      (sentences g (reply g (block g))
        (relocate (.along k) (Sentence.ofBlock o.requireTerminators (.ofTokens ts)))) :=
    inParallel_ofBlock o.requireTerminators
  have hfresh : freshBlock g o observers ts =
      (sentences g (reply g (block g)) (Sentence.ofBlock o.requireTerminators (.ofTokens ts))).run
        ((Session.start o observers).opened
          (Segment.divide o.requireTerminators (.ofTokens ts))) :=
    block_run (.ofTokens ts) (.start o observers)
  -- The new session remembers nothing, and the other one nothing of these tokens.
  have hstart : Parallel (.along k) (.ofTokens ts)
      ((Session.start o observers).opened (Segment.divide o.requireTerminators (.ofTokens ts))) τ₀
      ((Session.start o observers).opened
        (Segment.divide o.requireTerminators (.ofTokens ts))) τ₀ := by
    apply Parallel.start_behind
    · rw [options_opened]
      exact hoptions
    · rw [depth_opened]
      exact hdepth
    · exact find?_opened o observers _
    · exact hmemo
  obtain ⟨hnodes, hend⟩ := hparallel _ _ _ _ hstart
  rw [← hfresh] at hnodes hend
  rw [Stmt.relocate_along_stmts] at hnodes
  generalize (sentences g (reply g (block g)) _).run τ₀ = last at hnodes hend
  obtain ⟨nodes, τ⟩ := last
  subst hnodes
  obtain ⟨es, hlogs, hlogs'⟩ := hend.logs_along
  obtain ⟨ps, herrors, herrors'⟩ := hend.errors_along
  rw [logs_opened] at hlogs
  rw [errors_opened] at herrors
  refine ⟨es, τ, rfl, hlogs, ?_, ?_, ?_, hlogs', ?_⟩
  · rw [hend.options.2, options_opened, hoptions]
    rfl
  · rw [hend.depth.2, depth_opened, hdepth]
    rfl
  · have hps : (freshBlock g o observers ts).2.errors.toList = ps := herrors
    rw [hps]
    exact herrors'
  · intro q hq
    apply hend.memo_behind
    show 0 + ts.length + k ≤ q.start
    omega

/-- A block further on in the stream is divided as it is at its beginning. -/
theorem divide_further (strict : Bool) (k : Nat) (ts : List Token) :
    Segment.divide strict ⟨k, ts⟩ =
      relocate (.along k) (Segment.divide strict (.ofTokens ts)) := by
  rw [← relocate_along_ofTokens, Segment.divide_relocate]

/-- So are its sentences. -/
theorem ofBlock_further (strict : Bool) (k : Nat) (ts : List Token) :
    Sentence.ofSegments [] (Segment.divide strict ⟨k, ts⟩).segments =
      relocate (.along k) (Sentence.ofBlock strict (.ofTokens ts)) := by
  rw [← Sentence.ofBlock_relocate, relocate_along_ofTokens]
  rfl

section append

variable {a b : List Token} (ha : Balanced a) (hlast : Segment.EndsInDot a)
include ha hlast

/-- Balanced tokens that end in `.` are read, from a session that remembers nothing, as a block of
their own, which logs no warning of an open end. -/
theorem sentences_in_front (o : Options) (observers : Nat) (d : Segment.Division) :
    ∃ τ, (sentences g (reply g (block g))
        (Sentence.ofBlock o.requireTerminators (.ofTokens a))).run
          ((Session.start o observers).opened d) = ((freshBlock g o observers a).1, τ) ∧
      Session.Adds (freshBlock g o observers a).2.errors.toList
        (freshBlock g o observers a).2.logs.toList a.length
        ((Session.start o observers).opened d) τ := by
  have hdepth : ((Session.start o observers).opened d).depth = 0 := depth_opened _ d
  obtain ⟨es, τ, hrun, hlogs, hadds⟩ := sentences_behind (g := g) (k := 0) o observers a
    (options_opened _ d) hdepth fun q _ => find?_opened o observers d q
  have hopen : (Segment.divide o.requireTerminators (.ofTokens a)).openEnd = none := by
    rw [Segment.divide_eq]
    exact Segment.openEnd_divideFrom ha hlast (fun _ => rfl) (Nat.zero_add _).symm
  rw [Segment.Division.warnings_of_openEnd_eq_none hopen] at hlogs
  rw [relocate_along_zero_sentences] at hrun
  rw [Nat.zero_add] at hadds
  refine ⟨τ, hrun, ?_⟩
  rw [show (freshBlock g o observers a).2.logs.toList = es from hlogs]
  exact hadds

/-- The sentences of two runs of statements, where the second one begins no clause. -/
theorem ofBlock_append (strict : Bool)
    (hb : ∀ t ∈ b.find? (·.keyword != .endOfStatement),
      t.keyword ≠ .otherwise ∧ t.keyword ≠ .otherwiseIf) :
    Sentence.ofBlock strict (.ofTokens (a ++ b)) =
      Sentence.ofBlock strict (.ofTokens a) ++
        relocate (.along a.length) (Sentence.ofBlock strict (.ofTokens b)) := by
  have hfresh : Sentence.StartsFresh (Segment.divide strict ⟨a.length, b⟩).segments := by
    rw [divide_further]
    exact (Sentence.startsFresh_divide strict hb).relocate (.along a.length)
  rw [Sentence.ofBlock, Segment.divide_append ha hlast, Segment.Division.append,
    Sentence.ofSegments_append hfresh, ofBlock_further strict a.length b]
  rfl

/-- The open end of two runs of statements is that of the second one. -/
theorem warnings_append (strict : Bool) :
    (Segment.divide strict (.ofTokens (a ++ b))).warnings =
      (Segment.divide strict (.ofTokens b)).warnings := by
  rw [Segment.divide_append ha hlast, divide_further strict a.length b]
  generalize Segment.divide strict (.ofTokens b) = d
  obtain ⟨segments, _ | place⟩ := d <;> rfl

/-- The sentences of a run of statements, a closer that closes nothing, and what is behind it. -/
theorem ofBlock_stray (strict : Bool) {c : Token} (hc : c.keyword.isCloser = true) (b : List Token) :
    Sentence.ofBlock strict (.ofTokens (a ++ c :: b)) =
      Sentence.ofBlock strict (.ofTokens a) ++
        .broken ⟨a.length, [c]⟩ (Segment.problem (.neverOpened c.text) [c]) ::
          relocate (.along (a.length + 1)) (Sentence.ofBlock strict (.ofTokens b)) := by
  rw [Sentence.ofBlock, Segment.divide_append ha hlast, Segment.divide_stray hc,
    Segment.Division.append, Segment.strayed,
    Sentence.ofSegments_append (Sentence.startsFresh_broken _ _ _), Sentence.ofSegments,
    ofBlock_further strict (a.length + 1) b]
  rfl

end append

/-- Statements behind statements. A run of balanced tokens that ends in `.` and a block that does not
begin with a clause are read as each of them is read alone: the statements and the problems of the
first one come first, and so do its log entries, but for the warning of the open end of the second
one. The whole block is divided before any statement is read, so this warning comes before all else.
-/
theorem freshBlock_append (g : Grammar) (o : Options) (observers : Nat) {a b : List Token}
    (ha : Balanced a) (hlast : Segment.EndsInDot a)
    (hb : ∀ t ∈ b.find? (·.keyword != .endOfStatement),
      t.keyword ≠ .otherwise ∧ t.keyword ≠ .otherwiseIf) :
    (freshBlock g o observers (a ++ b)).1 =
        (freshBlock g o observers a).1 ++ (freshBlock g o observers b).1 ∧
      (freshBlock g o observers (a ++ b)).2.errors.toList =
        (freshBlock g o observers a).2.errors.toList ++
          (freshBlock g o observers b).2.errors.toList ∧
      ∃ later,
        (freshBlock g o observers b).2.logs.toList =
          (Segment.divide o.requireTerminators (.ofTokens b)).warnings ++ later ∧
        (freshBlock g o observers (a ++ b)).2.logs.toList =
          (Segment.divide o.requireTerminators (.ofTokens b)).warnings ++
            ((freshBlock g o observers a).2.logs.toList ++ later) := by
  have hblock : freshBlock g o observers (a ++ b) =
      (sentences g (reply g (block g))
        (Sentence.ofBlock o.requireTerminators (.ofTokens (a ++ b)))).run
          ((Session.start o observers).opened
            (Segment.divide o.requireTerminators (.ofTokens (a ++ b)))) :=
    block_run (.ofTokens (a ++ b)) (.start o observers)
  -- The first run is read as alone; behind it nothing of the second one is remembered.
  obtain ⟨τ, hfirst, hadds⟩ := sentences_in_front (g := g) ha hlast o observers
    (Segment.divide o.requireTerminators (.ofTokens (a ++ b)))
  have hoptions : τ.options = o := hadds.options.trans (options_opened _ _)
  have hdepth : τ.depth = 0 := hadds.depth.trans (depth_opened _ _)
  have hmemo (q : Slice) (hq : a.length ≤ q.start) : τ.memo.find? q = none :=
    (hadds.memo q hq).trans (find?_opened o observers _ q)
  obtain ⟨later, υ, hsecond, hlogs, hadds'⟩ := sentences_behind (g := g) o observers b
    hoptions hdepth hmemo
  rw [ofBlock_append ha hlast _ hb, sentences_append_run, hfirst, hsecond] at hblock
  rw [hblock]
  refine ⟨rfl, ?_, later, hlogs, ?_⟩
  · rw [hadds'.errors, hadds.errors, errors_opened]
    rfl
  · rw [hadds'.logs, hadds.logs, logs_opened, warnings_append ha hlast]
    rw [List.append_assoc, List.append_assoc]
    rfl

def brace : Token :=
  .ofText .punctuation "\x7d" .unknown

def checkThenValue : List Token :=
  (Slice.ofSource "if $a then \x7b print ( 1 ) . \x7d $b ." "t").tokens

def strayThenOpen : List Token :=
  (Slice.ofSource ". ) print otherwise . $c" "t").tokens

theorem freshBlock_append_checkThenValue :
    Balanced checkThenValue ∧ Segment.EndsInDot checkThenValue ∧
      (∀ t ∈ strayThenOpen.find? (·.keyword != .endOfStatement),
        t.keyword ≠ .otherwise ∧ t.keyword ≠ .otherwiseIf) ∧
      (freshBlock .standard {} 0 (checkThenValue ++ strayThenOpen)).2.errors.toList =
        (freshBlock .standard {} 0 checkThenValue).2.errors.toList ++
          (freshBlock .standard {} 0 strayThenOpen).2.errors.toList := by
  have hbalanced : Balanced checkThenValue := by decide +kernel
  have hlast : Segment.EndsInDot checkThenValue := by
    unfold Segment.EndsInDot
    decide +kernel
  have hfirst : ∀ t ∈ strayThenOpen.find? (·.keyword != .endOfStatement),
      t.keyword ≠ .otherwise ∧ t.keyword ≠ .otherwiseIf := by
    decide +kernel
  have happend := freshBlock_append .standard {} 0 hbalanced hlast hfirst
  exact ⟨hbalanced, hlast, hfirst, happend.2.1⟩

def unusedValue : List Token :=
  (Slice.ofSource "$x ." "t").tokens

def openValue : List Token :=
  (Slice.ofSource "$y" "t").tokens

/-- The warning of an open end comes first, although the statement it is about comes last. -/
theorem logs_freshBlock_append_ne :
    Balanced unusedValue ∧ Segment.EndsInDot unusedValue ∧
      (∀ t ∈ openValue.find? (·.keyword != .endOfStatement),
        t.keyword ≠ .otherwise ∧ t.keyword ≠ .otherwiseIf) ∧
      (freshBlock .standard {} 0 (unusedValue ++ openValue)).2.logs.toList ≠
        (freshBlock .standard {} 0 unusedValue).2.logs.toList ++
          (freshBlock .standard {} 0 openValue).2.logs.toList := by
  unfold Segment.EndsInDot
  decide +kernel

/-- A closer that closes nothing costs one problem. What stands in front of it and what stands behind
it are read as each of them is read alone, however their brackets are broken. -/
theorem freshBlock_stray (g : Grammar) (o : Options) (observers : Nat) {a b : List Token} {c : Token}
    (ha : Balanced a) (hlast : Segment.EndsInDot a) (hc : c.keyword.isCloser = true) :
    (freshBlock g o observers (a ++ c :: b)).1 =
        (freshBlock g o observers a).1 ++ (freshBlock g o observers b).1 ∧
      ∃ p : Problem, p.code = .blockStructure ∧ p.tokens = [c] ∧
        (freshBlock g o observers (a ++ c :: b)).2.errors.toList =
          (freshBlock g o observers a).2.errors.toList ++
            p :: (freshBlock g o observers b).2.errors.toList := by
  let p := Segment.problem (.neverOpened c.text) [c]
  have hblock : freshBlock g o observers (a ++ c :: b) =
      (sentences g (reply g (block g))
        (Sentence.ofBlock o.requireTerminators (.ofTokens (a ++ c :: b)))).run
          ((Session.start o observers).opened
            (Segment.divide o.requireTerminators (.ofTokens (a ++ c :: b)))) :=
    block_run (.ofTokens (a ++ c :: b)) (.start o observers)
  obtain ⟨τ, hfirst, hadds⟩ := sentences_in_front (g := g) ha hlast o observers
    (Segment.divide o.requireTerminators (.ofTokens (a ++ c :: b)))
  -- The problem of the closer is all that is added before what stands behind it is read.
  have hoptions : (τ.report p).options = o := hadds.options.trans (options_opened _ _)
  have hdepth : (τ.report p).depth = 0 := hadds.depth.trans (depth_opened _ _)
  have hmemo (q : Slice) (hq : a.length + 1 ≤ q.start) : (τ.report p).memo.find? q = none :=
    (hadds.memo q (Nat.le_of_succ_le hq)).trans (find?_opened o observers _ q)
  obtain ⟨later, υ, hsecond, -, hadds'⟩ := sentences_behind (g := g) o observers b
    hoptions hdepth hmemo
  have hstray (xs : List Sentence) :
      (sentences g (reply g (block g)) (.broken ⟨a.length, [c]⟩ p :: xs)).run τ =
        (sentences g (reply g (block g)) xs).run (τ.report p) := by
    rw [sentences_cons_run]
    rfl
  rw [ofBlock_stray ha hlast _ hc, sentences_append_run, hfirst, hstray, hsecond] at hblock
  rw [hblock]
  refine ⟨rfl, p, rfl, rfl, ?_⟩
  have hreported : (τ.report p).errors.toList = τ.errors.toList ++ [p] := Array.toList_push
  rw [hadds'.errors, hreported, hadds.errors, errors_opened, List.append_assoc]
  rfl

theorem freshBlock_stray_checkThenValue :
    Balanced checkThenValue ∧ Segment.EndsInDot checkThenValue ∧
      brace.keyword.isCloser = true ∧
      (freshBlock .standard {} 0 (checkThenValue ++ brace :: strayThenOpen)).1 =
          (freshBlock .standard {} 0 checkThenValue).1 ++
            (freshBlock .standard {} 0 strayThenOpen).1 := by
  have hbalanced : Balanced checkThenValue := by decide +kernel
  have hlast : Segment.EndsInDot checkThenValue := by
    unfold Segment.EndsInDot
    decide +kernel
  have hcloser : brace.keyword.isCloser = true := by decide +kernel
  exact ⟨hbalanced, hlast, hcloser, (freshBlock_stray .standard {} 0 hbalanced hlast hcloser).1⟩

end Parse

end Prose
