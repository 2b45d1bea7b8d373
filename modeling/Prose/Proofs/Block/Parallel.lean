import Prose.Proofs.Session
import Prose.Proofs.Session.Parallel

/-! Readings, statements and blocks in sessions side by side. A statement is read with blocks that are
shorter than it, so every bound on their length that leaves room for them gives the same reading. And
each is read elsewhere as it is read here: what comes of a slice depends on its tokens, the options and
the depth alone. -/
namespace Prose

namespace Parse

open Inquiry

variable {g : Grammar} {s : Slice} {block block' : Slice → StateM Session (List Stmt)}

section agreement

variable (hblock : ∀ inner : Slice, inner.IsStrictPartOf s → block inner = block' inner)
include hblock

theorem reply_congr {q : Stmt.Question} (hq : q.IsWithin s) :
    reply g block q = reply g block' q := by
  cases q with
  | reading part => rfl
  | block origin whole inner => rw [reply, reply, hblock inner hq]
  | unusedValue e shown => rfl

variable {part : Slice} (hpart : part.IsPartOf s)
include hpart

theorem firstStatement_congr (rules : List Stmt.Rule) :
    firstStatement (reply g block) part rules = firstStatement (reply g block') part rules := by
  induction rules with
  | nil => rfl
  | cons rule rules ih =>
    have hasks := (Stmt.asks_form part rule.form).mono fun q hq => hq.of_isPartOf hpart
    rw [firstStatement, firstStatement, ih, run_congr (fun q hq => reply_congr hblock hq) hasks]

theorem statementWith_congr :
    statementWith g (reply g block) part = statementWith g (reply g block') part := by
  rw [statementWith, statementWith, firstStatement_congr hblock hpart]

omit hpart

/-- Sentences of a slice are read alike where the blocks inside the slice are. -/
theorem sentence_congr {x : Sentence} (hx : ∀ part ∈ x.slices, part.IsPartOf s) :
    sentence g (reply g block) x = sentence g (reply g block') x := by
  cases x with
  | chain slices =>
    have hasks := (Stmt.asks_readConditional slices).mono fun q ⟨part, hmem, hq⟩ =>
      hq.of_isPartOf (hx part hmem)
    exact run_congr (fun q hq => reply_congr hblock hq) hasks
  | orphan part => rfl
  | plain part =>
    rw [sentence, sentence, statementWith_congr hblock (hx part (List.mem_singleton_self part))]
  | broken part p => rfl

theorem sentences_congr {xs : List Sentence} (hxs : ∀ x ∈ xs, ∀ part ∈ x.slices, part.IsPartOf s) :
    sentences g (reply g block) xs = sentences g (reply g block') xs := by
  induction xs with
  | nil => rfl
  | cons x xs ih =>
    have hrest := ih fun y hy => hxs y (List.mem_cons_of_mem x hy)
    rw [sentences, sentences, sentence_congr hblock (hxs x (List.mem_cons_self ..)), hrest]

end agreement

/-- A block without tokens has no statements, whatever the bound is. -/
theorem blockWithin_of_length_eq_zero (hs : s.length = 0) (n : Nat) :
    blockWithin g n s = pure [] := by
  obtain ⟨a, ts⟩ := s
  cases List.eq_nil_of_length_eq_zero hs
  cases n <;> rfl

/-- The bound may be anything from the length of the block on. -/
theorem blockWithin_eq {n m : Nat} (hn : s.length ≤ n) (hm : s.length ≤ m) :
    blockWithin g n s = blockWithin g m s := by
  induction n generalizing m s with
  | zero =>
    rw [blockWithin_of_length_eq_zero (Nat.le_zero.mp hn),
      blockWithin_of_length_eq_zero (Nat.le_zero.mp hn)]
  | succ n ih =>
    cases m with
    | zero =>
      rw [blockWithin_of_length_eq_zero (Nat.le_zero.mp hm),
        blockWithin_of_length_eq_zero (Nat.le_zero.mp hm)]
    | succ m =>
      have hinner (inner : Slice) (h : inner.IsStrictPartOf s) :
          blockWithin g n inner = blockWithin g m inner := by
        have hshorter : inner.length < s.length := h.2
        exact ih (by omega) (by omega)
      funext σ
      have hparts : ∀ x ∈ Sentence.ofSegments [] ((divide s).run σ).1, ∀ part ∈ x.slices,
          part.IsPartOf s := by
        intro x hx part hpart
        rw [run_divide] at hx
        exact Sentence.isPartOf_of_mem_ofBlock hx hpart
      have hsentences := sentences_congr (g := g) hinner hparts
      exact congrArg (fun rest => rest.run ((divide s).run σ).2) hsentences

theorem block_eq_blockWithin {n : Nat} (hn : s.length ≤ n) : Parse.block g s = blockWithin g n s :=
  blockWithin_eq (Nat.le_refl _) hn

/-- The blocks inside the parts of a slice may be read without a bound. -/
theorem sentences_block {xs : List Sentence} (hxs : ∀ x ∈ xs, ∀ part ∈ x.slices, part.IsPartOf s) :
    sentences g (reply g (blockWithin g (s.length - 1))) xs =
      sentences g (reply g (Parse.block g)) xs := by
  refine sentences_congr (s := s) ?_ hxs
  intro inner hinner
  have hshorter : inner.length < s.length := hinner.2
  exact (block_eq_blockWithin (by omega)).symm

end Parse

end Prose

namespace Prose.Parse

open Session

variable {ρ : Relocation} {stream s : Slice} {g : Grammar}

section readings

/-- A form asks about strict parts, so it stays in parallel if their readings do. -/
theorem inParallel_query {answer answer' : Slice → Parse Reading}
    (h : ∀ q : Slice, q.IsStrictPartOf s →
      InParallel ρ stream (answer q).run (answer' (relocate ρ q)).run) (f : Expr.Form) :
    InParallel ρ stream ((f.read s).run answer).run ((f.read (relocate ρ s)).run answer').run := by
  intro σ₀ τ₀ σ τ hστ
  refine (Expr.mirrors_form ρ s f).run (P := fun q : Slice => q.IsStrictPartOf s) ?_
    (Expr.asks_form f s) hστ
  intro q hq σ τ hστ
  exact h q hq σ₀ τ₀ σ τ hστ

theorem inParallel_firstReading {answer answer' : Slice → Parse Reading}
    (h : ∀ q : Slice, q.IsStrictPartOf s →
      InParallel ρ stream (answer q).run (answer' (relocate ρ q)).run) (rules : List Expr.Rule) :
    InParallel ρ stream (firstReading answer s rules).run
      (firstReading answer' (relocate ρ s) rules).run := by
  induction rules with
  | nil => exact .pure rfl
  | cons rule rules ih =>
    apply InParallel.bind_run (inParallel_query h rule.form)
    intro r
    cases r with
    | none => exact ih
    | some e =>
      apply InParallel.bind_run
      · apply InParallel.modify_run
        intro σ₀ τ₀ σ τ hστ
        exact hστ.record _ _
      · intro _
        exact .pure rfl

/-- A slice and the relocated slice are read as the same, up to places. -/
theorem inParallel_readWithin {n : Nat} (hs : s.IsPartOf stream) :
    InParallel ρ stream (readWithin g n s).run (readWithin g n (relocate ρ s)).run := by
  induction n generalizing s with
  | zero => exact .pure rfl
  | succ n ih =>
    simp only [readWithin, Slice.isEmpty_relocate]
    split
    · exact .pure rfl
    rename_i he
    have hpos := s.length_pos_of_not_isEmpty he
    apply InParallel.get_bind_run
    intro σ₀ τ₀ σ τ hστ
    rw [hστ.memo s hs hpos]
    cases σ.memo.find? s with
    | some r => exact .pure rfl
    | none =>
      have hfirst := inParallel_firstReading
        (fun q hq => ih (hq.1.trans hs)) g.expressions
      apply InParallel.bind_run (hfirst.nested "parse_expression" s.tokens)
      intro r
      apply InParallel.bind_run
      · apply InParallel.modify_run
        intro σ₀ τ₀ σ τ hστ
        exact hστ.remember hs hpos r
      · intro _
        exact .pure rfl

theorem inParallel_read (hs : s.IsPartOf stream) :
    InParallel ρ stream (read g s).run (read g (relocate ρ s)).run := by
  unfold read
  rw [Slice.length_relocate]
  exact inParallel_readWithin hs

end readings

section blocks

variable {block block' : Slice → StateM Session (List Stmt)}

def BlocksInParallel (ρ : Relocation) (stream s : Slice)
    (block block' : Slice → StateM Session (List Stmt)) : Prop :=
  ∀ inner : Slice, inner.IsStrictPartOf s →
    InParallel ρ stream (block inner) (block' (relocate ρ inner))

theorem inParallel_warn {m m' : String}
    (h : LogEntry.Relocated ρ ⟨.warning, m⟩ ⟨.warning, m'⟩) :
    InParallel ρ stream (warn m) (warn m') := by
  apply InParallel.modify
  intro σ₀ τ₀ σ τ hστ
  exact hστ.log .warning h

theorem InParallel.lift {α : Type} [Relocates α] {x x' : StateM Session α}
    (h : InParallel ρ stream x x') : InParallel ρ stream (x : Parse α).run (x' : Parse α).run := by
  intro σ₀ τ₀ σ τ hστ
  obtain ⟨hresult, hστ⟩ := h σ₀ τ₀ σ τ hστ
  exact ⟨congrArg Except.ok hresult, hστ⟩

theorem inParallel_unusedValue (e : Expr) (shown : List Token) :
    InParallel ρ stream (reply g block (.unusedValue e shown)).run
      (reply g block' (.unusedValue (relocate ρ e) (relocate ρ shown))).run := by
  apply InParallel.get_bind_run
  intro σ₀ τ₀ σ τ hστ
  have hoptions : τ.options = σ.options := by
    rw [hστ.options.1, hστ.options.2]
  rw [hoptions]
  split
  · apply InParallel.lift
    apply inParallel_warn
    rw [Expr.position_relocate_expr, Token.render_relocate]
    simp only [String.append_assoc]
    exact .located _ _ _
  · exact .pure rfl

section reply

variable (hs : s.IsPartOf stream) (hblock : BlocksInParallel ρ stream s block block')
include hs hblock

theorem parallel_reply {q : Stmt.Question} (hq : q.IsWithin s) {σ₀ τ₀ σ τ : Session}
    (hστ : Parallel ρ stream σ₀ τ₀ σ τ) :
    ((reply g block' (relocate ρ q)).run.run τ).1 =
        ρ.result (q.relocatedReply ρ) ((reply g block q).run.run σ).1 ∧
      Parallel ρ stream σ₀ τ₀ ((reply g block q).run.run σ).2
        ((reply g block' (relocate ρ q)).run.run τ).2 := by
  cases q with
  | reading part => exact inParallel_read (Slice.IsPartOf.trans hq hs) σ₀ τ₀ σ τ hστ
  | block origin whole inner =>
    exact (hblock inner hq).lift.nested origin whole σ₀ τ₀ σ τ hστ
  | unusedValue e shown => exact inParallel_unusedValue e shown σ₀ τ₀ σ τ hστ

/-- An inquiry about parts of the slice. -/
theorem inParallel_inquiry {α : Type} [Relocates α] {x x' : Stmt.Query α}
    (hmirrors : Stmt.Mirrors ρ x x') (hasks : x.Asks (·.IsWithin s)) :
    InParallel ρ stream (x.run (reply g block)).run (x'.run (reply g block')).run := by
  intro σ₀ τ₀ σ τ hστ
  refine hmirrors.run (P := (·.IsWithin s)) ?_ hasks hστ
  intro q hq σ τ hστ
  exact parallel_reply hs hblock hq hστ

variable {part : Slice} (hpart : part.IsPartOf s)
include hpart

theorem inParallel_firstStatement (rules : List Stmt.Rule) :
    InParallel ρ stream (firstStatement (reply g block) part rules).run
      (firstStatement (reply g block') (relocate ρ part) rules).run := by
  induction rules with
  | nil => exact .pure rfl
  | cons rule rules ih =>
    have hasks := (Stmt.asks_form part rule.form).mono fun q hq => hq.of_isPartOf hpart
    apply InParallel.bind_run
      (inParallel_inquiry hs hblock (Stmt.mirrors_form ρ part rule.form) hasks)
    intro r
    cases r with
    | none => exact ih
    | some st =>
      apply InParallel.bind_run
      · apply InParallel.modify_run
        intro σ₀ τ₀ σ τ hστ
        exact hστ.record _ _
      · intro _
        exact .pure rfl

theorem inParallel_statementWith :
    InParallel ρ stream (statementWith g (reply g block) part).run
      (statementWith g (reply g block') (relocate ρ part)).run := by
  simp only [statementWith, Slice.isEmpty_relocate]
  split
  · exact .pure rfl
  · exact (inParallel_firstStatement hs hblock hpart _).nested _ _

end reply

variable (hs : s.IsPartOf stream) (hblock : BlocksInParallel ρ stream s block block')
include hs hblock

theorem inParallel_sentence {x : Sentence} (hx : ∀ part ∈ x.slices, part.IsPartOf s) :
    InParallel ρ stream (sentence g (reply g block) x).run
      (sentence g (reply g block') (relocate ρ x)).run := by
  cases x with
  | chain slices =>
    have hasks := (Stmt.asks_readConditional slices).mono fun q ⟨part, hmem, hq⟩ =>
      hq.of_isPartOf (hx part hmem)
    exact inParallel_inquiry hs hblock (Stmt.mirrors_readConditional ρ slices) hasks
  | orphan part =>
    have hlead : (relocate ρ part.head?).map (·.text) = part.head?.map (·.text) := by
      cases part.head? <;> rfl
    simp only [Sentence.relocate_orphan, sentence, Slice.head?_relocate, hlead]
    exact .pure rfl
  | plain part =>
    have hpart : part.IsPartOf s := hx part (List.mem_singleton_self part)
    apply InParallel.bind_run (inParallel_statementWith hs hblock hpart)
    intro r
    cases r with
    | none => exact .pure rfl
    | some r => exact .pure rfl
  | broken part p => exact .pure rfl

/-- A problem costs its sentence in both sessions. -/
theorem inParallel_sentences {xs : List Sentence}
    (hxs : ∀ x ∈ xs, ∀ part ∈ x.slices, part.IsPartOf s) :
    InParallel ρ stream (sentences g (reply g block) xs)
      (sentences g (reply g block') (relocate ρ xs)) := by
  induction xs with
  | nil => exact .pure rfl
  | cons x xs ih =>
    have hrest := ih fun y hy => hxs y (List.mem_cons_of_mem x hy)
    apply InParallel.bind (inParallel_sentence hs hblock (hxs x (List.mem_cons_self ..)))
    intro r
    cases r with
    | ok st =>
      apply InParallel.bind hrest
      intro sts
      exact .pure rfl
    | error p =>
      apply InParallel.bind
      · apply InParallel.modify
        intro σ₀ τ₀ σ τ hστ
        exact hστ.report p
      · intro _
        exact hrest

end blocks

section division

theorem inParallel_divide (s : Slice) :
    InParallel ρ stream (divide s) (divide (relocate ρ s)) := by
  apply InParallel.get_bind
  intro σ₀ τ₀ σ τ hστ
  have hoptions : τ.options = σ.options := by
    rw [hστ.options.1, hστ.options.2]
  have hsegments (d : Segment.Division) : (relocate ρ d).segments = relocate ρ d.segments := rfl
  have hopen (d : Segment.Division) : (relocate ρ d).openEnd = d.openEnd.map ρ.place := rfl
  simp only [hoptions, Segment.divide_relocate, hsegments, hopen]
  cases (Segment.divide σ.options.requireTerminators s).openEnd with
  | none => exact .pure rfl
  | some place =>
    -- The warning of an open end names the place where the last statement begins.
    apply InParallel.bind (inParallel_warn (.located _ place _))
    intro _
    exact .pure rfl

/-- The blocks inside are shorter, so any bound on their length that holds is as good as another. -/
theorem inParallel_blockWithin {n n' : Nat} (hn : s.length ≤ n) (hn' : s.length ≤ n')
    (hs : s.IsPartOf stream) :
    InParallel ρ stream (blockWithin g n s) (blockWithin g n' (relocate ρ s)) := by
  induction n generalizing n' s with
  | zero =>
    intro σ₀ τ₀ σ τ hστ
    have hempty : s.length = 0 := Nat.le_zero.mp hn
    rw [blockWithin_of_length_eq_zero hempty,
      blockWithin_of_length_eq_zero ((Slice.length_relocate ρ s).trans hempty)]
    exact ⟨rfl, hστ⟩
  | succ n ih =>
    cases n' with
    | zero =>
      intro σ₀ τ₀ σ τ hστ
      have hempty : s.length = 0 := Nat.le_zero.mp hn'
      rw [blockWithin_of_length_eq_zero hempty,
        blockWithin_of_length_eq_zero ((Slice.length_relocate ρ s).trans hempty)]
      exact ⟨rfl, hστ⟩
    | succ n' =>
      -- A block inside is shorter, so its bounds hold in one step less.
      have hblocks : BlocksInParallel ρ stream s (blockWithin g n) (blockWithin g n') := by
        intro inner hinner
        have hshorter : inner.length < s.length := hinner.2
        exact ih (by omega) (by omega) (hinner.1.trans hs)
      intro σ₀ τ₀ σ τ hστ
      obtain ⟨hsegments, hdivided⟩ := inParallel_divide s σ₀ τ₀ σ τ hστ
      have hparts : ∀ x ∈ Sentence.ofSegments [] ((divide s).run σ).1, ∀ part ∈ x.slices,
          part.IsPartOf s := by
        intro x hx part hpart
        rw [run_divide] at hx
        exact Sentence.isPartOf_of_mem_ofBlock hx hpart
      -- Both blocks are divided alike, so their sentences are read alike.
      have hsentences : Sentence.ofSegments [] ((divide (relocate ρ s)).run τ).1 =
          relocate ρ (Sentence.ofSegments [] ((divide s).run σ).1) := by
        rw [hsegments, ← Sentence.ofSegments_relocate]
        rfl
      have hrest := inParallel_sentences (g := g) hs hblocks hparts σ₀ τ₀ _ _ hdivided
      rw [← hsentences] at hrest
      exact hrest

/-- A block is read elsewhere as it is read here. -/
theorem inParallel_block (hs : s.IsPartOf stream) :
    InParallel ρ stream (block g s) (block g (relocate ρ s)) :=
  inParallel_blockWithin (Nat.le_refl _) (Nat.le_of_eq (Slice.length_relocate ρ s).symm) hs

end division

end Prose.Parse
