import Prose.Proofs.Block.Composition
import Prose.Proofs.Expr.Sound
import Prose.Proofs.Session
import Prose.Proofs.Stmt.Values

namespace Prose

structure Session.IsFor (g : Grammar) (o : Options) (stream : Slice) (σ : Session) : Prop where
  recalls : σ.Recalls g stream
  options : σ.options = o

theorem Session.IsFor.later {g : Grammar} {o : Options} {stream : Slice} {σ τ : Session}
    (hσ : σ.IsFor g o stream) (h : σ.LeadsTo g stream τ) : τ.IsFor g o stream :=
  ⟨(h hσ.recalls).recalls, (h hσ.recalls).options.trans hσ.options⟩

def Sentence.IsTakenFor (g : Grammar) (o : Options) (stream : Slice) (x : Sentence) (st : Stmt) :
    Prop :=
  ∃ σ τ : Session, σ.IsFor g o stream ∧
    (Parse.sentence g (Parse.reply g (Parse.block g)) x).run.run σ = (.ok st, τ)

namespace Parse

open Inquiry Session

variable {g : Grammar} {o : Options} {stream s : Slice} {st : Stmt} {σ τ : Session}

theorem keepsBlocks_block (g : Grammar) (stream : Slice) : KeepsBlocks g stream (block g) :=
  fun inner hinner => keeps_blockWithin inner.length inner hinner

/-- What is read in the parts of a slice, and the blocks inside it, are answers that `A` allows. -/
structure Answers (A : (q : Stmt.Question) → q.Reply → Prop) (g : Grammar) (o : Options)
    (stream s : Slice) : Prop where
  reading : ∀ part : Slice, part.IsPartOf s → ∀ r, g.outcome part = .ok r → A (.reading part) r
  block : ∀ origin whole, ∀ inner : Slice, inner.IsStrictPartOf s → ∀ σ : Session,
    σ.IsFor g o stream → A (.block origin whole inner) ((block g inner).run σ).1
  unusedValue : ∀ e shown, A (.unusedValue e shown) ()

theorem Answers.of_isPartOf {A : (q : Stmt.Question) → q.Reply → Prop} {r : Slice}
    (h : Answers A g o stream s) (hr : r.IsPartOf s) : Answers A g o stream r where
  reading part hpart := h.reading part (hpart.trans hr)
  block origin whole inner hinner := h.block origin whole inner (hinner.trans_isPartOf hr)
  unusedValue := h.unusedValue

section answers

variable {A : (q : Stmt.Question) → q.Reply → Prop} (hA : Answers A g o stream s)
  (hs : s.IsPartOf stream) (hσ : σ.IsFor g o stream)
include hA hs hσ

theorem Answers.of_reply {q : Stmt.Question} (hq : q.IsWithin s) {r : q.Reply}
    (hrun : (reply g (Parse.block g) q).run.run σ = (.ok r, τ)) : A q r := by
  cases q with
  | reading part =>
    have houtcome := outcome_of_read (Slice.IsPartOf.trans hq hs) hσ.recalls
      (congrArg Prod.fst hrun)
    exact hA.reading part hq r houtcome
  | block origin whole inner =>
    -- One level deeper the session remembers the same.
    rw [reply, nested_run] at hrun
    split at hrun
    · cases hrun
    · cases hrun
      exact hA.block origin whole inner hq _ ⟨hσ.recalls, hσ.options⟩
  | unusedValue e shown => exact hA.unusedValue e shown

/-- What an inquiry yields with such answers is what its run ends in. -/
theorem Answers.of_run {α : Type} {E : α → Prop} {x : Stmt.Query α}
    (hasks : x.Asks (·.IsWithin s)) (hx : x.Yields A E) {a : α}
    (hrun : (x.run (reply g (Parse.block g))).run.run σ = (.ok a, τ)) : E a := by
  have hkeeps (q : Stmt.Question) (hq : q.IsWithin s) (σ : Session) :
      σ.LeadsTo g stream ((reply g (Parse.block g) q).run.run σ).2 :=
    keeps_reply (keepsBlocks_block g stream) hs hq σ
  have hreaches := (run_reaches LeadsTo.refl LeadsTo.trans (reply g (Parse.block g)) hkeeps hasks
    σ).2 a τ hrun
  refine hx a (hreaches.mono ?_)
  -- An answer on the way was given in some session that this one leads to.
  rintro q r ⟨hq, σ', τ', hσ', hreply, -⟩
  exact hA.of_reply hs (hσ.later hσ') hq hreply

variable {F : Stmt → Prop}

theorem Answers.of_firstStatement
    (hform : ∀ f : Stmt.Form, (f.read s).Yields A fun y => ∀ st ∈ y, F st)
    {rules : List Stmt.Rule} {rule : Stmt.Rule}
    (hrun : (firstStatement (reply g (Parse.block g)) s rules).run.run σ =
      (.ok (some (rule, st)), τ)) : F st := by
  induction rules generalizing σ with
  | nil => cases hrun
  | cons rule' rules ih =>
    have hkeeps := keeps_form (keepsBlocks_block g stream) hs rule'.form σ
    rw [firstStatement, run_bind] at hrun
    rcases hr : ((rule'.form.read s).run (reply g (Parse.block g))).run.run σ
      with ⟨_ | _ | st', υ⟩
    · rw [hr] at hrun
      cases hrun
    -- The form rejects the slice, so the next one is asked in the session that is left.
    · rw [hr] at hrun hkeeps
      exact ih (hσ.later hkeeps) hrun
    · rw [hr] at hrun
      cases hrun
      exact hA.of_run hs hσ (Stmt.asks_form s rule.form) (hform rule.form) hr st rfl

theorem Answers.of_statementWith
    (hform : 0 < s.length → ∀ f : Stmt.Form, (f.read s).Yields A fun y => ∀ st ∈ y, F st)
    {rule : Stmt.Rule}
    (hrun : (statementWith g (reply g (Parse.block g)) s).run.run σ =
      (.ok (some (rule, st)), τ)) : F st := by
  unfold statementWith at hrun
  split at hrun
  · cases hrun
  · rename_i hfilled
    have hpos : 0 < s.length := Nat.pos_of_ne_zero fun h => hfilled (s.isEmpty_iff.mpr h)
    rw [nested_run] at hrun
    split at hrun
    · cases hrun
    · generalize hfirst : (firstStatement (reply g (Parse.block g)) s g.statements).run.run
        { σ with depth := σ.depth + 1 } = first at hrun
      obtain ⟨r, υ⟩ := first
      cases hrun
      exact hA.of_firstStatement hs (σ := { σ with depth := σ.depth + 1 })
        ⟨hσ.recalls, hσ.options⟩ (hform hpos) hfirst

/-- A statement is what a form makes of a slice, or what becomes of a chain. -/
theorem Answers.of_sentence {x : Sentence} (hx : ∀ r ∈ x.slices, r.IsPartOf s)
    (hform : ∀ r, x = .plain r → 0 < r.length → ∀ f : Stmt.Form,
      (f.read r).Yields A fun y => ∀ st ∈ y, F st)
    (hchain : ∀ slices, x = .chain slices → (Stmt.readConditional slices).Yields A F)
    (hrun : (sentence g (reply g (Parse.block g)) x).run.run σ = (.ok st, τ)) : F st := by
  cases x with
  | chain slices =>
    have hasks := (Stmt.asks_readConditional slices).mono
      fun q ⟨r, hr, hq⟩ => hq.of_isPartOf (hx r hr)
    exact hA.of_run hs hσ hasks (hchain slices rfl) hrun
  | orphan r => cases hrun
  | plain r =>
    have hr : r.IsPartOf s := hx r (List.mem_singleton_self r)
    rw [sentence, run_bind] at hrun
    rcases hst : (statementWith g (reply g (Parse.block g)) r).run.run σ
      with ⟨_ | _ | ⟨rule, st'⟩, υ⟩
    · rw [hst] at hrun
      cases hrun
    · rw [hst] at hrun
      cases hrun
    · rw [hst] at hrun
      cases hrun
      exact (hA.of_isPartOf hr).of_statementWith (hr.trans hs) hσ (hform r rfl) hst
  | broken r p => cases hrun

end answers

/-- Every statement of some sentences is read from one of them. -/
theorem exists_isTakenFor_of_sentences {xs : List Sentence}
    (hxs : ∀ x ∈ xs, ∀ r ∈ x.slices, r.IsPartOf stream) (hσ : σ.IsFor g o stream) :
    ∀ st ∈ ((sentences g (reply g (block g)) xs).run σ).1, ∃ x ∈ xs, x.IsTakenFor g o stream st := by
  induction xs generalizing σ with
  | nil => exact List.forall_mem_nil _
  | cons x xs ih =>
    obtain ⟨hx, hxs⟩ := List.forall_mem_cons.mp hxs
    have hfirst := keeps_sentence (keepsBlocks_block g stream) hx σ
    change σ.LeadsTo g stream ((sentence g (reply g (block g)) x).run.run σ).2 at hfirst
    rw [sentences_cons_run]
    rcases hrun : (sentence g (reply g (block g)) x).run.run σ with ⟨p | st, τ⟩
    -- A sentence that fails leaves no statement behind.
    · rw [hrun] at hfirst
      intro st hst
      obtain ⟨y, hy, hread⟩ := ih hxs ((hσ.later hfirst).later (leadsTo_report τ p)) st hst
      exact ⟨y, List.mem_cons_of_mem x hy, hread⟩
    · rw [hrun] at hfirst
      refine List.forall_mem_cons.mpr ⟨⟨x, List.mem_cons_self .., σ, τ, hσ, hrun⟩, ?_⟩
      intro st' hst'
      obtain ⟨y, hy, hread⟩ := ih hxs (hσ.later hfirst) st' hst'
      exact ⟨y, List.mem_cons_of_mem x hy, hread⟩

/-- Every statement of a block is read from one of its units. -/
theorem exists_isTakenFor_of_block (hs : s.IsPartOf stream) (hσ : σ.IsFor g o stream) :
    ∀ st ∈ ((block g s).run σ).1,
      ∃ x ∈ Sentence.ofBlock o.requireTerminators s, x.IsTakenFor g o stream st := by
  have hopened : (σ.opened (Segment.divide σ.options.requireTerminators s)).IsFor g o stream := by
    refine ⟨fun r hr reading hfind => ?_, (options_opened ..).trans hσ.options⟩
    rw [memo_opened] at hfind
    exact hσ.recalls r hr reading hfind
  rw [block_run]
  rw [hσ.options] at hopened ⊢
  exact exists_isTakenFor_of_sentences
    (fun x hx r hr => (Sentence.isPartOf_of_mem_ofBlock hx hr).trans hs) hopened

end Parse

/-! One such property: what holds of all names and of the values of all tokens holds of the names and
values of the statements of a block, also where some of its sentences cannot be read. -/

open Inquiry Session

variable {P : Leaf → Prop} (hname : ∀ n, P (.name n))
  (hvalue : ∀ t v, Token.Spells t v → P (.value v))

section readings

variable {g : Grammar} {s : Slice} {r : Reading}

include hname hvalue in
/-- The names and values of an expression that is read are those of its tokens. -/
theorem Grammar.hasLeaves_of_outcome (h : g.outcome s = .ok r) : r.HasLeaves P := by
  have haccounts : Accounts fun _ ls => ∀ l ∈ ls, P l :=
    { nil := List.forall_mem_nil P
      append := fun h h' => List.forall_mem_append.mpr ⟨h, h'⟩
      word := fun _ => List.forall_mem_nil P
      name := fun {_ n} _ => List.forall_mem_singleton.mpr (hname n)
      value := fun {t v} h => List.forall_mem_singleton.mpr (hvalue t v h)
      paren := fun _ _ h => h }
  rintro ⟨rule, e⟩ hr
  obtain rfl : r = some (rule, e) := hr
  exact (g.derives_of_outcome h).account haccounts

end readings

namespace Parse

variable {g : Grammar} {o : Options} {stream s : Slice}

theorem forall_leavesAll {sts : List Stmt} (h : ∀ st ∈ sts, ∀ l ∈ st.leaves, P l) :
    ∀ l ∈ Stmt.leavesAll sts, P l := by
  induction sts with
  | nil => exact List.forall_mem_nil P
  | cons st sts ih =>
    obtain ⟨hst, hsts⟩ := List.forall_mem_cons.mp h
    exact List.forall_mem_append.mpr ⟨hst, ih hsts⟩

def BlocksWith (P : Leaf → Prop) (g : Grammar) (o : Options) (stream s : Slice) : Prop :=
  ∀ inner : Slice, inner.IsStrictPartOf s → ∀ σ : Session, σ.IsFor g o stream →
    ∀ l ∈ Stmt.leavesAll ((block g inner).run σ).1, P l

include hname hvalue

theorem BlocksWith.answers (h : BlocksWith P g o stream s) :
    Answers (Stmt.RepliesWith P) g o stream s where
  reading _ _ _ hr := Grammar.hasLeaves_of_outcome hname hvalue hr
  block _ _ inner hinner σ hσ := h inner hinner σ hσ
  unusedValue _ _ := trivial

/-- All names and values in a block are those of tokens, by induction on its length. -/
theorem leaves_of_part (hs : s.IsPartOf stream) {σ : Session} (hσ : σ.IsFor g o stream) :
    ∀ l ∈ Stmt.leavesAll ((block g s).run σ).1, P l := by
  induction hn : s.length using Nat.strong_induction_on generalizing s σ with
  | _ n ih =>
    have hblocks : BlocksWith P g o stream s := fun inner hinner σ hσ =>
      ih inner.length (hn ▸ hinner.2) (hinner.1.trans hs) hσ rfl
    refine forall_leavesAll fun st hst => ?_
    obtain ⟨x, hx, σ', τ, hσ', hrun⟩ := exists_isTakenFor_of_block hs hσ st hst
    exact (hblocks.answers hname hvalue).of_sentence hs hσ'
      (fun r hr => Sentence.isPartOf_of_mem_ofBlock hx hr)
      (fun r _ _ f => Stmt.readsWith_form hname hvalue r f)
      (fun slices _ => Stmt.yields_readConditional slices) hrun

/-- All names and values in a block are those of tokens. -/
theorem leaves_of_block {σ : Session} (hσ : σ.Recalls g s) :
    ∀ l ∈ Stmt.leavesAll ((Parse.block g s).run σ).1, P l :=
  leaves_of_part hname hvalue (.refl s) ⟨hσ, rfl⟩

end Parse

end Prose
