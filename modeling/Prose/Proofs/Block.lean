import Prose.Proofs.Session
import Prose.Proofs.Stmt.Sound

namespace Prose

open Inquiry

namespace Stmt

variable {body : List Stmt} {ts us : List Token}

theorem DerivesBlock.dots (hts : ∀ d ∈ ts, d.keyword = .endOfStatement) (h : DerivesBlock body us) :
    DerivesBlock body (ts ++ us) := by
  induction ts with
  | nil => exact h
  | cons d ts ih =>
    obtain ⟨hd, hts⟩ := List.forall_mem_cons.mp hts
    exact .dot hd (ih hts)

theorem DerivesBlock.append {body rest : List Stmt} {ts us : List Token} :
    DerivesBlock body ts → DerivesBlock rest us → DerivesBlock (body ++ rest) (ts ++ us)
  | .nil, h' => h'
  | .dot hd h, h' => .dot hd (h.append h')
  | .cons hst h, h' => by
    rw [List.cons_append, List.append_assoc]
    exact .cons hst (h.append h')
termination_by structural h => h

/-- A statement behind nothing but `.` -/
theorem DerivesBlock.singleton {st : Stmt} (hts : ∀ d ∈ ts, d.keyword = .endOfStatement)
    (h : st.Derives us) : DerivesBlock [st] (ts ++ us) := by
  have hblock := DerivesBlock.cons h .nil
  rw [List.append_nil] at hblock
  exact hblock.dots hts

end Stmt

namespace Session

/-- No problem is reported between two states, the first of which remembers readings that are
right. -/
structure Cleanly (g : Grammar) (stream : Slice) (σ τ : Session) : Prop where
  recalls : σ.Recalls g stream
  errors : τ.errors.size ≤ σ.errors.size

variable {g : Grammar} {stream : Slice} {σ τ υ : Session}

theorem Cleanly.first (h : σ.Cleanly g stream υ) (hσ : σ.LeadsTo g stream τ)
    (hτ : τ.LeadsTo g stream υ) : σ.Cleanly g stream τ :=
  ⟨h.recalls, Nat.le_trans (hτ (hσ h.recalls).recalls).errors h.errors⟩

theorem Cleanly.rest (h : σ.Cleanly g stream υ) (hσ : σ.LeadsTo g stream τ) :
    τ.Cleanly g stream υ :=
  ⟨(hσ h.recalls).recalls, Nat.le_trans h.errors (hσ h.recalls).errors⟩

end Session

namespace Parse

open Session

variable {g : Grammar} {stream s : Slice} {block : Slice → StateM Session (List Stmt)}

def SoundBlocks (g : Grammar) (stream s : Slice) (block : Slice → StateM Session (List Stmt)) :
    Prop :=
  ∀ inner : Slice, inner.IsStrictPartOf s → ∀ σ : Session,
    σ.Cleanly g stream ((block inner).run σ).2 →
      Stmt.DerivesBlock ((block inner).run σ).1 inner.tokens

section reply

variable (hs : s.IsPartOf stream) (hblock : KeepsBlocks g stream block)
  (hsound : SoundBlocks g stream s block)
include hs hsound

theorem sound_reply {q : Stmt.Question} (hq : q.IsWithin s) {r : q.Reply} {σ τ : Session}
    (hrun : (reply g block q).run.run σ = (.ok r, τ)) (hclean : σ.Cleanly g stream τ) :
    Stmt.Sound q r := by
  cases q with
  | reading part =>
    have houtcome : g.outcome part = .ok r :=
      outcome_of_read (Slice.IsPartOf.trans hq hs) hclean.recalls (congrArg Prod.fst hrun)
    rintro rule e rfl
    exact g.derives_of_outcome houtcome
  | block origin whole inner =>
    rw [reply, nested_run] at hrun
    split at hrun
    · cases hrun
    · cases hrun
      exact hsound inner hq _ ⟨hclean.recalls, hclean.errors⟩
  | unusedValue e shown => trivial

include hblock

/-- An inquiry that is run cleanly reaches what it ends in by derived answers. -/
theorem reaches_of_run {α : Type} {slices : List Slice} (hslices : ∀ r ∈ slices, r.IsPartOf s)
    {x : Stmt.Query α} (hx : x.Asks fun q => ∃ r ∈ slices, q.IsWithin r) {a : α} {σ τ : Session}
    (hrun : (x.run (reply g block)).run.run σ = (.ok a, τ)) (hclean : σ.Cleanly g stream τ) :
    Reaches Stmt.Sound x a := by
  have hwithin : x.Asks (·.IsWithin s) :=
    hx.mono fun q ⟨r, hr, hq⟩ => hq.of_isPartOf (hslices r hr)
  have hkeeps (q : Stmt.Question) (hq : q.IsWithin s) (σ : Session) :
      σ.LeadsTo g stream ((reply g block q).run.run σ).2 := keeps_reply hblock hs hq σ
  refine ((run_reaches LeadsTo.refl LeadsTo.trans (reply g block) hkeeps hwithin σ).2 a τ hrun).mono
    ?_
  rintro q r ⟨hq, σ', τ', hσ', hreply, hτ'⟩
  have hstep := hkeeps q hq σ'
  rw [hreply] at hstep
  exact sound_reply hs hsound hq hreply ((hclean.rest hσ').first hstep hτ')

theorem derives_of_firstStatement {rules : List Stmt.Rule} {rule : Stmt.Rule} {st : Stmt}
    {σ τ : Session}
    (hrun : (firstStatement (reply g block) s rules).run.run σ = (.ok (some (rule, st)), τ))
    (hclean : σ.Cleanly g stream τ) : st.Derives s.tokens := by
  induction rules generalizing σ with
  | nil => cases hrun
  | cons rule' rules ih =>
    have hform := keeps_form hblock hs rule'.form σ
    rw [firstStatement, run_bind] at hrun
    match hr : ((rule'.form.read s).run (reply g block)).run.run σ with
    | (.error p, υ) =>
      rw [hr] at hrun
      cases hrun
    | (.ok none, υ) =>
      rw [hr] at hrun hform
      exact ih hrun (hclean.rest hform)
    | (.ok (some st'), υ) =>
      rw [hr] at hrun hform
      cases hrun
      have hslices : ∀ r ∈ [s], r.IsPartOf s := fun r hr => List.mem_singleton.mp hr ▸ .refl s
      have hasks := (Stmt.asks_form s rule.form).mono fun q hq =>
        (⟨s, List.mem_singleton_self s, hq⟩ : ∃ r ∈ [s], q.IsWithin r)
      refine Stmt.derives_of_form rule.form ?_
      exact reaches_of_run hs hblock hsound hslices hasks hr ⟨hclean.recalls, hclean.errors⟩

theorem derives_of_statementWith {rule : Stmt.Rule} {st : Stmt} {σ τ : Session}
    (hrun : (statementWith g (reply g block) s).run.run σ = (.ok (some (rule, st)), τ))
    (hclean : σ.Cleanly g stream τ) : st.Derives s.tokens := by
  unfold statementWith at hrun
  split at hrun
  · cases hrun
  · rw [nested_run] at hrun
    split at hrun
    · cases hrun
    · generalize hfirst : (firstStatement (reply g block) s g.statements).run.run
        { σ with depth := σ.depth + 1 } = first at hrun
      obtain ⟨r, υ⟩ := first
      cases hrun
      exact derives_of_firstStatement hs hblock hsound hfirst ⟨hclean.recalls, hclean.errors⟩

end reply

section sentences

variable (hblock : KeepsBlocks g stream block)
include hblock

/-- A sentence that is read cleanly is one statement and perhaps `.` around it. -/
theorem derivesBlock_of_sentence {x : Sentence} (hs : s.IsPartOf stream)
    (hsound : SoundBlocks g stream s block) (hx : ∀ r ∈ x.slices, r.IsPartOf s) {ts : List Token}
    {i : Nat} (htiled : TiledFrom i x.slices ts) {st : Stmt} {σ τ : Session}
    (hrun : (sentence g (reply g block) x).run.run σ = (.ok st, τ))
    (hclean : σ.Cleanly g stream τ) : Stmt.DerivesBlock [st] ts := by
  cases x with
  | chain slices =>
    have hreaches :=
      reaches_of_run hs hblock hsound hx (Stmt.asks_readConditional slices) hrun hclean
    obtain ⟨ds, us, rfl, hds, hus⟩ := Stmt.exists_of_readConditional htiled hreaches
    exact .singleton hds hus
  | orphan r => cases hrun
  | plain r =>
    have hr : r.IsPartOf s := hx r (List.mem_singleton_self r)
    obtain ⟨ds, us, rfl, hds, -, hus⟩ := htiled.exists_cons
    have hinner : SoundBlocks g stream r block := fun inner hinner =>
      hsound inner (hinner.trans_isPartOf hr)
    rw [sentence, run_bind] at hrun
    match hst : (statementWith g (reply g block) r).run.run σ with
    | (.error p, υ) =>
      rw [hst] at hrun
      cases hrun
    | (.ok none, υ) =>
      rw [hst] at hrun
      cases hrun
    | (.ok (some (rule, st')), υ) =>
      rw [hst] at hrun
      cases hrun
      have hderives := derives_of_statementWith (hr.trans hs) hblock hinner hst hclean
      -- What stands in front of the slice and behind it is nothing but `.`
      have htail := Stmt.DerivesBlock.dots hus.keyword_of_nil .nil
      rw [List.append_nil] at htail
      exact .dots hds (.cons hderives htail)
  | broken r p => cases hrun

/-- Where no problem is reported every sentence is read. -/
theorem derivesBlock_of_sentences (hs : s.IsPartOf stream) (hsound : SoundBlocks g stream s block)
    {xs : List Sentence} (hxs : ∀ x ∈ xs, ∀ r ∈ x.slices, r.IsPartOf s) {ts : List Token}
    {i : Nat} (htiled : TiledFrom i (xs.flatMap Sentence.slices) ts) {σ : Session}
    (hclean : σ.Cleanly g stream ((sentences g (reply g block) xs).run σ).2) :
    Stmt.DerivesBlock ((sentences g (reply g block) xs).run σ).1 ts := by
  induction xs generalizing i ts σ with
  | nil =>
    have hdots := Stmt.DerivesBlock.dots htiled.keyword_of_nil .nil
    rwa [List.append_nil] at hdots
  | cons x xs ih =>
    rw [List.flatMap_cons] at htiled
    obtain ⟨us, vs, rfl, hus, hvs⟩ := htiled.exists_append
    obtain ⟨hx, hxs⟩ := List.forall_mem_cons.mp hxs
    -- No problem is reported on the whole way, so none on the part of the first sentence.
    have hfirst := keeps_sentence hblock (fun r hr => (hx r hr).trans hs) σ
    have hrest := keeps_sentences hblock fun y hy r hr => (hxs y hy r hr).trans hs
    rw [sentences_cons_run] at hclean ⊢
    change σ.LeadsTo g stream ((sentence g (reply g block) x).run.run σ).2 at hfirst
    match hrun : (sentence g (reply g block) x).run.run σ with
    | (.ok st, τ) =>
      rw [hrun] at hclean hfirst
      have hsentence := derivesBlock_of_sentence hblock hs hsound hx hus hrun
        (hclean.first hfirst (hrest τ))
      exact hsentence.append (ih hxs hvs (hclean.rest hfirst))
    | (.error p, τ) =>
      rw [hrun] at hclean hfirst
      -- A sentence that fails reports a problem, and the sentences behind it take none back.
      have hτ := hfirst hclean.recalls
      have hlater := (hrest (τ.report p) (leadsTo_report τ p hτ.recalls).recalls).errors
      have hreported := size_errors_report τ p
      have hbefore := hτ.errors
      have hafter := hclean.errors
      simp only at hbefore hafter
      omega

end sentences

/-- A block that is read cleanly is what the grammar derives. -/
theorem derivesBlock_of_blockWithin {n : Nat} {s : Slice} (hn : s.length ≤ n)
    (hs : s.IsPartOf stream) {σ : Session}
    (hclean : σ.Cleanly g stream ((blockWithin g n s).run σ).2) :
    Stmt.DerivesBlock ((blockWithin g n s).run σ).1 s.tokens := by
  induction n generalizing s σ with
  | zero =>
    rw [List.length_eq_zero_iff.mp (Nat.le_zero.mp hn)]
    exact .nil
  | succ n ih =>
    -- The blocks inside are shorter, so the bound for the next level is enough for them.
    have hblocks : SoundBlocks g stream s (blockWithin g n) := fun inner hinner σ hσ =>
      ih (Nat.le_of_lt_succ (Nat.lt_of_lt_of_le hinner.2 hn)) (hinner.1.trans hs) hσ
    have hrun : (blockWithin g (n + 1) s).run σ =
        (sentences g (reply g (blockWithin g n))
          (Sentence.ofBlock σ.options.requireTerminators s)).run ((divide s).run σ).2 := by
      rw [← run_divide]
      rfl
    rw [hrun] at hclean ⊢
    exact derivesBlock_of_sentences (keeps_blockWithin n) hs hblocks
      (fun x hx r hr => Sentence.isPartOf_of_mem_ofBlock hx hr) (Sentence.tiled_ofBlock _ s)
      (hclean.rest (keeps_divide s σ))

end Parse

end Prose
