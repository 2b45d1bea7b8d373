import Prose.Proofs.Session.Calls

/-! What a session remembers supports itself: a reading is remembered only behind the readings of all
parts that it was made from, so that it can be made again from what is remembered. A reading whose parts
are remembered is then never too deep because of them. -/
namespace Prose

open Inquiry

/-- The first rule that does not reject the slice, and what it accepts, when `A` allows the answers to
its questions and to those of the rules before it. -/
inductive FirstReaches (A : Slice → Reading → Prop) (s : Slice) : List Expr.Rule → Reading → Prop
  | none : FirstReaches A s [] none
  | accept {rule : Expr.Rule} {rules : List Expr.Rule} {e : Expr}
      (h : Reaches A (rule.form.read s) (some e)) : FirstReaches A s (rule :: rules) (some (rule, e))
  | reject {rule : Expr.Rule} {rules : List Expr.Rule} {r : Reading}
      (h : Reaches A (rule.form.read s) Option.none) (hrest : FirstReaches A s rules r) :
      FirstReaches A s (rule :: rules) r

theorem FirstReaches.mono {A B : Slice → Reading → Prop} (h : ∀ q r, A q r → B q r) {s : Slice}
    {rules : List Expr.Rule} {r : Reading} (hr : FirstReaches A s rules r) :
    FirstReaches B s rules r := by
  induction hr with
  | none => exact .none
  | accept hform => exact .accept (hform.mono h)
  | reject hform _ ih => exact .reject (hform.mono h) ih

/-- By right answers the rules come to the first verdict that is not a rejection. -/
theorem FirstReaches.firstVerdict_eq {g : Grammar} {A : Slice → Reading → Prop} {s : Slice}
    (h : ∀ q r, A q r → g.outcome q = .ok r) {rules : List Expr.Rule} {r : Reading}
    (hr : FirstReaches A s rules r) : firstVerdict (g.verdict · s) rules = .ok r := by
  induction hr with
  | none => rfl
  | accept hform =>
    rw [firstVerdict_cons, Grammar.verdict, resolve_of_reaches h hform]
    rfl
  | reject hform _ ih =>
    rw [firstVerdict_cons, Grammar.verdict, resolve_of_reaches h hform]
    exact ih

/-- Right answers to all questions of the grammar give the outcome of the cascade. -/
theorem FirstReaches.outcome_eq {g : Grammar} {A : Slice → Reading → Prop} {s : Slice} {r : Reading}
    (hs : 0 < s.length) (h : ∀ q r, A q r → g.outcome q = .ok r)
    (hr : FirstReaches A s g.expressions r) : g.outcome s = .ok r := by
  rw [g.outcome_eq_firstVerdict hs]
  exact hr.firstVerdict_eq h

namespace Session

variable {g : Grammar} {stream s : Slice} {σ τ υ : Session} {r : Reading}

/-- The session has the reading of the part at hand; for no tokens there is nothing to remember. -/
def Knows (stream : Slice) (σ : Session) (q : Slice) (r : Reading) : Prop :=
  q.IsPartOf stream ∧ if q.isEmpty then r = none else σ.memo.find? q = some r

/-- Every reading that the session remembers can be made from others that it remembers. -/
def Complete (g : Grammar) (stream : Slice) (σ : Session) : Prop :=
  ∀ s : Slice, s.IsPartOf stream → ∀ r, σ.memo.find? s = some r →
    FirstReaches (σ.Knows stream) s g.expressions r

/-- What is remembered of the stream in the first session is remembered in the second one. -/
def IsWithin (stream : Slice) (σ τ : Session) : Prop :=
  ∀ q : Slice, q.IsPartOf stream → ∀ r, σ.memo.find? q = some r → τ.memo.find? q = some r

structure Secure (g : Grammar) (stream : Slice) (σ : Session) : Prop where
  recalls : σ.Recalls g stream
  complete : σ.Complete g stream

/-- Readings that are right and support each other are kept, and more may come. -/
def Secures (g : Grammar) (stream : Slice) (σ τ : Session) : Prop :=
  σ.Secure g stream → τ.Secure g stream ∧ σ.IsWithin stream τ

theorem IsWithin.refl (σ : Session) : σ.IsWithin stream σ :=
  fun _ _ _ h => h

theorem IsWithin.trans (h : σ.IsWithin stream τ) (h' : τ.IsWithin stream υ) :
    σ.IsWithin stream υ :=
  fun q hq r hr => h' q hq r (h q hq r hr)

theorem Knows.of_isWithin {q : Slice} (h : σ.IsWithin stream τ) (hq : σ.Knows stream q r) :
    τ.Knows stream q r := by
  obtain ⟨hpart, hr⟩ := hq
  refine ⟨hpart, ?_⟩
  split
  · rename_i he
    rwa [if_pos he] at hr
  · rename_i he
    rw [if_neg he] at hr
    exact h q hpart r hr

theorem secure_start (g : Grammar) (stream : Slice) (o : Options) (n : Nat) :
    (start o n).Secure g stream := by
  refine ⟨recalls_start g stream o n, ?_⟩
  intro s _ r h
  simp [start] at h

/-- The reading of a part of the stream is found under its key, and the others under theirs. -/
theorem find?_remember (hs : s.IsPartOf stream) {q : Slice} (hq : q.IsPartOf stream) :
    (σ.remember s r).memo.find? q = if s = q then some r else σ.memo.find? q := by
  simp only [Session.remember, Memo.find?_insert]
  by_cases hsq : s = q
  · rw [if_pos hsq, if_pos (congrArg Memo.key hsq)]
  · have hkey : Memo.key s ≠ Memo.key q := by
      intro hkey
      obtain ⟨hstart, hlength⟩ := Prod.ext_iff.mp hkey
      exact hsq (hs.eq_of_key hq hstart hlength)
    rw [if_neg hsq, if_neg hkey]

theorem Recalls.outcome_eq_of_knows (hσ : σ.Recalls g stream) {q : Slice}
    (hq : σ.Knows stream q r) : g.outcome q = .ok r := by
  obtain ⟨hpart, hr⟩ := hq
  split at hr
  · rename_i he
    rw [hr, g.outcome_of_isEmpty he]
  · exact hσ q hpart r hr

/-- What is remembered is right, so that a second reading of a slice changes nothing. -/
theorem isWithin_remember (hσ : σ.Recalls g stream) (hs : s.IsPartOf stream)
    (hr : g.outcome s = .ok r) : σ.IsWithin stream (σ.remember s r) := by
  intro q hq r' hr'
  rw [find?_remember hs hq]
  split
  · rename_i hsq
    rw [← hsq] at hr'
    have hsame : Except.ok r' = Except.ok r := (hσ s hs r' hr').symm.trans hr
    rw [Except.ok.inj hsame]
  · exact hr'

/-- A reading is remembered when all parts that it was made from are. -/
theorem Secure.remember (hσ : σ.Secure g stream) (hs : s.IsPartOf stream)
    (hr : g.outcome s = .ok r) (hfirst : FirstReaches (σ.Knows stream) s g.expressions r) :
    (σ.remember s r).Secure g stream := by
  have hwithin := isWithin_remember hσ.recalls hs hr
  have hmore (q : Slice) (r' : Reading) (hq : σ.Knows stream q r') :
      (σ.remember s r).Knows stream q r' := hq.of_isWithin hwithin
  refine ⟨hσ.recalls.remember hs hr, ?_⟩
  intro q hq r' hr'
  rw [find?_remember hs hq] at hr'
  split at hr'
  · rename_i hsq
    cases hr'
    rw [← hsq]
    exact hfirst.mono hmore
  · exact (hσ.complete q hq r' hr').mono hmore

theorem Secures.refl (σ : Session) : σ.Secures g stream σ :=
  fun h => ⟨h, .refl σ⟩

theorem Secures.trans (h : σ.Secures g stream τ) (h' : τ.Secures g stream υ) :
    σ.Secures g stream υ := by
  intro hσ
  obtain ⟨hτ, hwithin⟩ := h hσ
  obtain ⟨hυ, hwithin'⟩ := h' hτ
  exact ⟨hυ, hwithin.trans hwithin'⟩

theorem secures_record (σ : Session) (r : TraceRecord) : σ.Secures g stream (σ.record r) :=
  fun h => ⟨⟨h.recalls, h.complete⟩, fun _ _ _ hr => hr⟩

/-- Nothing but a reading touches what is remembered. -/
theorem isLasting_secures (g : Grammar) (stream : Slice) : IsLasting (Secures g stream) where
  refl := .refl
  trans := .trans
  record σ _ _ := secures_record σ _
  log σ level message := fun h => ⟨⟨h.recalls, h.complete⟩, fun _ _ _ hr => hr⟩
  report σ p := fun h => ⟨⟨h.recalls, h.complete⟩, fun _ _ _ hr => hr⟩
  atDepth depth h hσ := by
    obtain ⟨hτ, hwithin⟩ := h ⟨hσ.recalls, hσ.complete⟩
    exact ⟨⟨hτ.recalls, hτ.complete⟩, hwithin⟩
  leave h hσ := by
    obtain ⟨hτ, hwithin⟩ := h ⟨hσ.recalls, hσ.complete⟩
    exact ⟨⟨hτ.recalls, hτ.complete⟩, hwithin⟩

end Session

namespace Parse

open Session

variable {g : Grammar} {stream : Slice}

/-- The rules that were tried were answered from what is remembered behind them. -/
theorem secure_firstReading (answer : Slice → Parse Reading) {s : Slice}
    (h : ∀ q : Slice, q.IsStrictPartOf s → ∀ σ : Session, σ.Secure g stream →
      (((answer q).run.run σ).2.Secure g stream ∧ σ.IsWithin stream ((answer q).run.run σ).2) ∧
        ∀ r τ, (answer q).run.run σ = (.ok r, τ) → τ.Knows stream q r)
    (rules : List Expr.Rule) {σ : Session} (hσ : σ.Secure g stream) :
    (((firstReading answer s rules).run.run σ).2.Secure g stream ∧
        σ.IsWithin stream ((firstReading answer s rules).run.run σ).2) ∧
      ∀ r τ, (firstReading answer s rules).run.run σ = (.ok r, τ) →
        FirstReaches (τ.Knows stream) s rules r := by
  induction rules generalizing σ with
  | nil =>
    refine ⟨⟨hσ, .refl σ⟩, fun r τ hrun => ?_⟩
    cases hrun
    exact .none
  | cons rule rules ih =>
    obtain ⟨hform, hreaches⟩ := run_reaches (K := Secures g stream) Secures.refl Secures.trans answer
      (fun q hq σ hσ => (h q hq σ hσ).1) (Expr.asks_form rule.form s) σ
    -- What answered a question is remembered from then on.
    have hknown {r : Option Expr} {υ : Session}
        (hrun : ((rule.form.read s).run answer).run.run σ = (.ok r, υ)) :
        Reaches (υ.Knows stream) (rule.form.read s) r := by
      refine (hreaches r υ hrun).mono ?_
      rintro q r' ⟨hq, σ', τ', hσ', hanswer, hτ'⟩
      obtain ⟨⟨hafter, -⟩, hknows⟩ := h q hq σ' (hσ' hσ).1
      rw [hanswer] at hafter
      exact (hknows r' τ' hanswer).of_isWithin (hτ' hafter).2
    rw [firstReading, run_bind]
    generalize ((rule.form.read s).run answer).run.run σ = first at hform hknown
    obtain ⟨p | _ | e, υ⟩ := first
    · refine ⟨hform hσ, fun r τ hrun => ?_⟩
      cases hrun
    · obtain ⟨hυ, hwithin⟩ := hform hσ
      obtain ⟨⟨hlast, hwithin'⟩, hfirst⟩ := ih hυ
      refine ⟨⟨hlast, hwithin.trans hwithin'⟩, fun r τ hrun => ?_⟩
      have hend : ((firstReading answer s rules).run.run υ).2 = τ := congrArg Prod.snd hrun
      rw [hend] at hwithin'
      refine .reject ((hknown rfl).mono fun q r' hq => hq.of_isWithin hwithin') ?_
      exact hfirst r τ hrun
    · have hrecord : υ.Secures g stream (υ.record (.reading (Memo.key s) rule.form e)) :=
        secures_record υ _
      refine ⟨(hform.trans hrecord) hσ, fun r τ hrun => ?_⟩
      cases hrun
      exact .accept ((hknown rfl).mono fun q r' hq => hq.of_isWithin (hrecord (hform hσ).1).2)

/-- A slice that has been read is remembered, and so is all that its reading was made from. -/
theorem secure_readWithin {n : Nat} {s : Slice} (hn : s.length ≤ n) (hs : s.IsPartOf stream)
    {σ : Session} (hσ : σ.Secure g stream) :
    (((readWithin g n s).run.run σ).2.Secure g stream ∧
        σ.IsWithin stream ((readWithin g n s).run.run σ).2) ∧
      ∀ r τ, (readWithin g n s).run.run σ = (.ok r, τ) → τ.Knows stream s r := by
  induction n generalizing s σ with
  | zero =>
    refine ⟨⟨hσ, .refl σ⟩, fun r τ hrun => ⟨hs, ?_⟩⟩
    cases hrun
    rw [if_pos (s.isEmpty_iff.mpr (Nat.le_zero.mp hn))]
  | succ n ih =>
    -- The depth is of no importance for what a session remembers.
    have hdeeper : ({ σ with depth := σ.depth + 1 } : Session).Secure g stream :=
      ⟨hσ.recalls, hσ.complete⟩
    obtain ⟨⟨hτ, hwithin⟩, hrules⟩ := secure_firstReading (readWithin g n) (s := s)
      (fun q hq σ' hσ' => by
        have hlt : q.length < s.length := hq.2
        exact ih (by omega) (hq.1.trans hs) hσ')
      g.expressions hdeeper
    have hstep := readStep g n s σ
    generalize (readWithin g (n + 1) s).run.run σ = out at hstep ⊢
    cases hstep with
    | empty he =>
      refine ⟨⟨hσ, .refl σ⟩, fun r τ hrun => ⟨hs, ?_⟩⟩
      cases hrun
      rw [if_pos he]
    | remembered he hfind =>
      refine ⟨⟨hσ, .refl σ⟩, fun r τ hrun => ⟨hs, ?_⟩⟩
      cases hrun
      rw [if_neg he]
      exact hfind
    | tooDeep => exact ⟨⟨hσ, .refl σ⟩, fun r τ hrun => by cases hrun⟩
    | failed _ _ _ hfirst =>
      rw [hfirst] at hτ hwithin
      exact ⟨⟨⟨hτ.recalls, hτ.complete⟩, hwithin⟩, fun r τ hrun => by cases hrun⟩
    | @completed r τ he _ _ hfirst =>
      -- The reading is right because its parts are, and is remembered behind them.
      rw [hfirst] at hτ hwithin
      have hτ' : ({ τ with depth := τ.depth - 1 } : Session).Secure g stream :=
        ⟨hτ.recalls, hτ.complete⟩
      have hreaches := hrules r τ hfirst
      have houtcome : g.outcome s = .ok r := hreaches.outcome_eq (s.length_pos_of_not_isEmpty he)
        fun q r' hq => hτ.recalls.outcome_eq_of_knows hq
      refine ⟨⟨hτ'.remember hs houtcome hreaches, ?_⟩, fun r' υ hrun => ⟨hs, ?_⟩⟩
      · exact hwithin.trans (isWithin_remember hτ'.recalls hs houtcome)
      · cases hrun
        rw [if_neg he, find?_remember hs hs, if_pos rfl]

theorem lasts_read_secures {s : Slice} (hs : s.IsPartOf stream) :
    Lasts (Secures g stream) (read g s).run :=
  fun _ hσ => (secure_readWithin (Nat.le_refl s.length) hs hσ).1

end Parse

namespace Session

variable {g : Grammar} {stream : Slice}

/-- After any calls the remembered readings are right and support each other. -/
theorem secure_after {calls : List Call} (hcalls : ∀ c ∈ calls, c.slice.IsPartOf stream)
    (o : Options) (n : Nat) : ((start o n).after g calls).Secure g stream :=
  (lasts_after (isLasting_secures g stream) (fun _ => Parse.lasts_read_secures) hcalls _
    (secure_start g stream o n)).1

end Session

end Prose
