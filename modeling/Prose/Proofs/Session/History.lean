import Prose.Proofs.Session.Support

/-! A limit of nesting and what was read before. A session that remembers earlier readings is compared
with one that remembers nothing: both read a slice in the same way, step by step, until the first one
finds a reading that the second one has to make again. It can do so, as all that the reading was made
from is remembered, too, unless this is now nested too deep. -/
namespace Prose

open Inquiry

namespace Session

def DeepIn (limit : Nat) (s : Slice) (p : Problem) : Prop :=
  ∃ q : Slice, q.IsPartOf s ∧ 0 < q.length ∧ p = Parse.tooDeep limit "parse_expression" q.tokens

/-- The problem that a part of the slice is nested too deep which belongs to a slice of the past. -/
def DeepInPast (past : Slice → Prop) (limit : Nat) (s : Slice) (p : Problem) : Prop :=
  ∃ r : Slice, r.IsPartOf s ∧ past r ∧ DeepIn limit r p

/-- The second session remembers what the first one does, and beyond this nothing but the past. -/
structure Trails (stream : Slice) (past : Slice → Prop) (limit : Nat) (σ τ : Session) : Prop where
  within : σ.IsWithin stream τ
  rest : ∀ q : Slice, q.IsPartOf stream → ∀ r, τ.memo.find? q = some r →
    σ.memo.find? q = some r ∨ past q
  left : σ.options.maxNestingDepth = limit
  right : τ.options.maxNestingDepth = limit
  depth : τ.depth = σ.depth

variable {g : Grammar} {stream s : Slice} {past : Slice → Prop} {limit : Nat} {σ τ υ : Session}
  {r : Reading}

theorem DeepIn.of_isPartOf {q : Slice} {p : Problem} (h : DeepIn limit q p) (hq : q.IsPartOf s) :
    DeepIn limit s p := by
  obtain ⟨deep, hdeep, hpos, rfl⟩ := h
  exact ⟨deep, hdeep.trans hq, hpos, rfl⟩

theorem DeepInPast.of_isPartOf {q : Slice} {p : Problem} (h : DeepInPast past limit q p)
    (hq : q.IsPartOf s) : DeepInPast past limit s p := by
  obtain ⟨r, hr, hpast, hdeep⟩ := h
  exact ⟨r, hr.trans hq, hpast, hdeep⟩

theorem Trails.record (h : σ.Trails stream past limit τ) (t : TraceRecord) :
    (σ.record t).Trails stream past limit (τ.record t) :=
  ⟨h.within, h.rest, h.left, h.right, h.depth⟩

/-- Both sessions are at one depth, to whichever they go. -/
theorem Trails.atDepth (h : σ.Trails stream past limit τ) (depth : Nat) :
    ({ σ with depth } : Session).Trails stream past limit { τ with depth } :=
  ⟨h.within, h.rest, h.left, h.right, rfl⟩

theorem Trails.leave (h : σ.Trails stream past limit τ) :
    ({ σ with depth := σ.depth - 1 } : Session).Trails stream past limit
      { τ with depth := τ.depth - 1 } :=
  ⟨h.within, h.rest, h.left, h.right, congrArg (· - 1) h.depth⟩

/-- Both sessions may remember a reading. -/
theorem Trails.remember (h : σ.Trails stream past limit τ) (hs : s.IsPartOf stream) (r : Reading) :
    (σ.remember s r).Trails stream past limit (τ.remember s r) := by
  refine ⟨fun q hq r' hr' => ?_, fun q hq r' hr' => ?_, h.left, h.right, h.depth⟩
  · rw [find?_remember hs hq] at hr' ⊢
    split
    · rename_i hsq
      rwa [if_pos hsq] at hr'
    · rename_i hsq
      rw [if_neg hsq] at hr'
      exact h.within q hq r' hr'
  · rw [find?_remember hs hq] at hr' ⊢
    split
    · rename_i hsq
      rw [if_pos hsq] at hr'
      exact .inl hr'
    · rename_i hsq
      rw [if_neg hsq] at hr'
      exact h.rest q hq r' hr'

/-- A reading of the second session may be remembered in the first one. -/
theorem IsWithin.remember (h : σ.IsWithin stream τ) (hs : s.IsPartOf stream)
    (hr : τ.memo.find? s = some r) : (σ.remember s r).IsWithin stream τ := by
  intro q hq r' hr'
  rw [find?_remember hs hq] at hr'
  split at hr'
  · rename_i hsq
    rw [← hsq, hr, hr']
  · exact h q hq r' hr'

end Session

namespace Parse

open Session

variable {g : Grammar} {stream : Slice} {past : Slice → Prop} {limit : Nat}

/-- Rules that come to a reading by some answers come to it in every state in which these are given,
or one of the answers fails. -/
theorem firstReading_of_firstReaches {A : Slice → Reading → Prop} {I : Session → Prop}
    {E : Problem → Prop} (answer : Slice → Parse Reading) {s : Slice}
    (h : ∀ q r, q.IsStrictPartOf s ∧ A q r → ∀ σ, I σ →
      (∃ τ, (answer q).run.run σ = (.ok r, τ) ∧ I τ) ∨ FailsWith E ((answer q).run.run σ).1)
    (hrecord : ∀ (σ : Session) (t : TraceRecord), I σ → I (σ.record t)) {rules : List Expr.Rule}
    {r : Reading} (hr : FirstReaches A s rules r) {σ : Session} (hσ : I σ) :
    (∃ τ, (firstReading answer s rules).run.run σ = (.ok r, τ) ∧ I τ) ∨
      FailsWith E ((firstReading answer s rules).run.run σ).1 := by
  -- The rules in front of the one that accepts reject, and what they do to the state is answered for.
  induction hr generalizing σ with
  | none => exact .inl ⟨σ, rfl, hσ⟩
  | @accept rule rules e hform =>
    have hanswers := hform.of_asks (Expr.asks_form rule.form s)
    rw [firstReading, run_bind]
    rcases run_of_reaches_or answer h hanswers hσ with ⟨τ, hrun, hτ⟩ | ⟨p, hp, hfails⟩
    · rw [hrun]
      exact .inl ⟨τ.record (.reading (Memo.key s) rule.form e), rfl, hrecord τ _ hτ⟩
    · generalize ((rule.form.read s).run answer).run.run σ = first at hfails ⊢
      obtain ⟨result, τ⟩ := first
      cases hfails
      exact .inr ⟨p, hp, rfl⟩
  | @reject rule rules r hform _ ih =>
    have hanswers := hform.of_asks (Expr.asks_form rule.form s)
    rw [firstReading, run_bind]
    rcases run_of_reaches_or answer h hanswers hσ with ⟨τ, hrun, hτ⟩ | ⟨p, hp, hfails⟩
    · rw [hrun]
      exact ih hτ
    · generalize ((rule.form.read s).run answer).run.run σ = first at hfails ⊢
      obtain ⟨result, τ⟩ := first
      cases hfails
      exact .inr ⟨p, hp, rfl⟩

/-- What one session remembers another one can read again, if it remembers nothing else, unless some
part is nested too deep for it. -/
theorem readWithin_of_knows {n : Nat} {s : Slice} (hn : s.length ≤ n) {τ : Session}
    (hτ : τ.Secure g stream) {r : Reading} (hknows : τ.Knows stream s r) {σ : Session}
    (hwithin : σ.IsWithin stream τ) (hlimit : σ.options.maxNestingDepth = limit) :
    (∃ υ, (readWithin g n s).run.run σ = (.ok r, υ) ∧ υ.IsWithin stream τ ∧
        υ.options = σ.options ∧ υ.depth = σ.depth) ∨
      FailsWith (DeepIn limit s) ((readWithin g n s).run.run σ).1 := by
  obtain ⟨hs, hr⟩ := hknows
  induction n generalizing s r σ with
  | zero =>
    rw [if_pos (s.isEmpty_iff.mpr (Nat.le_zero.mp hn))] at hr
    rw [hr]
    exact .inl ⟨σ, rfl, hwithin, rfl, rfl⟩
  | succ n ih =>
    by_cases he : s.isEmpty = true
    · rw [if_pos he] at hr
      rw [readWithin_empty he, hr]
      exact .inl ⟨σ, rfl, hwithin, rfl, rfl⟩
    rw [if_neg he] at hr
    have hpos := s.length_pos_of_not_isEmpty he
    cases hfind : σ.memo.find? s with
    | some r' =>
      have hsame : some r' = some r := (hwithin s hs r' hfind).symm.trans hr
      rw [readWithin_remembered he hfind, Option.some.inj hsame]
      exact .inl ⟨σ, rfl, hwithin, rfl, rfl⟩
    | none =>
      by_cases hdeep : σ.options.maxNestingDepth ≤ σ.depth
      · rw [readWithin_tooDeep he hfind hdeep, hlimit]
        exact .inr ⟨_, ⟨s, .refl s, hpos, rfl⟩, rfl⟩
      -- All that the reading was made from is remembered, and shorter.
      have hfirst := firstReading_of_firstReaches (readWithin g n) (s := s)
        (I := fun υ => υ.IsWithin stream τ ∧ υ.options = σ.options ∧ υ.depth = σ.depth + 1)
        (E := DeepIn limit s)
        (fun q r' hq υ hυ => by
          obtain ⟨hpart, hknown⟩ := hq
          obtain ⟨hwithin', hoptions, hdepth⟩ := hυ
          have hlt : q.length < s.length := hpart.2
          have hread := ih (by omega) hwithin' (by rw [hoptions, hlimit]) hknown.1 hknown.2
          rcases hread with ⟨υ', hrun, hυ', hoptions', hdepth'⟩ | ⟨p, hp, hfails⟩
          · exact .inl ⟨υ', hrun, hυ', hoptions'.trans hoptions, hdepth'.trans hdepth⟩
          · exact .inr ⟨p, hp.of_isPartOf hpart.1, hfails⟩)
        (fun υ t hυ => hυ) (hτ.complete s hs r hr) (σ := { σ with depth := σ.depth + 1 })
        ⟨hwithin, rfl, rfl⟩
      rcases hfirst with ⟨υ, hrun, hυ, hoptions, hdepth⟩ | ⟨p, hp, hfails⟩
      · rw [readWithin_deeper_ok he hfind hdeep hrun]
        refine .inl ⟨_, rfl, ?_, hoptions, congrArg (· - 1) hdepth⟩
        exact IsWithin.remember (σ := { υ with depth := υ.depth - 1 }) hυ hs hr
      · rw [readWithin_deeper_error he hfind hdeep (Prod.ext hfails rfl)]
        exact .inr ⟨p, hp, rfl⟩

/-- Rules that are tried in two related states come to the same in both, or fail in the first one. -/
theorem firstReading_both {T : Session → Session → Prop} {E : Problem → Prop}
    (answer : Slice → Parse Reading) {s : Slice}
    (h : ∀ q : Slice, q.IsStrictPartOf s → ∀ σ τ, T σ τ →
      ((answer q).run.run τ).1 = ((answer q).run.run σ).1 ∧
          T ((answer q).run.run σ).2 ((answer q).run.run τ).2 ∨
        FailsWith E ((answer q).run.run σ).1)
    (hrecord : ∀ (σ τ : Session) (t : TraceRecord), T σ τ → T (σ.record t) (τ.record t))
    (rules : List Expr.Rule) {σ τ : Session} (hστ : T σ τ) :
    ((firstReading answer s rules).run.run τ).1 = ((firstReading answer s rules).run.run σ).1 ∧
        T ((firstReading answer s rules).run.run σ).2 ((firstReading answer s rules).run.run τ).2 ∨
      FailsWith E ((firstReading answer s rules).run.run σ).1 := by
  induction rules generalizing σ τ with
  | nil => exact .inl ⟨rfl, hστ⟩
  | cons rule rules ih =>
    have hform := run_both_or answer h (Expr.asks_form rule.form s) hστ
    rw [firstReading, run_bind, run_bind]
    generalize ((rule.form.read s).run answer).run.run σ = first at hform ⊢
    generalize ((rule.form.read s).run answer).run.run τ = first' at hform ⊢
    obtain ⟨result, σ'⟩ := first
    obtain ⟨result', τ'⟩ := first'
    rcases hform with ⟨hsame, hστ'⟩ | ⟨p, hp, hfails⟩
    · cases hsame
      rcases result with p | _ | e
      · exact .inl ⟨rfl, hστ'⟩
      · -- The rule does not read the slice, and the next one is tried in related states again.
        exact ih hστ'
      · exact .inl ⟨rfl, hrecord σ' τ' _ hστ'⟩
    · cases hfails
      exact .inr ⟨p, hp, rfl⟩

section both

variable {n : Nat} {s : Slice} {σ τ : Session}

/-- A slice that only the second session remembers is one of the past. The first session reads it again
from what the second one remembers, unless a part of it is now nested too deep. -/
theorem readWithin_both_of_past (hn : s.length ≤ n + 1) (hs : s.IsPartOf stream)
    (hσ : σ.Secure g stream) (hτ : τ.Secure g stream) (htrails : σ.Trails stream past limit τ)
    (he : ¬ s.isEmpty = true) {r : Reading} (hfind : σ.memo.find? s = none)
    (hfind' : τ.memo.find? s = some r) :
    ((readWithin g (n + 1) s).run.run τ).1 = ((readWithin g (n + 1) s).run.run σ).1 ∧
        ((readWithin g (n + 1) s).run.run σ).2.Trails stream past limit
          ((readWithin g (n + 1) s).run.run τ).2 ∨
      FailsWith (DeepInPast past limit s) ((readWithin g (n + 1) s).run.run σ).1 := by
  have hpast : past s := by
    rcases htrails.rest s hs r hfind' with hfind' | hpast
    · rw [hfind] at hfind'
      cases hfind'
    · exact hpast
  have hknows : τ.Knows stream s r := ⟨hs, by rwa [if_neg he]⟩
  obtain ⟨⟨-, hmore⟩, -⟩ := secure_readWithin hn hs hσ
  rcases readWithin_of_knows hn hτ hknows htrails.within htrails.left with
    ⟨υ, hread, hυ, hoptions, hdepth⟩ | ⟨p, hp, hfails⟩
  · rw [hread] at hmore
    rw [hread, readWithin_remembered he hfind']
    refine .inl ⟨rfl, hυ, fun q hq r' hr' => ?_, ?_, htrails.right, ?_⟩
    · exact (htrails.rest q hq r' hr').imp_left fun hr' => hmore q hq r' hr'
    · rw [hoptions, htrails.left]
    · rw [hdepth, htrails.depth]
  · exact .inr ⟨p, ⟨s, .refl s, hpast, hp⟩, hfails⟩

/-- A slice that neither session remembers is read in the same way if the rules come to the same in
both, one level deeper. -/
theorem readWithin_both_of_firstReading (hs : s.IsPartOf stream)
    (htrails : σ.Trails stream past limit τ) (he : ¬ s.isEmpty = true)
    (hfind : σ.memo.find? s = none) (hfind' : τ.memo.find? s = none)
    (hdeep : ¬ σ.options.maxNestingDepth ≤ σ.depth)
    {first first' : Except Problem Reading × Session}
    (hrun : (firstReading (readWithin g n) s g.expressions).run.run
      { σ with depth := σ.depth + 1 } = first)
    (hrun' : (firstReading (readWithin g n) s g.expressions).run.run
      { τ with depth := σ.depth + 1 } = first')
    (hfirst : first'.1 = first.1 ∧ first.2.Trails stream past limit first'.2 ∨
      FailsWith (DeepInPast past limit s) first.1) :
    ((readWithin g (n + 1) s).run.run τ).1 = ((readWithin g (n + 1) s).run.run σ).1 ∧
        ((readWithin g (n + 1) s).run.run σ).2.Trails stream past limit
          ((readWithin g (n + 1) s).run.run τ).2 ∨
      FailsWith (DeepInPast past limit s) ((readWithin g (n + 1) s).run.run σ).1 := by
  have hdeep' : ¬ τ.options.maxNestingDepth ≤ τ.depth := by
    rwa [htrails.right, htrails.depth, ← htrails.left]
  obtain ⟨result, σ'⟩ := first
  obtain ⟨result', τ'⟩ := first'
  rw [← htrails.depth] at hrun'
  rcases hfirst with ⟨hsame, htrails'⟩ | ⟨p, hp, hfails⟩
  · cases hsame
    -- Behind the rules both sessions go back to the depth at which they met the slice.
    have hback := htrails'.leave
    cases result with
    | error p =>
      rw [readWithin_deeper_error he hfind hdeep hrun,
        readWithin_deeper_error he hfind' hdeep' hrun']
      exact .inl ⟨rfl, hback⟩
    | ok r =>
      rw [readWithin_deeper_ok he hfind hdeep hrun,
        readWithin_deeper_ok he hfind' hdeep' hrun']
      exact .inl ⟨rfl, hback.remember hs r⟩
  · cases hfails
    rw [readWithin_deeper_error he hfind hdeep hrun]
    exact .inr ⟨p, hp, rfl⟩

/-- Two sessions read a slice in the same way if one of them remembers nothing but the past beyond what
the other one does, unless a part of what the past has read is now nested too deep. -/
theorem readWithin_both (hn : s.length ≤ n) (hs : s.IsPartOf stream) (hσ : σ.Secure g stream)
    (hτ : τ.Secure g stream) (htrails : σ.Trails stream past limit τ) :
    ((readWithin g n s).run.run τ).1 = ((readWithin g n s).run.run σ).1 ∧
        ((readWithin g n s).run.run σ).2.Trails stream past limit
          ((readWithin g n s).run.run τ).2 ∨
      FailsWith (DeepInPast past limit s) ((readWithin g n s).run.run σ).1 := by
  induction n generalizing s σ τ with
  | zero => exact .inl ⟨rfl, htrails⟩
  | succ n ih =>
    by_cases he : s.isEmpty = true
    · rw [readWithin_empty he, readWithin_empty he]
      exact .inl ⟨rfl, htrails⟩
    cases hfind : σ.memo.find? s with
    | some r =>
      rw [readWithin_remembered he hfind,
        readWithin_remembered he (htrails.within s hs r hfind)]
      exact .inl ⟨rfl, htrails⟩
    | none =>
      cases hfind' : τ.memo.find? s with
      | some r => exact readWithin_both_of_past hn hs hσ hτ htrails he hfind hfind'
      | none =>
        by_cases hdeep : σ.options.maxNestingDepth ≤ σ.depth
        · have hdeep' : τ.options.maxNestingDepth ≤ τ.depth := by
            rwa [htrails.right, htrails.depth, ← htrails.left]
          rw [readWithin_tooDeep he hfind hdeep, readWithin_tooDeep he hfind' hdeep',
            htrails.left, htrails.right]
          exact .inl ⟨rfl, htrails⟩
        -- What the rules ask for is shorter than the slice, and both sessions stay secure.
        have hfirst := firstReading_both (readWithin g n) (s := s)
          (T := fun σ τ => (σ.Secure g stream ∧ τ.Secure g stream) ∧ σ.Trails stream past limit τ)
          (E := DeepInPast past limit s)
          (fun q hq σ' τ' hστ' => by
            obtain ⟨⟨hσ', hτ'⟩, htrails'⟩ := hστ'
            have hlt : q.length < s.length := hq.2
            have hq' := hq.1.trans hs
            have hsecure := secure_readWithin (g := g) (n := n) (by omega) hq' hσ'
            have hsecure' := secure_readWithin (g := g) (n := n) (by omega) hq' hτ'
            rcases ih (by omega) hq' hσ' hτ' htrails' with ⟨hsame, hafter⟩ | ⟨p, hp, hfails⟩
            · exact .inl ⟨hsame, ⟨hsecure.1.1, hsecure'.1.1⟩, hafter⟩
            · exact .inr ⟨p, hp.of_isPartOf hq.1, hfails⟩)
          (fun σ' τ' t hστ' => by
            obtain ⟨⟨hσ', hτ'⟩, htrails'⟩ := hστ'
            exact ⟨⟨⟨hσ'.recalls, hσ'.complete⟩, ⟨hτ'.recalls, hτ'.complete⟩⟩, htrails'.record t⟩)
          g.expressions (σ := { σ with depth := σ.depth + 1 })
          (τ := { τ with depth := σ.depth + 1 })
          ⟨⟨⟨hσ.recalls, hσ.complete⟩, ⟨hτ.recalls, hτ.complete⟩⟩, htrails.atDepth _⟩
        exact readWithin_both_of_firstReading hs htrails he hfind hfind' hdeep rfl rfl
          (hfirst.imp_left fun h => ⟨h.1, h.2.2⟩)

end both

end Parse

namespace Session

def readAt (g : Grammar) (σ : Session) (depth : Nat) (s : Slice) : Except Problem Reading :=
  ((Parse.read g s).run.run { σ with depth }).1

/-- A new session is trailed by one with a past. -/
theorem trails_start (stream : Slice) {o : Options} (n depth : Nat) {σ : Session}
    (hσ : σ.options = o) :
    ({ start o n with depth } : Session).Trails stream (fun q => (σ.memo.find? q).isSome)
      o.maxNestingDepth { σ with depth } := by
  refine ⟨fun q _ r hr => ?_, fun q _ r hr => .inr ?_, rfl, congrArg _ hσ, rfl⟩
  · simp [start] at hr
  · exact Option.isSome_iff_exists.mpr ⟨r, hr⟩

/-- After any calls on parts of a token stream a part of it is read at every depth as a new session
reads it there. Only where a slice has been read before of which a part is nested too deep now, the new
session may fail with that part. So no session runs into the limit where a new one does not. -/
theorem readAt_after (g : Grammar) (stream : Slice) (o : Options) (n : Nat) (calls : List Call)
    (hcalls : ∀ c ∈ calls, c.slice.IsPartOf stream) {s : Slice} (hs : s.IsPartOf stream)
    (depth : Nat) :
    (FailsWith (·.code = .nestingLimit) (((start o n).after g calls).readAt g depth s) →
        FailsWith (·.code = .nestingLimit) ((start o n).readAt g depth s)) ∧
      (((start o n).after g calls).readAt g depth s = (start o n).readAt g depth s ∨
        ∃ q r : Slice, q.IsPartOf r ∧ r.IsPartOf s ∧ 0 < q.length ∧
          (((start o n).after g calls).memo.find? r).isSome ∧
          (start o n).readAt g depth s =
            .error (Parse.tooDeep o.maxNestingDepth "parse_expression" q.tokens)) := by
  have hnew := secure_start g stream o n
  have hlater := secure_after (g := g) hcalls o n
  have hboth := Parse.readWithin_both (Nat.le_refl s.length) hs
    (σ := { start o n with depth }) (τ := { (start o n).after g calls with depth })
    ⟨hnew.recalls, hnew.complete⟩ ⟨hlater.recalls, hlater.complete⟩
    (trails_start stream n depth (options_after hcalls o n))
  rcases hboth with ⟨hsame, -⟩ | ⟨p, ⟨r, hr, hpast, q, hq, hpos, hp⟩, hfails⟩
  · have heq : ((start o n).after g calls).readAt g depth s = (start o n).readAt g depth s := hsame
    rw [heq]
    exact ⟨id, .inl rfl⟩
  · have hdeep : (start o n).readAt g depth s =
        .error (Parse.tooDeep o.maxNestingDepth "parse_expression" q.tokens) := by
      rw [← hp]
      exact hfails
    exact ⟨fun _ => ⟨_, rfl, hdeep⟩, .inr ⟨q, r, hq, hr, hpos, hpast, hdeep⟩⟩

def oneLevel : Options :=
  { maxNestingDepth := 1 }

def nameCalls : List Call :=
  [⟨.expression, nameSum.take 1, 0⟩, ⟨.expression, nameSum.drop 2, 0⟩]

/-- The new session fails with a name that has been read before. -/
theorem readAt_after_nameSum :
    (∀ c ∈ nameCalls, c.slice.IsPartOf nameSum) ∧ nameSum.IsPartOf nameSum ∧
      ∃ q r : Slice, q.IsPartOf r ∧ r.IsPartOf nameSum ∧ 0 < q.length ∧
        (((start oneLevel 0).after .standard nameCalls).memo.find? r).isSome ∧
        (start oneLevel 0).readAt .standard 0 nameSum =
          .error (Parse.tooDeep oneLevel.maxNestingDepth "parse_expression" q.tokens) := by
  have hcalls : ∀ c ∈ nameCalls, c.slice.IsPartOf nameSum := by
    simp only [nameCalls, List.forall_mem_cons]
    exact ⟨Slice.isPartOf_take _ _, Slice.isPartOf_drop _ _, by simp⟩
  obtain ⟨-, hread⟩ :=
    readAt_after .standard nameSum oneLevel 0 nameCalls hcalls (.refl nameSum) 0
  refine ⟨hcalls, .refl _, hread.resolve_left fun hsame => ?_⟩
  have hnew : FailsWith (·.code = .nestingLimit) ((start oneLevel 0).readAt .standard 0 nameSum) := by
    decide +kernel
  rw [← hsame] at hnew
  exact absurd hnew (by decide +kernel)

/-- The sum is read without a problem once its names have been read. In a new session the names are
nested too deep. -/
theorem not_readAt_after_nameSum :
    (∀ c ∈ nameCalls, c.slice.IsPartOf nameSum) ∧ nameSum.IsPartOf nameSum ∧
      FailsWith (·.code = .nestingLimit) ((start oneLevel 0).readAt .standard 0 nameSum) ∧
      ¬ FailsWith (·.code = .nestingLimit)
        (((start oneLevel 0).after .standard nameCalls).readAt .standard 0 nameSum) := by
  refine ⟨?_, .refl _, by decide +kernel, by decide +kernel⟩
  simp only [nameCalls, List.forall_mem_cons]
  exact ⟨Slice.isPartOf_take _ _, Slice.isPartOf_drop _ _, by simp⟩

end Session

end Prose
