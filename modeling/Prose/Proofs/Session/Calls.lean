import Prose.Proofs.Expr.Alone
import Prose.Proofs.Expr.Leaves
import Prose.Proofs.Expr.Sound
import Prose.Proofs.Session
import Prose.Proofs.Token.Regular

/-! Calls: parts of one token stream are read through one session as expressions, statements and
blocks, in any order, at any depth and with any success. What the session then remembers is what the
cascade makes of a slice, so that remembering changes no reading. -/
namespace Prose

inductive Call.Task where
  | expression | statement | block
  deriving DecidableEq

structure Call where
  task : Call.Task
  slice : Slice
  depth : Nat
  deriving DecidableEq

namespace Session

/-- The session behind a call. The depth around the call is as before. -/
def call (g : Grammar) (σ : Session) (c : Call) : Session :=
  let deeper := { σ with depth := c.depth }
  let τ :=
    match c.task with
    | .expression => ((Parse.read g c.slice).run.run deeper).2
    | .statement => ((Parse.statement g c.slice).run.run deeper).2
    | .block => ((Parse.block g c.slice).run deeper).2
  { τ with depth := σ.depth }

def after (g : Grammar) (σ : Session) (calls : List Call) : Session :=
  calls.foldl (call g) σ

variable {g : Grammar} {stream : Slice}

section lasts

variable {K : Session → Session → Prop} (hK : IsLasting K)
  (hread : ∀ part : Slice, part.IsPartOf stream → Parse.Lasts K (Parse.read g part).run)
include hK hread

/-- A call keeps what every reading keeps, whether it succeeds or not. -/
theorem lasts_call (σ : Session) {c : Call} (hc : c.slice.IsPartOf stream) : K σ (σ.call g c) := by
  apply hK.atDepth c.depth
  cases c.task with
  | expression => exact hread c.slice hc _
  | statement => exact Parse.lasts_statementWith hK hread (Parse.lasts_blockWithin hK hread _) hc _
  | block => exact Parse.lasts_blockWithin hK hread _ _ hc _

theorem lasts_after {calls : List Call} (hcalls : ∀ c ∈ calls, c.slice.IsPartOf stream)
    (σ : Session) : K σ (σ.after g calls) := by
  induction calls generalizing σ with
  | nil => exact hK.refl σ
  | cons c calls ih =>
    have hfirst := lasts_call hK hread σ (hcalls c (List.mem_cons_self ..))
    exact hK.trans hfirst (ih (fun d hd => hcalls d (List.mem_cons_of_mem _ hd)) _)

end lasts

theorem leadsTo_after {calls : List Call} (hcalls : ∀ c ∈ calls, c.slice.IsPartOf stream)
    (σ : Session) : σ.LeadsTo g stream (σ.after g calls) :=
  lasts_after (Parse.isLasting_leadsTo g stream) (fun _ => Parse.keeps_read) hcalls σ

theorem recalls_after {calls : List Call} (hcalls : ∀ c ∈ calls, c.slice.IsPartOf stream)
    (o : Options) (n : Nat) : ((start o n).after g calls).Recalls g stream :=
  (leadsTo_after hcalls _ (recalls_start g stream o n)).recalls

theorem options_after {calls : List Call} (hcalls : ∀ c ∈ calls, c.slice.IsPartOf stream)
    (o : Options) (n : Nat) : ((start o n).after g calls).options = o :=
  (leadsTo_after hcalls _ (recalls_start g stream o n)).options

/-- After any calls on parts of a token stream, what the session remembers of a part is what the
cascade makes of it when nothing is remembered and nesting has no limit. At every depth the session
reads the part as the cascade that remembers nothing, where this does not run into the limit. -/
theorem memo_eq_outcome (g : Grammar) (stream : Slice) (o : Options) (n : Nat) (calls : List Call)
    (hcalls : ∀ c ∈ calls, c.slice.IsPartOf stream) {s : Slice} (hs : s.IsPartOf stream) :
    (∀ r, ((start o n).after g calls).memo.find? s = some r → g.outcome s = .ok r) ∧
      ∀ depth : Nat,
        ¬ Inquiry.FailsWith (TooDeep o.maxNestingDepth) (g.outcomeUnder o.maxNestingDepth depth s) →
        ((Parse.read g s).run.run { (start o n).after g calls with depth }).1 =
          g.outcomeUnder o.maxNestingDepth depth s := by
  have hrecalls := recalls_after (g := g) hcalls o n
  have hoptions := options_after (g := g) hcalls o n
  refine ⟨fun r hr => hrecalls s hs r hr, fun depth hdeep => ?_⟩
  have hread := Parse.read_eq_outcomeUnder hs
    (σ := { (start o n).after g calls with depth }) hrecalls (by simpa only [hoptions] using hdeep)
  simpa only [hoptions] using hread

def nameSum : Slice :=
  .ofSource "$a plus $b" "t"

def nameSumCalls : List Call :=
  [⟨.expression, nameSum.take 1, 300⟩, ⟨.expression, nameSum.drop 2, 3⟩, ⟨.statement, nameSum, 0⟩,
    ⟨.block, nameSum, 1⟩]

/-- The sum has been read and is remembered; five levels deep it is read as it is without. -/
theorem memo_eq_outcome_nameSum :
    (∀ c ∈ nameSumCalls, c.slice.IsPartOf nameSum) ∧ nameSum.IsPartOf nameSum ∧
      (∃ r, ((start {} 0).after .standard nameSumCalls).memo.find? nameSum = some r ∧
        Grammar.standard.outcome nameSum = .ok r) ∧
      ¬ Inquiry.FailsWith (TooDeep 256) (Grammar.standard.outcomeUnder 256 5 nameSum) ∧
      ((Parse.read .standard nameSum).run.run
          { (start {} 0).after .standard nameSumCalls with depth := 5 }).1 =
        Grammar.standard.outcomeUnder 256 5 nameSum := by
  have hcalls : ∀ c ∈ nameSumCalls, c.slice.IsPartOf nameSum := by
    simp only [nameSumCalls, List.forall_mem_cons]
    exact ⟨Slice.isPartOf_take _ _, Slice.isPartOf_drop _ _, .refl _, .refl _, by simp⟩
  obtain ⟨hmemo, hread⟩ := memo_eq_outcome .standard nameSum {} 0 nameSumCalls hcalls (.refl _)
  obtain ⟨r, hr⟩ : ∃ r, ((start {} 0).after .standard nameSumCalls).memo.find? nameSum = some r :=
    Option.isSome_iff_exists.mp (by decide +kernel)
  have hroom : ¬ Inquiry.FailsWith (TooDeep 256) (Grammar.standard.outcomeUnder 256 5 nameSum) := by
    rintro ⟨p, -, hp⟩
    have hsome : (Grammar.standard.outcomeUnder 256 5 nameSum).toOption.isSome = true := by
      decide +kernel
    rw [hp] at hsome
    cases hsome
  exact ⟨hcalls, .refl _, ⟨r, hr, hmemo r hr⟩, hroom, hread 5 hroom⟩

end Session

/-! No expression loses, repeats or moves a name or a value of the tokens it is read from. -/

open Session

theorem Slice.IsCondensed.of_isPartOf {s stream : Slice} (h : stream.IsCondensed)
    (hs : s.IsPartOf stream) : s.IsCondensed := by
  obtain ⟨source, name, ts, cs, htokens, hcondensed, hpart⟩ := h
  exact ⟨source, name, ts, cs, htokens, hcondensed, hs.trans hpart⟩

/-- An expression read from condensed tokens, after any calls on parts of their stream and at any
depth of nesting, has the names and values of its tokens, in their order. -/
theorem leaves_of_read (g : Grammar) {stream : Slice} (hstream : stream.IsCondensed) (o : Options)
    (n : Nat) {calls : List Call} (hcalls : ∀ c ∈ calls, c.slice.IsPartOf stream) (depth : Nat)
    {s : Slice} (hs : s.IsPartOf stream) {rule : Expr.Rule} {e : Expr}
    (h : ((Parse.read g s).run.run { (start o n).after g calls with depth }).1 =
      .ok (some (rule, e))) :
    (s.tokens.filter Token.isContent).map Token.leaf? = e.leaves.map some := by
  have hrecalls := recalls_after (g := g) hcalls o n
  have houtcome := Parse.outcome_of_read hs
    (σ := { (start o n).after g calls with depth }) hrecalls h
  have hderives := g.derives_of_outcome houtcome
  exact hderives.account accounts_content (hstream.of_isPartOf hs).isRegular

def chosenElement : Slice :=
  .ofSource "item call $f with true , 'c' of a list of $a , \"b\" plus negative four" "t"

theorem leaves_of_read_chosenElement :
    chosenElement.IsCondensed ∧
      ∃ rule e, ((Parse.read .standard chosenElement).run.run
          { (start {} 0).after .standard [⟨.statement, chosenElement, 1⟩] with depth := 7 }).1 =
            .ok (some (rule, e)) ∧
        (chosenElement.tokens.filter Token.isContent).map Token.leaf? = e.leaves.map some := by
  have hcondensed : chosenElement.IsCondensed := Slice.isCondensed_ofSource _ _
  have hcalls : ∀ c ∈ [(⟨.statement, chosenElement, 1⟩ : Call)], c.slice.IsPartOf chosenElement :=
    List.forall_mem_singleton.mpr (.refl _)
  obtain ⟨⟨rule, e⟩, hread⟩ : ∃ r, ((Parse.read .standard chosenElement).run.run
      { (start {} 0).after .standard [⟨.statement, chosenElement, 1⟩] with depth := 7 }).1 =
        .ok (some r) :=
    exists_eq_ok_some (by decide +kernel)
  exact ⟨hcondensed, rule, e, hread,
    leaves_of_read .standard hcondensed {} 0 hcalls 7 (.refl _) hread⟩

end Prose
