import Prose.Proofs.Stmt.Known
import Prose.Proofs.Stmt.Leaves

namespace Prose

def Reading.HasLeaves (P : Leaf → Prop) (r : Reading) : Prop :=
  ∀ x ∈ r, ∀ l ∈ x.2.leaves, P l

namespace Stmt

open Inquiry

def RepliesWith (P : Leaf → Prop) : (q : Question) → q.Reply → Prop
  | .reading _, r => r.HasLeaves P
  | .block .., body => ∀ l ∈ leavesAll body, P l
  | .unusedValue .., _ => True

def knownLeaves (P : Leaf → Prop) : Known where
  expr e := ∀ l ∈ e.leaves, P l
  body sts := ∀ l ∈ leavesAll sts, P l
  params _ := True
  imported n := P (.value (.text n))

variable {P : Leaf → Prop} {st : Stmt}

theorem gives_leaves : Gives (RepliesWith P) (knownLeaves P) :=
  ⟨fun _ _ h => h, fun _ _ _ _ h => h⟩

theorem covers_leaves (hvalue : ∀ t v, Token.Spells t v → P (.value v)) (s : Slice) :
    (knownLeaves P).Covers s :=
  ⟨fun _ _ => trivial, fun hkind hn => hvalue _ _ (.text hkind hn)⟩

theorem forall_leavesList {es : List Expr} (h : ∀ e ∈ es, ∀ l ∈ e.leaves, P l) :
    ∀ l ∈ Expr.leavesList es, P l := by
  induction es with
  | nil => exact List.forall_mem_nil P
  | cons e es ih =>
    obtain ⟨he, hes⟩ := List.forall_mem_cons.mp h
    exact List.forall_mem_append.mpr ⟨he, ih hes⟩

theorem forall_leavesOption {body : Option (List Stmt)}
    (h : ∀ sts ∈ body, ∀ l ∈ leavesAll sts, P l) : ∀ l ∈ leavesOption body, P l := by
  cases body with
  | none => exact List.forall_mem_nil P
  | some sts => exact h sts rfl

/-- What holds of all names and of the names and values of the parts of a statement holds of those of
the statement. -/
theorem IsMadeOf.forall_leaves (hname : ∀ n, P (.name n)) (h : st.IsMadeOf (knownLeaves P)) :
    ∀ l ∈ st.leaves, P l := by
  have hparams (ps : List Param) : ∀ l ∈ leavesParams ps, P l :=
    List.forall_mem_map.mpr fun p _ => hname p.name
  -- By the constructors of statements; a conditional is not made of parts in this sense.
  cases st with
  | entryPoint _ body | block _ body => exact h
  | functionDefinition _ n ps body =>
    exact List.forall_mem_cons.mpr ⟨hname n, List.forall_mem_append.mpr ⟨hparams ps, h.2⟩⟩
  | structureDefinition _ n fs => exact List.forall_mem_cons.mpr ⟨hname n, hparams fs⟩
  | conditional => exact h.elim
  | whileLoop _ e body | untilLoop _ e body | repeatLoop _ e body =>
    exact List.forall_mem_append.mpr h
  | doWhile _ body e | doUntil _ body e => exact List.forall_mem_append.mpr h.symm
  | forEach _ n e body =>
    exact List.forall_mem_cons.mpr ⟨hname n, List.forall_mem_append.mpr h⟩
  | forRange _ n a b step body =>
    obtain ⟨ha, hb, hstep, hbody⟩ := h
    simp only [leaves, List.forall_mem_cons, List.forall_mem_append]
    exact ⟨hname n, ha, hb, forall_leavesList hstep, hbody⟩
  | tryCatch _ body n handler cleanup =>
    obtain ⟨hbody, hhandler, hcleanup⟩ := h
    simp only [leaves_tryCatch, List.forall_mem_append, List.forall_mem_map]
    exact ⟨hbody, ⟨fun n _ => hname n, hhandler⟩, forall_leavesOption hcleanup⟩
  | returning _ e => exact forall_leavesList h
  | breaking | continuing | exiting => exact List.forall_mem_nil P
  | throwing _ e | print _ e | assertion _ e | expression _ e => exact h
  | assignment _ x e | listAdd _ x e | listRemove _ x e => exact List.forall_mem_append.mpr h
  | declaration _ n e => exact List.forall_mem_cons.mpr ⟨hname n, h⟩
  | increment _ n e | decrement _ n e =>
    exact List.forall_mem_cons.mpr ⟨hname n, forall_leavesList h⟩
  | swap _ l r =>
    exact List.forall_mem_cons.mpr ⟨hname l, List.forall_mem_singleton.mpr (hname r)⟩
  | readInto _ n => exact List.forall_mem_singleton.mpr (hname n)
  | importing _ n => exact List.forall_mem_singleton.mpr h

theorem yields_readFurtherClauses (slices : List Slice) :
    (readFurtherClauses slices).Yields (RepliesWith P)
      fun x => (∀ l ∈ leavesBranches x.1, P l) ∧ ∀ l ∈ leavesOption x.2, P l := by
  induction slices with
  | nil => exact yields_pure ⟨List.forall_mem_nil P, List.forall_mem_nil P⟩
  | cons clause rest ih =>
    rw [readFurtherClauses_cons]
    split
    · refine yields_bind (yields_readClause gives_leaves) ?_
      rintro ⟨c, body⟩ ⟨hc, hbody⟩
      refine yields_bind ih ?_
      rintro ⟨branches, elseBody⟩ ⟨hbranches, helse⟩
      refine yields_pure ⟨?_, helse⟩
      simp only [leavesBranches, List.forall_mem_append]
      exact ⟨⟨hc, hbody⟩, hbranches⟩
    · split
      · split
        · exact yields_bind (yields_requiredBody gives_leaves) fun body hbody =>
            yields_pure ⟨List.forall_mem_nil P, hbody⟩
        · exact yields_fail _
      · exact yields_fail _

theorem yields_readConditional (chain : List Slice) :
    (readConditional chain).Yields (RepliesWith P) fun st => ∀ l ∈ st.leaves, P l := by
  rw [readConditional_eq]
  split
  · exact yields_fail _
  · split
    · refine yields_bind (yields_readClause gives_leaves) ?_
      rintro ⟨c, body⟩ ⟨hc, hbody⟩
      refine yields_bind (yields_readFurtherClauses _) ?_
      rintro ⟨branches, elseBody⟩ ⟨hbranches, helse⟩
      refine yields_pure ?_
      simp only [leaves_conditional, List.forall_mem_append]
      exact ⟨hc, hbody, hbranches, helse⟩
    · exact yields_fail _

def ReadsWith (P : Leaf → Prop) (x : Query (Option Stmt)) : Prop :=
  x.Yields (RepliesWith P) fun r => ∀ st ∈ r, ∀ l ∈ st.leaves, P l

theorem readsWith_readIf (s : Slice) : ReadsWith P (readIf s) := by
  unfold readIf
  split
  · refine yields_map fun st hst => ?_
    rintro st' ⟨⟩
    exact yields_readConditional [s] st hst
  · exact yields_pure fun _ h => absurd h (Option.not_mem_none _)

/-- Every name and value of what a form reads stands in an answer or is that of a token. -/
theorem readsWith_form (hname : ∀ n, P (.name n))
    (hvalue : ∀ t v, Token.Spells t v → P (.value v)) (s : Slice) (f : Form) :
    ReadsWith P (f.read s) := by
  by_cases hf : f = .conditional
  · subst hf
    exact readsWith_readIf s
  · intro r hr st hst
    exact (makes_form gives_leaves (covers_leaves hvalue s) hf r hr st hst).forall_leaves hname

end Stmt

end Prose
