import Prose.Proofs.Inquiry
import Prose.Proofs.Stmt.Indices
import Prose.Proofs.Stmt.Questions

namespace Prose.Stmt

open Inquiry

structure Known where
  expr : Expr → Prop
  body : List Stmt → Prop
  params : List Param → Prop
  imported : String → Prop

/-- The statement has parts of which this is known, and is no conditional, which is made of several
slices. -/
def IsMadeOf (K : Known) : Stmt → Prop
  | entryPoint _ body | block _ body => K.body body
  | functionDefinition _ _ ps body => K.params ps ∧ K.body body
  | structureDefinition _ _ fs => K.params fs
  | conditional .. => False
  | whileLoop _ e body | untilLoop _ e body | doWhile _ body e | doUntil _ body e
  | forEach _ _ e body | repeatLoop _ e body => K.expr e ∧ K.body body
  | forRange _ _ a b step body =>
    K.expr a ∧ K.expr b ∧ (∀ e ∈ step.toList, K.expr e) ∧ K.body body
  | tryCatch _ body _ handler cleanup => K.body body ∧ K.body handler ∧ ∀ b ∈ cleanup, K.body b
  | returning _ e | increment _ _ e | decrement _ _ e => ∀ e' ∈ e.toList, K.expr e'
  | throwing _ e | declaration _ _ e | print _ e | assertion _ e | expression _ e => K.expr e
  | assignment _ l r | listAdd _ l r | listRemove _ l r => K.expr l ∧ K.expr r
  | importing _ n => K.imported n
  | breaking _ | continuing _ | exiting _ | swap .. | readInto .. => True

structure Gives (A : (q : Question) → q.Reply → Prop) (K : Known) : Prop where
  reading : ∀ part r, A (.reading part) r → ∀ x ∈ r, K.expr x.2
  block : ∀ origin whole inner body, A (.block origin whole inner) body → K.body body

/-- This is known of the lists of names in a slice, and of all texts. -/
structure Known.Covers (K : Known) (s : Slice) : Prop where
  params : ∀ {origin noun help part whole ps}, part.IsPartOf s →
    optionalParams origin noun help part whole = .ok ps → K.params ps
  imported : ∀ {t : Token} {n}, t.kind = .string → t.unescaped = .ok n → K.imported n

variable {A : (q : Question) → q.Reply → Prop} {K : Known} {s part : Slice} {origin name : String}
  {whole : List Token} {st : Stmt}

section parts

variable (hA : Gives A K)
include hA

theorem yields_ofExpr {α : Type} {F : α → Prop} {x : Expr.Query α}
    (hx : x.Yields (fun _ r => ∀ y ∈ r, K.expr y.2) F) : (ofExpr x).Yields A F := by
  intro a ha
  refine hx a (reaches_of_reaches_translate (fun part r hr => ?_) ha)
  exact hA.reading part r (reaches_question_iff.mp hr)

omit hA in
theorem yields_requiredOr {missing invalid : Problem} :
    (Expr.requiredOr missing invalid part).Yields (fun _ r => ∀ y ∈ r, K.expr y.2) K.expr := by
  unfold Expr.requiredOr
  split
  · exact yields_fail _
  · refine yields_bind (yields_question _) fun r hr => ?_
    split
    · exact yields_pure (hr _ rfl)
    · exact yields_fail _

theorem yields_required : (required origin name part whole).Yields A K.expr :=
  yields_ofExpr hA yields_requiredOr

theorem yields_readBlock : (readBlock origin whole part).Yields A K.body := by
  intro body hbody
  exact hA.block origin whole part body (reaches_question_iff.mp hbody)

theorem yields_requiredBody : (requiredBody origin part whole).Yields A K.body := by
  unfold requiredBody
  simp only
  split
  · exact yields_fail _
  · exact yields_readBlock hA

theorem yields_requiredBlock : (requiredBlock origin part whole).Yields A K.body := by
  unfold requiredBlock
  split
  · exact yields_fail _
  · split
    · exact yields_readBlock hA
    · exact yields_fail _

omit hA in
/-- A part that need not be there. -/
theorem yields_some {x : Query Expr} (hx : x.Yields A K.expr) :
    (some <$> x).Yields A fun e => ∀ e' ∈ e.toList, K.expr e' :=
  yields_map fun e he => List.forall_mem_singleton.mpr (hx e he)

theorem yields_readLoopStep {byAt : Option Nat} {stop : Nat} :
    (readLoopStep origin s byAt stop name).Yields A fun e => ∀ e' ∈ e.toList, K.expr e' := by
  unfold readLoopStep
  split
  · exact yields_pure (List.forall_mem_nil K.expr)
  · exact yields_some (yields_required hA)

theorem yields_readClause {clause : Slice} :
    (readClause clause).Yields A fun x => K.expr x.1 ∧ K.body x.2 := by
  rw [readClause_eq]
  split
  · exact yields_fail _
  · refine yields_bind (yields_ofExpr hA yields_requiredOr) fun c hc => ?_
    refine yields_bind (yields_requiredBody hA) fun body hbody => ?_
    exact yields_pure ⟨hc, hbody⟩

omit hA in
theorem yields_optionalParams {noun : String} {help : Option String} (hK : K.Covers s)
    (hpart : part.IsPartOf s) :
    (ofExcept (optionalParams origin noun help part whole)).Yields A K.params := by
  match h : optionalParams origin noun help part whole with
  | .ok ps => exact yields_pure (hK.params hpart h)
  | .error p => exact yields_fail p

end parts

def Makes (A : (q : Question) → q.Reply → Prop) (K : Known) (x : Query (Option Stmt)) : Prop :=
  x.Yields A fun r => ∀ st ∈ r, st.IsMadeOf K

theorem makes_none : Makes A K (pure none) :=
  yields_pure fun _ h => absurd h (Option.not_mem_none _)

theorem makes_some (h : st.IsMadeOf K) : Makes A K (pure (some st)) :=
  yields_pure fun _ hst => Option.mem_some.mp hst ▸ h

section constructs

variable (hA : Gives A K) (s)
include hA

theorem makes_readBlockStatement : Makes A K (readBlockStatement s) := by
  rw [readBlockStatement_eq]
  split
  · exact makes_none
  · exact yields_bind (yields_readBlock hA) fun body hbody => makes_some hbody

theorem makes_readEntryPoint : Makes A K (readEntryPoint s) := by
  rw [readEntryPoint_eq]
  simp only
  split
  · exact makes_none
  · split
    · exact yields_fail _
    · exact yields_bind (yields_requiredBody hA) fun body hbody => makes_some hbody

theorem makes_readFunctionDefinition (hK : K.Covers s) :
    Makes A K (readFunctionDefinition s) := by
  rw [readFunctionDefinition_eq]
  simp only
  split
  · exact makes_none
  · rename_i asAt _
    have hpart : ((s.extract 1 asAt).drop 1).IsPartOf s :=
      (Slice.isPartOf_drop _ 1).trans (Slice.isPartOf_extract s 1 asAt)
    refine yields_bind (yields_any _) fun name _ => ?_
    refine yields_bind (yields_optionalParams hK hpart) fun params hparams => ?_
    exact yields_bind (yields_requiredBody hA) fun body hbody => makes_some ⟨hparams, hbody⟩

omit hA in
theorem makes_readStructureDefinition (hK : K.Covers s) :
    Makes A K (readStructureDefinition s) := by
  rw [readStructureDefinition_eq]
  simp only
  split
  · have hpart : (s.withoutTerminator.drop 2).IsPartOf s :=
      (Slice.isPartOf_drop _ 2).trans (isPartOf_withoutTerminator s)
    refine yields_bind (yields_any _) fun name _ => ?_
    exact yields_bind (yields_optionalParams hK hpart) fun fields hfields => makes_some hfields
  · exact makes_none

theorem makes_readConditionLoop {lead : Keyword} {loop : Position → Expr → List Stmt → Stmt}
    (hloop : ∀ p c body, (loop p c body).IsMadeOf K ↔ K.expr c ∧ K.body body) :
    Makes A K (readConditionLoop lead origin loop s) := by
  rw [readConditionLoop_eq]
  split
  · exact makes_none
  · refine yields_bind (yields_required hA) fun c hc => ?_
    refine yields_bind (yields_requiredBody hA) fun body hbody => makes_some ?_
    exact (hloop _ c body).mpr ⟨hc, hbody⟩

theorem makes_readDoLoop : Makes A K (readDoLoop s) := by
  rw [readDoLoop_eq]
  simp only
  split
  · split
    · exact yields_fail _
    · split
      · refine yields_bind (yields_required hA) fun c hc => ?_
        refine yields_bind (yields_readBlock hA) fun body hbody => makes_some ?_
        split <;> exact ⟨hc, hbody⟩
      · exact makes_none
  · exact makes_none

theorem makes_readForEach : Makes A K (readForEach s) := by
  rw [readForEach_eq]
  simp only
  split
  · exact makes_none
  · split
    · exact makes_none
    · refine yields_bind (yields_any _) fun name _ => ?_
      refine yields_bind (yields_required hA) fun e he => ?_
      exact yields_bind (yields_requiredBody hA) fun body hbody => makes_some ⟨he, hbody⟩

theorem makes_readForRange : Makes A K (readForRange s) := by
  rw [readForRange_eq]
  simp only
  split
  · exact makes_none
  · split
    · exact makes_none
    · split
      · exact makes_none
      · refine yields_bind (yields_any _) fun name _ => ?_
        refine yields_bind (yields_required hA) fun a ha => ?_
        refine yields_bind (yields_required hA) fun b hb => ?_
        refine yields_bind (yields_readLoopStep hA) fun step hstep => ?_
        refine yields_bind (yields_requiredBody hA) fun body hbody => ?_
        exact makes_some ⟨ha, hb, hstep, hbody⟩

theorem makes_readRepeat : Makes A K (readRepeat s) := by
  rw [readRepeat_eq]
  simp only
  split
  · exact makes_none
  · refine yields_bind (yields_required hA) fun e he => ?_
    exact yields_bind (yields_requiredBody hA) fun body hbody => makes_some ⟨he, hbody⟩

theorem makes_readTry : Makes A K (readTry s) := by
  rw [readTry_eq]
  simp only
  split
  · exact makes_none
  · refine yields_bind (yields_requiredBlock hA) fun body hbody => ?_
    refine yields_bind (yields_requiredBlock hA) fun handler hhandler => ?_
    have hread (n : Option String) (cleanup : Option (List Stmt)) (h : ∀ b ∈ cleanup, K.body b) :
        Makes A K (pure (some (.tryCatch s.position body n handler cleanup))) :=
      makes_some ⟨hbody, hhandler, h⟩
    split
    · refine yields_bind (yields_map fun b hb => ?_) (hread _)
      rintro b' ⟨⟩
      exact yields_requiredBlock hA b hb
    · exact hread _ none fun b h => absurd h (Option.not_mem_none b)

end constructs

section commands

variable (hA : Gives A K) (s)
include hA

theorem makes_readPair {lead separator : Keyword} {first second : String}
    {pair : Position → Expr → Expr → Stmt}
    (hpair : ∀ p x e, (pair p x e).IsMadeOf K ↔ K.expr x ∧ K.expr e) :
    Makes A K (readPair lead separator origin first second pair s) := by
  rw [readPair_eq]
  simp only
  split
  · exact makes_none
  · refine yields_bind (yields_required hA) fun x hx => ?_
    refine yields_bind (yields_required hA) fun e he => makes_some ?_
    exact (hpair _ x e).mpr ⟨hx, he⟩

theorem makes_readValue {leads : List Keyword} {statement : Position → Expr → Stmt}
    (hstatement : ∀ p e, (statement p e).IsMadeOf K ↔ K.expr e) :
    Makes A K (readValue leads origin statement s) := by
  rw [readValue_eq]
  simp only
  split
  · refine yields_bind (yields_required hA) fun e he => makes_some ?_
    exact (hstatement _ e).mpr he
  · exact makes_none

theorem makes_readReturn : Makes A K (readReturn s) := by
  rw [readReturn_eq]
  simp only
  split
  · split
    · exact makes_some (List.forall_mem_nil K.expr)
    · refine yields_bind (yields_required hA) fun e he => makes_some ?_
      exact List.forall_mem_singleton.mpr he
  · exact makes_none

omit hA in
theorem makes_readBare {lead : Keyword} {statement : Position → Stmt}
    (hstatement : ∀ p, (statement p).IsMadeOf K) :
    Makes A K (readBare lead origin statement s) := by
  rw [readBare_eq]
  simp only
  split
  · split
    · exact yields_fail _
    · exact makes_some (hstatement _)
  · exact makes_none

theorem makes_readAssignment : Makes A K (readAssignment s) := by
  rw [readAssignment_eq]
  simp only
  split
  · exact makes_none
  · refine yields_bind (yields_required hA) fun x hx => ?_
    -- A name and an element of a list can be set, and no other expression.
    split
    · exact yields_bind (yields_required hA) fun e he => makes_some ⟨hx, he⟩
    · exact yields_bind (yields_required hA) fun e he => makes_some ⟨hx, he⟩
    · exact yields_fail _

theorem makes_readDeclaration : Makes A K (readDeclaration s) := by
  rw [readDeclaration_eq]
  simp only
  split
  · exact makes_none
  · refine yields_bind (yields_any _) fun name _ => ?_
    exact yields_bind (yields_required hA) fun e he => makes_some he

theorem makes_readIncrement : Makes A K (readIncrement s) := by
  rw [readIncrement_eq]
  simp only
  split
  · refine yields_bind (yields_any _) fun name _ => ?_
    have hread (e : Option Expr) (he : ∀ e' ∈ e.toList, K.expr e') :
        Makes A K (pure (some (if s.withoutTerminator.startsWith .increment
          then .increment s.position name e else .decrement s.position name e))) := by
      refine makes_some ?_
      split <;> exact he
    split
    · exact yields_bind (yields_some (yields_required hA)) hread
    · exact hread none (List.forall_mem_nil K.expr)
  · exact makes_none

omit hA in
theorem makes_readSwap : Makes A K (readSwap s) := by
  rw [readSwap_eq]
  simp only
  split
  · exact makes_none
  · refine yields_bind (yields_any _) fun l _ => ?_
    exact yields_bind (yields_any _) fun r _ => makes_some trivial

omit hA in
theorem makes_readReadInto : Makes A K (readReadInto s) := by
  rw [readReadInto_eq]
  simp only
  split
  · exact yields_bind (yields_any _) fun name _ => makes_some trivial
  · exact makes_none

omit hA in
theorem makes_readImport (hK : K.Covers s) : Makes A K (readImport s) := by
  rw [readImport_eq]
  simp only
  split
  · split
    · exact yields_fail _
    · split
      · rename_i hkind
        split
        · rename_i hvalue
          exact makes_some (hK.imported hkind hvalue)
        · exact yields_fail _
      · exact yields_fail _
    · exact yields_fail _
  · exact makes_none

theorem makes_readExpressionStatement : Makes A K (readExpressionStatement s) := by
  rw [readExpressionStatement_eq]
  split
  · exact makes_none
  refine yields_bind (yields_ofExpr hA (yields_question _)) fun r hr => ?_
  split
  · exact makes_none
  · rename_i rule e
    have hsome : Makes A K (pure (some (.expression s.position e))) := makes_some (hr _ rfl)
    split
    · exact hsome
    · exact yields_bind (yields_any _) fun _ _ => hsome

end commands

/-- Every form, other than that of a conditional, makes its statement of such parts. -/
theorem makes_form (hA : Gives A K) (hK : K.Covers s) {f : Form} (hf : f ≠ .conditional) :
    Makes A K (f.read s) := by
  cases f with
  | block => exact makes_readBlockStatement s hA
  | entryPoint => exact makes_readEntryPoint s hA
  | functionDefinition => exact makes_readFunctionDefinition s hA hK
  | structureDefinition => exact makes_readStructureDefinition s hK
  | conditional => exact absurd rfl hf
  | whileLoop | untilLoop => exact makes_readConditionLoop s hA fun _ _ _ => .rfl
  | doLoop => exact makes_readDoLoop s hA
  | forEach => exact makes_readForEach s hA
  | forRange => exact makes_readForRange s hA
  | repeatLoop => exact makes_readRepeat s hA
  | tryCatch => exact makes_readTry s hA
  | assignment => exact makes_readAssignment s hA
  | declaration => exact makes_readDeclaration s hA
  | increment => exact makes_readIncrement s hA
  | print | throwing | assertion => exact makes_readValue s hA fun _ _ => .rfl
  | returning => exact makes_readReturn s hA
  | breaking | continuing | exiting => exact makes_readBare s fun _ => trivial
  | importing => exact makes_readImport s hK
  | listAdd | listRemove => exact makes_readPair s hA fun _ _ _ => .rfl
  | swap => exact makes_readSwap s
  | readInto => exact makes_readReadInto s
  | expression => exact makes_readExpressionStatement s hA

end Prose.Stmt
