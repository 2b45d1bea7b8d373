import Prose.Proofs.Expr.Mirror
import Prose.Proofs.Stmt.Indices
import Prose.Proofs.Stmt.Relocation

/-! Statements elsewhere. As the forms of expressions do, those of statements only write places down,
so each form asks about a relocated slice what it asks about the slice itself, and it comes to the
relocated statement. -/
namespace Prose.Stmt

open Inquiry

def Question.relocated (ρ : Relocation) : Question → Question
  | reading s => reading (relocate ρ s)
  | block origin whole inner => block origin (relocate ρ whole) (relocate ρ inner)
  | unusedValue e shown => unusedValue (relocate ρ e) (relocate ρ shown)

instance : Relocates Question := ⟨Question.relocated⟩

def Question.relocatedReply (ρ : Relocation) : (q : Question) → q.Reply → (relocate ρ q).Reply
  | reading _, r => (relocate ρ r : Reading)
  | block .., body => (relocate ρ body : List Stmt)
  | unusedValue .., r => r

variable (ρ : Relocation)

abbrev Mirrors {α : Type} [Relocates α] (x x' : Query α) : Prop :=
  Inquiry.Mirrors (Question.relocatedReply ρ) x x'

theorem mirrors_ask {α : Type} [Relocates α] (q : Question) {next : q.Reply → Query α}
    {next' : (relocate ρ q).Reply → Query α}
    (h : ∀ r, Mirrors ρ (next r) (next' (q.relocatedReply ρ r))) :
    Mirrors ρ (.ask q next) (.ask (relocate ρ q) next') :=
  .ask h

section parts

variable (origin name : String) (part : Slice) (whole : List Token)

theorem mirrors_ofExpr {α : Type} [Relocates α] {x x' : Expr.Query α} (h : Expr.Mirrors ρ x x') :
    Mirrors ρ (ofExpr x) (ofExpr x') := by
  induction h with
  | done a => exact .done a
  | fail p => exact .fail p
  | @ask q next next' _ ih =>
    exact mirrors_ask ρ (.reading q) ih

theorem mirrors_required :
    Mirrors ρ (required origin name part whole)
      (required origin name (relocate ρ part) (relocate ρ whole)) :=
  mirrors_ofExpr ρ (Expr.mirrors_required ρ origin name part whole)

theorem mirrors_readBlock :
    Mirrors ρ (readBlock origin whole part)
      (readBlock origin (relocate ρ whole) (relocate ρ part)) := by
  apply mirrors_ask ρ (.block origin whole part)
  intro body
  exact mirrors_pure rfl

theorem mirrors_requiredBody :
    Mirrors ρ (requiredBody origin part whole)
      (requiredBody origin (relocate ρ part) (relocate ρ whole)) := by
  have hinner : (relocate ρ (part.withoutTerminator.enclosed .blockStart)).getD (relocate ρ part) =
      relocate ρ ((part.withoutTerminator.enclosed .blockStart).getD part) := by
    cases part.withoutTerminator.enclosed .blockStart <;> rfl
  simp only [requiredBody, Slice.withoutTerminator_relocate, Slice.isEmpty_relocate,
    Slice.enclosed_relocate, hinner]
  split
  · exact .fail _
  · exact mirrors_readBlock ρ origin _ whole

theorem mirrors_requiredBlock :
    Mirrors ρ (requiredBlock origin part whole)
      (requiredBlock origin (relocate ρ part) (relocate ρ whole)) := by
  simp only [requiredBlock, Slice.isEmpty_relocate, Slice.enclosed_relocate, Slice.tokens_relocate]
  split
  · exact .fail _
  · cases part.enclosed .blockStart with
    | none => exact .fail _
    | some inner => exact mirrors_readBlock ρ origin inner part.tokens

theorem requiredName_relocate :
    requiredName origin name (relocate ρ part) (relocate ρ whole) =
      relocate ρ (requiredName origin name part whole) := by
  simp only [requiredName, Slice.isEmpty_relocate, Slice.name?_relocate, Slice.tokens_relocate]
  split
  · rfl
  · split <;> rfl

theorem requiredParams_relocate :
    requiredParams origin (relocate ρ part) (relocate ρ whole) =
      relocate ρ (requiredParams origin part whole) := by
  simp only [requiredParams_eq, Slice.isEmpty_relocate, Slice.split_relocate]
  split
  · rfl
  · induction part.split .comma with
    | nil => rfl
    | cons piece pieces ih =>
      rw [relocate_cons, List.mapM_cons, List.mapM_cons, requiredName_relocate, ih,
        Slice.position_relocate]
      generalize List.mapM (m := Except Problem) _ pieces = params
      cases requiredName origin "a name" piece whole with
      | error p => rfl
      | ok name => cases params <;> rfl

theorem optionalParams_relocate (noun : String) (help : Option String) :
    optionalParams origin noun help (relocate ρ part) (relocate ρ whole) =
      relocate ρ (optionalParams origin noun help part whole) := by
  simp only [optionalParams_eq, Slice.isEmpty_relocate, Slice.startsWith_relocate,
    Slice.drop_relocate, Slice.tokens_relocate, requiredParams_relocate]
  split
  · rfl
  · split <;> rfl

theorem mirrors_ofExcept {α : Type} [Relocates α] (r : Except Problem α) :
    Mirrors ρ (ofExcept r) (ofExcept (relocate ρ r)) := by
  cases r with
  | ok a => exact .done a
  | error p => exact .fail p

theorem mirrors_readLoopStep (s : Slice) (byAt : Option Nat) (stop : Nat) :
    Mirrors ρ (readLoopStep origin s byAt stop name)
      (readLoopStep origin (relocate ρ s) byAt stop name) := by
  simp only [readLoopStep, Slice.extract_relocate, Slice.tokens_relocate]
  split
  · exact .done none
  · apply mirrors_map (mirrors_required ρ _ _ _ _)
    intro e
    rfl

end parts

section conditional

variable (s : Slice)

theorem clausesFrom_relocate (start : Nat) (is : List Nat) :
    clausesFrom (relocate ρ s) start is = relocate ρ (clausesFrom s start is) := by
  induction is generalizing start with
  | nil => simp only [clausesFrom, Slice.drop_relocate, relocate_cons, relocate_nil]
  | cons i is ih =>
    simp only [clausesFrom, Slice.tokens_relocate, Slice.getElem?_relocate_list,
      Slice.extract_relocate, ih]
    cases s.tokens[i + 1]? with
    | none => rfl
    | some t =>
      simp only [relocate_some, Token.keyword_relocate]
      split <;> rfl

theorem clauses_relocate : clauses (relocate ρ s) = relocate ρ (clauses s) := by
  simp only [clauses_eq_clausesFrom, Slice.allOf_relocate, clausesFrom_relocate]

@[simp] theorem relocate_chainProblem (fault : ChainFault) (ts : List Token) :
    relocate ρ (chainProblem fault ts) = chainProblem fault (relocate ρ ts) := rfl

theorem mirrors_readClause : Mirrors ρ (readClause s) (readClause (relocate ρ s)) := by
  have hlead : (relocate ρ s.head?).map (·.text) = s.head?.map (·.text) := by
    cases s.head? <;> rfl
  simp only [readClause_eq, Slice.first_relocate, Slice.head?_relocate, hlead, Slice.tokens_relocate,
    Slice.extract_relocate, Slice.drop_relocate]
  split
  · exact .fail _
  · apply mirrors_bind (mirrors_ofExpr ρ (Expr.mirrors_requiredOr ρ _ _ _))
    intro condition
    apply mirrors_bind (mirrors_requiredBody ρ _ _ _)
    intro body
    exact .done (condition, body)

theorem mirrors_readFurtherClauses (slices : List Slice) :
    Mirrors ρ (readFurtherClauses slices) (readFurtherClauses (relocate ρ slices)) := by
  induction slices with
  | nil => exact .done ([], none)
  | cons clause rest ih =>
    simp only [relocate_cons, readFurtherClauses_cons, Slice.startsWith_relocate,
      isEmpty_relocate_list, Slice.drop_relocate, Slice.tokens_relocate, Slice.position_relocate]
    split
    · apply mirrors_bind (mirrors_readClause ρ clause)
      intro first
      apply mirrors_bind ih
      intro further
      exact .done (_, _)
    · split
      · split
        · apply mirrors_bind (mirrors_requiredBody ρ _ _ _)
          intro body
          exact .done ([], some body)
        · exact .fail _
      · exact .fail _

/-- The clauses of a relocated chain are the relocated clauses. -/
theorem flatMap_clauses_relocate (chain : List Slice) :
    (relocate ρ chain).flatMap clauses = relocate ρ (chain.flatMap clauses) := by
  induction chain with
  | nil => rfl
  | cons s chain ih =>
    rw [relocate_cons, List.flatMap_cons, List.flatMap_cons, clauses_relocate, ih, relocate_append]

theorem mirrors_readConditional (chain : List Slice) :
    Mirrors ρ (readConditional chain) (readConditional (relocate ρ chain)) := by
  simp only [readConditional_eq, flatMap_clauses_relocate]
  cases chain.flatMap clauses with
  | nil => exact .fail _
  | cons first rest =>
    simp only [relocate_cons, Slice.startsWith_relocate, Slice.tokens_relocate,
      Slice.position_relocate]
    split
    · apply mirrors_bind (mirrors_readClause ρ first)
      intro clause
      apply mirrors_bind (mirrors_readFurtherClauses ρ rest)
      intro further
      exact mirrors_pure (relocate_conditional ρ _ _ _ _ _)
    · exact .fail _

end conditional

section forms

variable (s : Slice)

theorem mirrors_readBlockStatement :
    Mirrors ρ (readBlockStatement s) (readBlockStatement (relocate ρ s)) := by
  simp only [readBlockStatement_eq, Slice.withoutTerminator_relocate, Slice.enclosed_relocate,
    Slice.tokens_relocate, Slice.position_relocate]
  cases s.withoutTerminator.enclosed .blockStart with
  | none => exact .done none
  | some inner =>
    apply mirrors_bind (mirrors_readBlock ρ _ _ _)
    intro body
    exact mirrors_pure (congrArg some (relocate_block ρ _ _))

theorem mirrors_readEntryPoint :
    Mirrors ρ (readEntryPoint s) (readEntryPoint (relocate ρ s)) := by
  simp only [readEntryPoint_eq, Slice.startsWith_relocate, Slice.first_relocate,
    Slice.extract_relocate, Slice.drop_relocate, Slice.tokens_relocate, Slice.position_relocate]
  split
  · exact .done none
  · split
    · exact .fail _
    · apply mirrors_bind (mirrors_requiredBody ρ _ _ _)
      intro body
      exact mirrors_pure (congrArg some (relocate_entryPoint ρ _ _))

theorem mirrors_readFunctionDefinition :
    Mirrors ρ (readFunctionDefinition s) (readFunctionDefinition (relocate ρ s)) := by
  simp only [readFunctionDefinition_eq, Slice.startsWith_relocate, Slice.first_relocate,
    Slice.extract_relocate, Slice.take_relocate, Slice.drop_relocate, Slice.tokens_relocate,
    Slice.position_relocate, requiredName_relocate, optionalParams_relocate]
  split
  · exact .done none
  · apply mirrors_bind (mirrors_ofExcept ρ _)
    intro name
    apply mirrors_bind (mirrors_ofExcept ρ _)
    intro params
    apply mirrors_bind (mirrors_requiredBody ρ _ _ _)
    intro body
    exact mirrors_pure (congrArg some (relocate_functionDefinition ρ _ _ _ _))

theorem mirrors_readStructureDefinition :
    Mirrors ρ (readStructureDefinition s) (readStructureDefinition (relocate ρ s)) := by
  simp only [readStructureDefinition_eq, Slice.withoutTerminator_relocate, Slice.startsWith_relocate,
    Slice.extract_relocate, Slice.drop_relocate, Slice.tokens_relocate, Slice.position_relocate,
    requiredName_relocate, optionalParams_relocate]
  split
  · apply mirrors_bind (mirrors_ofExcept ρ _)
    intro name
    apply mirrors_bind (mirrors_ofExcept ρ _)
    intro fields
    exact mirrors_pure rfl
  · exact .done none

theorem mirrors_readIf : Mirrors ρ (readIf s) (readIf (relocate ρ s)) := by
  simp only [readIf, Slice.startsWith_relocate]
  split
  · apply mirrors_map (mirrors_readConditional ρ [s])
    intro st
    rfl
  · exact .done none

/-- The word of the loop is looked for by its keyword, so what stands around it is relocated. -/
theorem mirrors_readConditionLoop (lead : Keyword) (origin : String)
    {loop : Position → Expr → List Stmt → Stmt}
    (hloop : ∀ p c body, relocate ρ (loop p c body) =
      loop (ρ.place p) (relocate ρ c) (relocate ρ body)) :
    Mirrors ρ (readConditionLoop lead origin loop s)
      (readConditionLoop lead origin loop (relocate ρ s)) := by
  simp only [readConditionLoop_eq, Slice.startsWith_relocate, Slice.first_relocate,
    Slice.extract_relocate, Slice.drop_relocate, Slice.tokens_relocate, Slice.position_relocate]
  split
  · exact .done none
  · apply mirrors_bind (mirrors_required ρ _ _ _ _)
    intro condition
    apply mirrors_bind (mirrors_requiredBody ρ _ _ _)
    intro body
    exact mirrors_pure (congrArg some (hloop _ _ _))

theorem mirrors_readDoLoop : Mirrors ρ (readDoLoop s) (readDoLoop (relocate ρ s)) := by
  simp only [readDoLoop_eq, Slice.withoutTerminator_relocate, Slice.startsWith_relocate,
    Slice.matchingClose_relocate, Slice.extract_relocate, Slice.drop_relocate,
    Slice.tokens_relocate, Slice.position_relocate]
  split
  · split
    · exact .fail _
    · split
      · apply mirrors_bind (mirrors_required ρ _ _ _ _)
        intro condition
        apply mirrors_bind (mirrors_readBlock ρ _ _ _)
        intro body
        apply mirrors_pure
        split
        · exact congrArg some (relocate_doWhile ρ _ _ _)
        · exact congrArg some (relocate_doUntil ρ _ _ _)
      · exact .done none
  · exact .done none

theorem mirrors_readForEach : Mirrors ρ (readForEach s) (readForEach (relocate ρ s)) := by
  simp only [readForEach_eq, Slice.startsWith_relocate, Slice.first_relocate,
    Slice.extract_relocate, Slice.drop_relocate, Slice.tokens_relocate, Slice.position_relocate,
    requiredName_relocate]
  split
  · exact .done none
  · split
    · exact .done none
    · apply mirrors_bind (mirrors_ofExcept ρ _)
      intro name
      apply mirrors_bind (mirrors_required ρ _ _ _ _)
      intro iterable
      apply mirrors_bind (mirrors_requiredBody ρ _ _ _)
      intro body
      exact mirrors_pure (congrArg some (relocate_forEach ρ _ _ _ _))

theorem mirrors_readForRange : Mirrors ρ (readForRange s) (readForRange (relocate ρ s)) := by
  simp only [readForRange_eq, Slice.startsWith_relocate, Slice.first_relocate, Slice.take_relocate,
    Slice.extract_relocate, Slice.drop_relocate, Slice.tokens_relocate, Slice.position_relocate,
    requiredName_relocate]
  split
  · exact .done none
  · split
    · exact .done none
    · split
      · exact .done none
      · apply mirrors_bind (mirrors_ofExcept ρ _)
        intro name
        apply mirrors_bind (mirrors_required ρ _ _ _ _)
        intro start
        apply mirrors_bind (mirrors_required ρ _ _ _ _)
        intro stop
        apply mirrors_bind (mirrors_readLoopStep ρ _ _ _ _ _)
        intro step
        apply mirrors_bind (mirrors_requiredBody ρ _ _ _)
        intro body
        exact mirrors_pure (congrArg some (relocate_forRange ρ _ _ _ _ _ _))

theorem mirrors_readRepeat : Mirrors ρ (readRepeat s) (readRepeat (relocate ρ s)) := by
  simp only [readRepeat_eq, Slice.startsWith_relocate, Slice.first_relocate, Slice.extract_relocate,
    Slice.drop_relocate, Slice.tokens_relocate, Slice.position_relocate]
  split
  · exact .done none
  · apply mirrors_bind (mirrors_required ρ _ _ _ _)
    intro count
    apply mirrors_bind (mirrors_requiredBody ρ _ _ _)
    intro body
    exact mirrors_pure (congrArg some (relocate_repeatLoop ρ _ _ _))

theorem handlerName_relocate (handler : Slice) :
    handlerName (relocate ρ handler) =
      ((handlerName handler).1, relocate ρ (handlerName handler).2) := by
  obtain ⟨a, _ | ⟨t, ts⟩⟩ := handler
  · rfl
  · simp only [handlerName_eq, Slice.tokens_relocate, relocate_cons, Token.kind_relocate,
      Token.name?_relocate, Slice.drop_relocate]
    split <;> rfl

theorem mirrors_readTry : Mirrors ρ (readTry s) (readTry (relocate ρ s)) := by
  simp only [readTry_eq, Slice.withoutTerminator_relocate, Slice.startsWith_relocate,
    Slice.first_relocate, Slice.length_relocate, Slice.extract_relocate, Slice.drop_relocate,
    Slice.tokens_relocate, Slice.position_relocate, handlerName_relocate]
  split
  · exact .done none
  · apply mirrors_bind (mirrors_requiredBlock ρ _ _ _)
    intro body
    apply mirrors_bind (mirrors_requiredBlock ρ _ _ _)
    intro handler
    split
    · apply mirrors_bind
      · apply mirrors_map (mirrors_requiredBlock ρ _ _ _)
        intro block
        rfl
      · intro cleanup
        exact mirrors_pure (congrArg some (relocate_tryCatch ρ _ _ _ _ _))
    · exact mirrors_pure (congrArg some (relocate_tryCatch ρ _ _ _ _ none))

theorem mirrors_readAssignment :
    Mirrors ρ (readAssignment s) (readAssignment (relocate ρ s)) := by
  simp only [readAssignment_eq, Slice.withoutTerminator_relocate, Slice.startsWith_relocate,
    Slice.first_relocate, Slice.extract_relocate, Slice.drop_relocate, Slice.tokens_relocate,
    Slice.position_relocate]
  split
  · exact .done none
  · apply mirrors_bind (mirrors_required ρ _ _ _ _)
    intro target
    cases target with
    | identifier p n =>
      apply mirrors_bind (mirrors_required ρ _ _ _ _)
      intro value
      exact mirrors_pure rfl
    | index p c i =>
      apply mirrors_bind (mirrors_required ρ _ _ _ _)
      intro value
      exact mirrors_pure rfl
    | selection p e arms d =>
      rw [Expr.relocate_selection]
      exact .fail _
    | _ => exact .fail _

theorem mirrors_readDeclaration :
    Mirrors ρ (readDeclaration s) (readDeclaration (relocate ρ s)) := by
  simp only [readDeclaration_eq, Slice.withoutTerminator_relocate, Slice.startsWith_relocate,
    Slice.first_relocate, Slice.extract_relocate, Slice.drop_relocate, Slice.tokens_relocate,
    Slice.position_relocate, requiredName_relocate]
  split
  · exact .done none
  · apply mirrors_bind (mirrors_ofExcept ρ _)
    intro name
    apply mirrors_bind (mirrors_required ρ _ _ _ _)
    intro value
    exact mirrors_pure rfl

theorem mirrors_readIncrement : Mirrors ρ (readIncrement s) (readIncrement (relocate ρ s)) := by
  simp only [readIncrement_eq, Slice.withoutTerminator_relocate, Slice.startsWith_relocate,
    Slice.first_relocate, Slice.length_relocate, Slice.extract_relocate, Slice.drop_relocate,
    Slice.tokens_relocate, Slice.position_relocate, requiredName_relocate]
  split
  · apply mirrors_bind (mirrors_ofExcept ρ _)
    intro name
    have hstatement (amount : Option Expr) :
        relocate ρ (some (if s.withoutTerminator.startsWith .increment then
            increment s.position name amount else decrement s.position name amount)) =
          some (if s.withoutTerminator.startsWith .increment then
            increment (ρ.place s.position) name (relocate ρ amount)
            else decrement (ρ.place s.position) name (relocate ρ amount)) := by
      split <;> rfl
    split
    · apply mirrors_bind
      · apply mirrors_map (mirrors_required ρ _ _ _ _)
        intro e
        rfl
      · intro amount
        exact mirrors_pure (hstatement amount)
    · exact mirrors_pure (hstatement none)
  · exact .done none

theorem mirrors_readSwap : Mirrors ρ (readSwap s) (readSwap (relocate ρ s)) := by
  simp only [readSwap_eq, Slice.withoutTerminator_relocate, Slice.startsWith_relocate,
    Slice.first_relocate, Slice.extract_relocate, Slice.drop_relocate, Slice.tokens_relocate,
    Slice.position_relocate, requiredName_relocate]
  split
  · exact .done none
  · apply mirrors_bind (mirrors_ofExcept ρ _)
    intro left
    apply mirrors_bind (mirrors_ofExcept ρ _)
    intro right
    exact mirrors_pure rfl

theorem mirrors_readPair (lead separator : Keyword) (origin first second : String)
    {pair : Position → Expr → Expr → Stmt}
    (hpair : ∀ p a b, relocate ρ (pair p a b) = pair (ρ.place p) (relocate ρ a) (relocate ρ b)) :
    Mirrors ρ (readPair lead separator origin first second pair s)
      (readPair lead separator origin first second pair (relocate ρ s)) := by
  simp only [readPair_eq, Slice.withoutTerminator_relocate, Slice.startsWith_relocate,
    Slice.first_relocate, Slice.extract_relocate, Slice.drop_relocate, Slice.tokens_relocate,
    Slice.position_relocate]
  split
  · exact .done none
  · apply mirrors_bind (mirrors_required ρ _ _ _ _)
    intro value
    apply mirrors_bind (mirrors_required ρ _ _ _ _)
    intro list
    exact mirrors_pure (congrArg some (hpair _ _ _))

theorem mirrors_readValue (leads : List Keyword) (origin : String)
    {statement : Position → Expr → Stmt}
    (hstatement : ∀ p e, relocate ρ (statement p e) = statement (ρ.place p) (relocate ρ e)) :
    Mirrors ρ (readValue leads origin statement s)
      (readValue leads origin statement (relocate ρ s)) := by
  have hleads : (relocate ρ s.withoutTerminator).startsWith = s.withoutTerminator.startsWith := by
    ext k
    rw [Slice.startsWith_relocate]
  simp only [readValue_eq, Slice.withoutTerminator_relocate, hleads, Slice.drop_relocate,
    Slice.tokens_relocate, Slice.position_relocate]
  split
  · apply mirrors_bind (mirrors_required ρ _ _ _ _)
    intro value
    exact mirrors_pure (congrArg some (hstatement _ _))
  · exact .done none

theorem mirrors_readReturn : Mirrors ρ (readReturn s) (readReturn (relocate ρ s)) := by
  simp only [readReturn_eq, Slice.withoutTerminator_relocate, Slice.startsWith_relocate,
    Slice.length_relocate, Slice.drop_relocate, Slice.tokens_relocate, Slice.position_relocate]
  split
  · split
    · exact mirrors_pure rfl
    · apply mirrors_bind (mirrors_required ρ _ _ _ _)
      intro value
      exact mirrors_pure rfl
  · exact .done none

theorem mirrors_readBare (lead : Keyword) (origin : String) {statement : Position → Stmt}
    (hstatement : ∀ p, relocate ρ (statement p) = statement (ρ.place p)) :
    Mirrors ρ (readBare lead origin statement s)
      (readBare lead origin statement (relocate ρ s)) := by
  have hlead : (relocate ρ s.withoutTerminator.head?).map (·.text) =
      s.withoutTerminator.head?.map (·.text) := by
    cases s.withoutTerminator.head? <;> rfl
  simp only [readBare_eq, Slice.withoutTerminator_relocate, Slice.startsWith_relocate,
    Slice.length_relocate, Slice.head?_relocate, hlead, Slice.drop_relocate,
    Slice.tokens_relocate, Slice.position_relocate]
  split
  · split
    · exact .fail _
    · exact mirrors_pure (congrArg some (hstatement _))
  · exact .done none

theorem mirrors_readImport : Mirrors ρ (readImport s) (readImport (relocate ρ s)) := by
  simp only [readImport_eq, Slice.withoutTerminator_relocate, Slice.startsWith_relocate,
    Slice.drop_relocate, Slice.tokens_relocate, Slice.position_relocate]
  split
  · obtain _ | ⟨t, _ | ⟨u, us⟩⟩ := (s.withoutTerminator.drop 1).tokens
    · exact .fail _
    · simp only [relocate_cons, relocate_nil, Token.kind_relocate, Token.unescaped_relocate]
      split
      · split
        · exact mirrors_pure rfl
        · exact .fail _
      · exact .fail _
    · exact .fail _
  · exact .done none

theorem mirrors_readReadInto : Mirrors ρ (readReadInto s) (readReadInto (relocate ρ s)) := by
  simp only [readReadInto_eq, Slice.withoutTerminator_relocate, Slice.startsWith_relocate,
    Slice.drop_relocate, Slice.tokens_relocate, Slice.position_relocate, requiredName_relocate]
  split
  · apply mirrors_bind (mirrors_ofExcept ρ _)
    intro name
    exact mirrors_pure rfl
  · exact .done none

theorem mirrors_readExpressionStatement :
    Mirrors ρ (readExpressionStatement s) (readExpressionStatement (relocate ρ s)) := by
  rw [readExpressionStatement_eq, readExpressionStatement_eq, Slice.isEmpty_relocate,
    Slice.withoutTerminator_relocate, Slice.position_relocate]
  split
  · exact .done none
  apply mirrors_bind (mirrors_ofExpr ρ (Expr.mirrors_read ρ _))
  intro r
  cases r with
  | none => exact .done none
  | some r =>
    obtain ⟨rule, e⟩ := r
    have hnoted : Mirrors ρ
        (do
          Inquiry.question (Question.unusedValue e s.withoutTerminator.tokens)
          pure (some (expression s.position e)))
        (do
          Inquiry.question
            (Question.unusedValue (relocate ρ e) (relocate ρ s.withoutTerminator).tokens)
          pure (some (expression (ρ.place s.position) (relocate ρ e)))) := by
      apply mirrors_ask ρ (.unusedValue e s.withoutTerminator.tokens)
      intro _
      exact mirrors_pure rfl
    -- A call alone is used for what it does; of any other expression the value is unused.
    cases e with
    | call p f args =>
      rw [relocate_some, relocate_prod, Expr.relocate_call]
      exact mirrors_pure (by rw [← Expr.relocate_call]; rfl)
    | selection p e arms d =>
      rw [Expr.relocate_selection] at hnoted
      rw [relocate_some, relocate_prod, Expr.relocate_selection]
      exact hnoted
    | _ => exact hnoted

/-- A form asks about a relocated slice what it asks about the slice itself. -/
theorem mirrors_form (f : Form) : Mirrors ρ (f.read s) (f.read (relocate ρ s)) := by
  cases f with
  | block => exact mirrors_readBlockStatement ρ s
  | entryPoint => exact mirrors_readEntryPoint ρ s
  | functionDefinition => exact mirrors_readFunctionDefinition ρ s
  | structureDefinition => exact mirrors_readStructureDefinition ρ s
  | conditional => exact mirrors_readIf ρ s
  | whileLoop => exact mirrors_readConditionLoop ρ s _ _ (relocate_whileLoop ρ)
  | untilLoop => exact mirrors_readConditionLoop ρ s _ _ (relocate_untilLoop ρ)
  | doLoop => exact mirrors_readDoLoop ρ s
  | forEach => exact mirrors_readForEach ρ s
  | forRange => exact mirrors_readForRange ρ s
  | repeatLoop => exact mirrors_readRepeat ρ s
  | tryCatch => exact mirrors_readTry ρ s
  | assignment => exact mirrors_readAssignment ρ s
  | declaration => exact mirrors_readDeclaration ρ s
  | increment => exact mirrors_readIncrement ρ s
  | print => exact mirrors_readValue ρ s _ _ fun p e => rfl
  | returning => exact mirrors_readReturn ρ s
  | breaking => exact mirrors_readBare ρ s _ _ fun p => rfl
  | continuing => exact mirrors_readBare ρ s _ _ fun p => rfl
  | exiting => exact mirrors_readBare ρ s _ _ fun p => rfl
  | throwing => exact mirrors_readValue ρ s _ _ fun p e => rfl
  | assertion => exact mirrors_readValue ρ s _ _ fun p e => rfl
  | importing => exact mirrors_readImport ρ s
  | listAdd => exact mirrors_readPair ρ s _ _ _ _ _ fun p a b => rfl
  | listRemove => exact mirrors_readPair ρ s _ _ _ _ _ fun p a b => rfl
  | swap => exact mirrors_readSwap ρ s
  | readInto => exact mirrors_readReadInto ρ s
  | expression => exact mirrors_readExpressionStatement ρ s

end forms

end Prose.Stmt
