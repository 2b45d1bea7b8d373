import Prose.Proofs.Inquiry
import Prose.Proofs.Stmt.Indices
import Prose.Stmt.Reading

namespace Prose

namespace Slice

variable {s : Slice}

/-- A piece that begins where a slice begins has its first token. -/
theorem head?_extract_zero (s : Slice) (n : Nat) : (s.extract 0 (n + 1)).head? = s.head? := by
  obtain ⟨a, ts⟩ := s
  cases ts <;> rfl

end Slice

namespace Stmt

open Inquiry

def PlacedAt (p : Position) (r : Option Stmt) : Prop :=
  ∀ st ∈ r, st.position = p

def AcceptedAt (p : Position) (r : Option Stmt) : Prop :=
  ∃ st, r = some st ∧ st.position = p

/-- The inquiry is committed to a statement at the place before it asks for anything but readings. -/
inductive Commits (p : Position) : Query (Option Stmt) → Prop
  | reject : Commits p (pure none)
  | accept {x : Query (Option Stmt)} (h : x.Ends (AcceptedAt p)) : Commits p x
  | reading {part : Slice} {next : Reading → Query (Option Stmt)} (h : ∀ r, Commits p (next r)) :
      Commits p (.ask (Question.reading part) next)

variable {p : Position} {st : Stmt}

/-- An inquiry that ends in a statement at the place. -/
theorem ends_some (h : st.position = p) :
    (pure (some st) : Query (Option Stmt)).Ends (AcceptedAt p) :=
  ends_pure ⟨st, rfl, h⟩

theorem commits_some (h : st.position = p) : Commits p (pure (some st)) :=
  .accept (ends_some h)

theorem commits_fail (q : Problem) : Commits p (.fail q) :=
  .accept (ends_fail q)

/-- Whatever stands in front, behind it only a statement is left. -/
theorem commits_bind {α : Type} {x : Query α} {f : α → Query (Option Stmt)}
    (hf : ∀ a, (f a).Ends (AcceptedAt p)) : Commits p (x >>= f) :=
  .accept (ends_bind hf)

/-- A statement that is committed to is the one that is read. -/
theorem Commits.ends {x : Query (Option Stmt)} (hx : Commits p x) : x.Ends (PlacedAt p) := by
  induction hx with
  | reject =>
    refine ends_pure fun st hst => ?_
    cases hst
  | accept h =>
    intro r hr st hst
    obtain ⟨st', rfl, hplace⟩ := h r hr
    cases hst
    exact hplace
  | reading _ ih =>
    intro r hr
    cases hr with
    | ask _ hnext => exact ih _ r hnext

section conditional

/-- The first clause of a slice begins with the token with which the slice begins. -/
theorem exists_clausesFrom_zero (s : Slice) (is : List Nat) :
    ∃ first rest, clausesFrom s 0 is = first :: rest ∧ first.head? = s.head? := by
  induction is with
  | nil => exact ⟨s, [], rfl, rfl⟩
  | cons i is ih =>
    rw [clausesFrom]
    split
    · split
      · exact ⟨_, _, rfl, Slice.head?_extract_zero s i⟩
      · exact ih
    · exact ih

/-- A conditional stands where the first slice of its chain begins. -/
theorem ends_readConditional (s : Slice) (rest : List Slice) :
    (readConditional (s :: rest)).Ends (·.position = s.position) := by
  obtain ⟨first, clauses', hclauses, hhead⟩ := exists_clausesFrom_zero s (s.allOf .blockEnd)
  have hposition : first.position = s.position :=
    congrArg (fun t? => (t?.map (·.position)).getD .unknown) hhead
  have hchain : (s :: rest).flatMap clauses = first :: (clauses' ++ rest.flatMap clauses) := by
    rw [List.flatMap_cons, clauses_eq_clausesFrom, hclauses]
    rfl
  rw [readConditional_eq]
  rw [hchain]
  simp only
  split
  · apply ends_bind
    intro clause
    apply ends_bind
    intro further
    exact ends_pure hposition
  · exact ends_fail _

end conditional

section forms

variable (s : Slice)

theorem commits_readBlockStatement : Commits s.position (readBlockStatement s) := by
  rw [readBlockStatement_eq]
  split
  · exact .reject
  · apply commits_bind
    intro body
    exact ends_some rfl

theorem commits_readEntryPoint : Commits s.position (readEntryPoint s) := by
  rw [readEntryPoint_eq]
  simp only
  split
  · exact .reject
  · split
    · exact commits_fail _
    · apply commits_bind
      intro body
      exact ends_some rfl

theorem commits_readFunctionDefinition :
    Commits s.position (readFunctionDefinition s) := by
  rw [readFunctionDefinition_eq]
  simp only
  split
  · exact .reject
  · apply commits_bind
    intro name
    apply ends_bind
    intro params
    apply ends_bind
    intro body
    exact ends_some rfl

theorem commits_readStructureDefinition :
    Commits s.position (readStructureDefinition s) := by
  rw [readStructureDefinition_eq]
  simp only
  split
  · apply commits_bind
    intro name
    apply ends_bind
    intro fields
    exact ends_some rfl
  · exact .reject

theorem commits_readIf : Commits s.position (readIf s) := by
  unfold readIf
  split
  · refine .accept (ends_map fun st hst => ?_)
    exact ⟨st, rfl, ends_readConditional s [] st hst⟩
  · exact .reject

theorem commits_readConditionLoop (lead : Keyword) (origin : String)
    {loop : Position → Expr → List Stmt → Stmt}
    (hloop : ∀ p c body, (loop p c body).position = p) :
    Commits s.position (readConditionLoop lead origin loop s) := by
  rw [readConditionLoop_eq]
  split
  · exact .reject
  · apply commits_bind
    intro condition
    apply ends_bind
    intro body
    exact ends_some (hloop _ _ _)

theorem commits_readDoLoop : Commits s.position (readDoLoop s) := by
  rw [readDoLoop_eq]
  simp only
  split
  · split
    · exact commits_fail _
    · split
      · apply commits_bind
        intro condition
        apply ends_bind
        intro block
        apply ends_some
        split <;> rfl
      · exact .reject
  · exact .reject

theorem commits_readForEach : Commits s.position (readForEach s) := by
  rw [readForEach_eq]
  simp only
  split
  · exact .reject
  · split
    · exact .reject
    · apply commits_bind
      intro name
      apply ends_bind
      intro iterable
      apply ends_bind
      intro body
      exact ends_some rfl

theorem commits_readForRange : Commits s.position (readForRange s) := by
  rw [readForRange_eq]
  simp only
  split
  · exact .reject
  · split
    · exact .reject
    · split
      · exact .reject
      · apply commits_bind
        intro name
        apply ends_bind
        intro start
        apply ends_bind
        intro stop
        apply ends_bind
        intro step
        apply ends_bind
        intro body
        exact ends_some rfl

theorem commits_readRepeat : Commits s.position (readRepeat s) := by
  rw [readRepeat_eq]
  simp only
  split
  · exact .reject
  · apply commits_bind
    intro count
    apply ends_bind
    intro body
    exact ends_some rfl

theorem commits_readTry : Commits s.position (readTry s) := by
  rw [readTry_eq]
  simp only
  split
  · exact .reject
  · apply commits_bind
    intro body
    apply ends_bind
    intro handler
    split
    · apply ends_bind
      intro cleanup
      exact ends_some rfl
    · exact ends_some rfl

theorem commits_readAssignment : Commits s.position (readAssignment s) := by
  rw [readAssignment_eq]
  simp only
  split
  · exact .reject
  · apply commits_bind
    intro target
    split
    · apply ends_bind
      intro value
      exact ends_some rfl
    · apply ends_bind
      intro value
      exact ends_some rfl
    · exact ends_fail _

theorem commits_readDeclaration : Commits s.position (readDeclaration s) := by
  rw [readDeclaration_eq]
  simp only
  split
  · exact .reject
  · apply commits_bind
    intro name
    apply ends_bind
    intro value
    exact ends_some rfl

theorem commits_readIncrement : Commits s.position (readIncrement s) := by
  have hplace (up : Bool) (name : String) (amount : Option Expr) :
      (if up then increment s.position name amount
        else decrement s.position name amount).position = s.position := by
    cases up <;> rfl
  rw [readIncrement_eq]
  simp only
  split
  · apply commits_bind
    intro name
    split
    · apply ends_bind
      intro amount
      exact ends_some (hplace _ _ _)
    · exact ends_some (hplace _ _ _)
  · exact .reject

theorem commits_readSwap : Commits s.position (readSwap s) := by
  rw [readSwap_eq]
  simp only
  split
  · exact .reject
  · apply commits_bind
    intro left
    apply ends_bind
    intro right
    exact ends_some rfl

theorem commits_readPair (lead separator : Keyword) (origin first second : String)
    {pair : Position → Expr → Expr → Stmt} (hpair : ∀ p a b, (pair p a b).position = p) :
    Commits s.position (readPair lead separator origin first second pair s) := by
  rw [readPair_eq]
  simp only
  split
  · exact .reject
  · apply commits_bind
    intro value
    apply ends_bind
    intro list
    exact ends_some (hpair _ _ _)

theorem commits_readValue (leads : List Keyword) (origin : String)
    {statement : Position → Expr → Stmt} (hstatement : ∀ p e, (statement p e).position = p) :
    Commits s.position (readValue leads origin statement s) := by
  rw [readValue_eq]
  simp only
  split
  · apply commits_bind
    intro value
    exact ends_some (hstatement _ _)
  · exact .reject

theorem commits_readReturn : Commits s.position (readReturn s) := by
  rw [readReturn_eq]
  simp only
  split
  · split
    · exact commits_some rfl
    · apply commits_bind
      intro value
      exact ends_some rfl
  · exact .reject

theorem commits_readBare (lead : Keyword) (origin : String) {statement : Position → Stmt}
    (hstatement : ∀ p, (statement p).position = p) :
    Commits s.position (readBare lead origin statement s) := by
  rw [readBare_eq]
  simp only
  split
  · split
    · exact commits_fail _
    · exact commits_some (hstatement _)
  · exact .reject

theorem commits_readImport : Commits s.position (readImport s) := by
  rw [readImport_eq]
  simp only
  split
  · split
    · exact commits_fail _
    · split
      · split
        · exact commits_some rfl
        · exact commits_fail _
      · exact commits_fail _
    · exact commits_fail _
  · exact .reject

theorem commits_readReadInto : Commits s.position (readReadInto s) := by
  rw [readReadInto_eq]
  simp only
  split
  · apply commits_bind
    intro name
    exact ends_some rfl
  · exact .reject

/-- The statement of an expression is noted only where the expression was read. -/
theorem commits_readExpressionStatement :
    Commits s.position (readExpressionStatement s) := by
  rw [readExpressionStatement_eq]
  split
  · exact .reject
  refine .reading fun r => ?_
  match r with
  | none => exact .reject
  | some (rule, e) =>
    have hstatement : (pure (some (expression s.position e)) : Query (Option Stmt)).Ends
        (AcceptedAt s.position) := ends_some rfl
    have hnoted : (question (Question.unusedValue e s.withoutTerminator.tokens) >>= fun _ =>
        pure (some (expression s.position e)) : Query (Option Stmt)).Ends (AcceptedAt s.position) :=
      ends_bind fun _ => hstatement
    refine .accept ?_
    cases e with
    | call place callee arguments => exact hstatement
    | _ => exact hnoted

/-- Every form is committed to a statement at the first token of the slice. -/
theorem commits_form (f : Form) : Commits s.position (f.read s) := by
  cases f with
  | block => exact commits_readBlockStatement s
  | entryPoint => exact commits_readEntryPoint s
  | functionDefinition => exact commits_readFunctionDefinition s
  | structureDefinition => exact commits_readStructureDefinition s
  | conditional => exact commits_readIf s
  | whileLoop => exact commits_readConditionLoop s _ _ fun _ _ _ => rfl
  | untilLoop => exact commits_readConditionLoop s _ _ fun _ _ _ => rfl
  | doLoop => exact commits_readDoLoop s
  | forEach => exact commits_readForEach s
  | forRange => exact commits_readForRange s
  | repeatLoop => exact commits_readRepeat s
  | tryCatch => exact commits_readTry s
  | assignment => exact commits_readAssignment s
  | declaration => exact commits_readDeclaration s
  | increment => exact commits_readIncrement s
  | print => exact commits_readValue s _ _ fun _ _ => rfl
  | returning => exact commits_readReturn s
  | breaking => exact commits_readBare s _ _ fun _ => rfl
  | continuing => exact commits_readBare s _ _ fun _ => rfl
  | exiting => exact commits_readBare s _ _ fun _ => rfl
  | throwing => exact commits_readValue s _ _ fun _ _ => rfl
  | assertion => exact commits_readValue s _ _ fun _ _ => rfl
  | importing => exact commits_readImport s
  | listAdd => exact commits_readPair s _ _ _ _ _ fun _ _ _ => rfl
  | listRemove => exact commits_readPair s _ _ _ _ _ fun _ _ _ => rfl
  | swap => exact commits_readSwap s
  | readInto => exact commits_readReadInto s
  | expression => exact commits_readExpressionStatement s

/-- Every form places its statement at the first token of the slice. -/
theorem ends_form (f : Form) : (f.read s).Ends (PlacedAt s.position) :=
  (commits_form s f).ends

end forms

end Stmt

end Prose
