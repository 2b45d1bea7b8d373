import Prose.Proofs.Expr.Questions
import Prose.Proofs.Stmt.Indices
import Prose.Stmt.Reading

namespace Prose.Stmt

open Inquiry Slice

/-- The question is about tokens of the slice, and about fewer tokens if it asks for a block. -/
def Question.IsWithin (s : Slice) : Question → Prop
  | reading part => part.IsPartOf s
  | block _ _ inner => inner.IsStrictPartOf s
  | unusedValue .. => True

/-- The question is about tokens of the slice, and leaves out two of them if it asks for a block. -/
def Question.IsInside (s : Slice) : Question → Prop
  | reading part => part.IsPartOf s
  | block _ _ inner => inner.IsPartOf s ∧ inner.length + 2 ≤ s.length
  | unusedValue .. => True

theorem Question.IsInside.isWithin {q : Question} {s : Slice} (h : q.IsInside s) :
    q.IsWithin s := by
  cases q with
  | reading part => exact h
  | block origin whole inner => exact ⟨h.1, Nat.lt_of_succ_lt h.2⟩
  | unusedValue e shown => trivial

theorem Question.IsInside.of_isPartOf {q : Question} {part s : Slice} (h : q.IsInside part)
    (hpart : part.IsPartOf s) : q.IsInside s := by
  cases q with
  | reading q => exact Slice.IsPartOf.trans h hpart
  | block origin whole inner => exact ⟨h.1.trans hpart, Nat.le_trans h.2 hpart.length_le⟩
  | unusedValue e shown => trivial

/-- What is asked about a part without some token is about the slice without a further one. -/
theorem Question.IsWithin.isInside {q : Question} {part s : Slice} (h : q.IsWithin part)
    (hpart : part.IsStrictPartOf s) : q.IsInside s := by
  cases q with
  | reading q => exact Slice.IsPartOf.trans h hpart.1
  | block origin whole inner =>
    have hinner : inner.length < part.length := h.2
    have hlength : part.length < s.length := hpart.2
    exact ⟨h.1.trans hpart.1, by omega⟩
  | unusedValue e shown => trivial

theorem Question.IsWithin.of_isPartOf {q : Question} {part s : Slice} (h : q.IsWithin part)
    (hpart : part.IsPartOf s) : q.IsWithin s := by
  cases q with
  | reading q => exact Slice.IsPartOf.trans h hpart
  | block origin whole inner => exact Slice.IsStrictPartOf.trans_isPartOf h hpart
  | unusedValue e shown => trivial

theorem isPartOf_withoutTerminator (s : Slice) : s.withoutTerminator.IsPartOf s := by
  unfold withoutTerminator
  split
  · exact isPartOf_take s _
  · exact .refl s

theorem isPartOf_of_enclosed {s inner : Slice} {opener : Keyword}
    (h : s.enclosed opener = some inner) : inner.IsPartOf s := by
  obtain ⟨j, -, rfl⟩ := extract_of_enclosed h
  exact isPartOf_extract s 1 j

section parts

variable {s part : Slice} (origin name : String) (whole : List Token)

theorem asks_ofExpr {P : Question → Prop} {α : Type} {x : Expr.Query α}
    (h : ∀ q : Slice, q.IsPartOf s → P (.reading q)) (hx : x.Asks (·.IsPartOf s)) :
    (ofExpr x).Asks P := by
  refine asks_translate (fun part hpart => ?_) hx
  exact asks_question (q := Question.reading part) (h part hpart)

theorem asks_required (h : part.IsPartOf s) :
    (required origin name part whole).Asks (·.IsInside s) :=
  asks_ofExpr (fun _ hq => hq) (Expr.asks_required origin name whole h)

theorem asks_readBlock {P : Question → Prop} (h : P (.block origin whole part)) :
    (readBlock origin whole part).Asks P :=
  asks_question h

/-- A body is read as a block of its own tokens. -/
theorem asks_requiredBody {P : Question → Prop}
    (h : ∀ inner : Slice, inner.IsPartOf part → P (.block origin whole inner)) :
    (requiredBody origin part whole).Asks P := by
  unfold requiredBody
  simp only
  split
  · constructor
  · refine asks_readBlock origin whole ?_
    match hinner : part.withoutTerminator.enclosed .blockStart with
    | none => exact h part (.refl part)
    | some inner =>
      exact h inner ((isPartOf_of_enclosed hinner).trans (isPartOf_withoutTerminator part))

/-- A block in brackets takes two tokens more than are read. -/
theorem isInside_block_of_enclosed {inner : Slice} {opener : Keyword} (h : part.IsPartOf s)
    (hinner : part.enclosed opener = some inner) :
    (Question.block origin whole inner).IsInside s :=
  ⟨(isPartOf_of_enclosed hinner).trans h,
    Nat.le_trans (Nat.le_of_eq (length_of_enclosed hinner)) h.length_le⟩

theorem asks_requiredBlock (h : part.IsPartOf s) :
    (requiredBlock origin part whole).Asks (·.IsInside s) := by
  unfold requiredBlock
  split
  · constructor
  · split
    · rename_i inner hinner
      exact asks_readBlock _ _ (isInside_block_of_enclosed _ _ h hinner)
    · constructor

theorem asks_ofExcept {P : Question → Prop} {α : Type} (r : Except Problem α) :
    (ofExcept r).Asks P := by
  cases r with
  | ok a => exact .done a
  | error p => exact .fail p

theorem asks_readLoopStep (byAt : Option Nat) (stop : Nat) :
    (readLoopStep origin s byAt stop name).Asks (·.IsInside s) := by
  unfold readLoopStep
  split
  · constructor
  · exact asks_map _ (asks_required _ _ _ (isPartOf_extract s _ _))

/-- In front of a body stand the lead and the word that was found. -/
theorem asks_requiredBody_of_first {k : Keyword} {i j : Nat} (h : s.first k (i + 1) = some j) :
    (requiredBody origin (s.drop (j + 1)) whole).Asks (·.IsInside s) := by
  obtain ⟨hij, -⟩ := getElem?_of_first h
  have hj := lt_length_of_first h
  refine asks_requiredBody origin whole fun inner hinner => ⟨hinner.trans (isPartOf_drop s _), ?_⟩
  have hlength := hinner.length_le
  rw [length_drop] at hlength
  omega

end parts

section conditional

theorem isPartOf_of_mem_clausesFrom {s clause : Slice} {start : Nat} {is : List Nat}
    (h : clause ∈ clausesFrom s start is) : clause.IsPartOf s := by
  induction is generalizing start with
  | nil =>
    rw [clausesFrom, List.mem_singleton] at h
    exact h ▸ isPartOf_drop s start
  | cons i is ih =>
    rw [clausesFrom] at h
    split at h
    · split at h
      · rcases List.mem_cons.mp h with rfl | h
        · exact isPartOf_extract s _ _
        · exact ih h
      · exact ih h
    · exact ih h

theorem isPartOf_of_mem_clauses {s clause : Slice} (h : clause ∈ clauses s) : clause.IsPartOf s := by
  rw [clauses_eq_clausesFrom] at h
  exact isPartOf_of_mem_clausesFrom h

/-- Every clause but the first leaves out the first token. -/
theorem isStrictPartOf_of_mem_clausesFrom {s clause : Slice} (hs : 0 < s.length) {start : Nat}
    (hstart : 0 < start) {is : List Nat} (h : clause ∈ clausesFrom s start is) :
    clause.IsStrictPartOf s := by
  induction is generalizing start with
  | nil =>
    rw [clausesFrom, List.mem_singleton] at h
    exact h ▸ isStrictPartOf_drop hs hstart
  | cons i is ih =>
    rw [clausesFrom] at h
    split at h
    · split at h
      · rcases List.mem_cons.mp h with rfl | h
        · exact isStrictPartOf_extract hs hstart
        · exact ih (Nat.succ_pos i) h
      · exact ih hstart h
    · exact ih hstart h

theorem isStrictPartOf_of_clausesFrom {s first clause : Slice} (hs : 0 < s.length)
    {rest : List Slice} {is : List Nat} (h : clausesFrom s 0 is = first :: rest)
    (hmem : clause ∈ rest) : clause.IsStrictPartOf s := by
  induction is with
  | nil =>
    cases h
    cases hmem
  | cons i is ih =>
    rw [clausesFrom] at h
    split at h
    · split at h
      · cases h
        exact isStrictPartOf_of_mem_clausesFrom hs (Nat.succ_pos i) hmem
      · exact ih h
    · exact ih h

theorem asks_readClause (clause : Slice) : (readClause clause).Asks (·.IsInside clause) := by
  rw [readClause_eq]
  split
  · constructor
  · rename_i thenAt hthen
    refine asks_bind (asks_ofExpr (fun _ hq => hq) ?_) fun condition => ?_
    · exact Expr.asks_requiredOr _ _ fun _ => isPartOf_extract clause _ _
    · exact asks_bind (asks_requiredBody_of_first _ _ hthen) fun body => .done _

/-- The clauses ask about themselves. -/
theorem asks_readFurtherClauses (clauses : List Slice) :
    (readFurtherClauses clauses).Asks fun q => ∃ clause ∈ clauses, q.IsWithin clause := by
  induction clauses with
  | nil => constructor
  | cons clause rest ih =>
    have hfirst {α : Type} {x : Query α} (hx : x.Asks (·.IsWithin clause)) :
        x.Asks fun q => ∃ c ∈ clause :: rest, q.IsWithin c :=
      hx.mono fun q hq => ⟨clause, List.mem_cons_self .., hq⟩
    have hrest := ih.mono fun q ⟨c, hc, hq⟩ =>
      (⟨c, List.mem_cons_of_mem clause hc, hq⟩ : ∃ c ∈ clause :: rest, q.IsWithin c)
    rw [readFurtherClauses]
    split
    · have hclause := (asks_readClause clause).mono fun q hq => hq.isWithin
      refine asks_bind (hfirst hclause) fun p => ?_
      exact asks_bind hrest fun p => .done _
    · split
      · rename_i hotherwise
        split
        · refine asks_bind (hfirst (asks_requiredBody _ _ fun inner hinner => ?_))
            fun body => .done _
          exact hinner.trans_isStrictPartOf
            (isStrictPartOf_drop (length_pos_of_startsWith _ hotherwise) (by omega))
        · constructor
      · constructor

/-- A conditional asks about the slices of its chain. -/
theorem asks_readConditional (chain : List Slice) :
    (readConditional chain).Asks fun q => ∃ s ∈ chain, q.IsWithin s := by
  have hclause {clause : Slice} (h : clause ∈ chain.flatMap clauses) {q : Question}
      (hq : q.IsWithin clause) : ∃ s ∈ chain, q.IsWithin s := by
    obtain ⟨s, hs, hmem⟩ := List.mem_flatMap.mp h
    exact ⟨s, hs, hq.of_isPartOf (isPartOf_of_mem_clauses hmem)⟩
  rw [readConditional_eq]
  split
  · constructor
  · rename_i first rest hclauses
    rw [hclauses] at hclause
    split
    · refine asks_bind ((asks_readClause first).mono fun q hq =>
        hclause (List.mem_cons_self ..) hq.isWithin) fun p => ?_
      refine asks_bind ((asks_readFurtherClauses rest).mono fun q ⟨c, hc, hq⟩ =>
        hclause (List.mem_cons_of_mem first hc) hq) fun p => .done _
    · constructor

/-- In one slice the first clause takes a token from every other one. -/
theorem asks_readConditional_singleton (s : Slice) :
    (readConditional [s]).Asks (·.IsInside s) := by
  have hchain : [s].flatMap clauses = clauses s := List.append_nil _
  rw [readConditional_eq]
  rw [hchain]
  split
  · constructor
  · rename_i first rest hclauses
    have hfirst : first.IsPartOf s :=
      isPartOf_of_mem_clauses (hclauses ▸ List.mem_cons_self ..)
    split
    · rename_i hlead
      have hpos : 0 < s.length :=
        Nat.lt_of_lt_of_le (length_pos_of_startsWith _ hlead) hfirst.length_le
      refine asks_bind ((asks_readClause first).mono fun q hq => hq.of_isPartOf hfirst) fun p => ?_
      refine asks_bind ((asks_readFurtherClauses rest).mono ?_) fun p => .done _
      rintro q ⟨clause, hmem, hq⟩
      rw [clauses_eq_clausesFrom] at hclauses
      exact hq.isInside (isStrictPartOf_of_clausesFrom hpos hclauses hmem)
    · constructor

end conditional

section forms

variable (s : Slice)

theorem asks_readBlockStatement : (readBlockStatement s).Asks (·.IsInside s) := by
  rw [readBlockStatement_eq]
  split
  · constructor
  · rename_i inner hinner
    refine asks_bind (asks_readBlock _ _ ?_) fun body => .done _
    exact isInside_block_of_enclosed _ _ (isPartOf_withoutTerminator s) hinner

theorem first_of_ite {c : Prop} [Decidable c] {k : Keyword} {i j : Nat}
    (h : (if c then s.first k i else none) = some j) : c ∧ s.first k i = some j := by
  split at h
  · exact ⟨‹c›, h⟩
  · cases h

theorem asks_readEntryPoint : (readEntryPoint s).Asks (·.IsInside s) := by
  rw [readEntryPoint_eq]
  simp only
  split
  · constructor
  · rename_i asAt has
    split
    · constructor
    · exact asks_bind (asks_requiredBody_of_first _ _ (first_of_ite s has).2)
        fun body => .done _

theorem asks_readFunctionDefinition : (readFunctionDefinition s).Asks (·.IsInside s) := by
  rw [readFunctionDefinition_eq]
  simp only
  split
  · constructor
  · rename_i asAt has
    refine asks_bind (asks_ofExcept _) fun name => asks_bind (asks_ofExcept _) fun params => ?_
    exact asks_bind (asks_requiredBody_of_first _ _ (first_of_ite s has).2)
      fun body => .done _

theorem asks_readStructureDefinition : (readStructureDefinition s).Asks (·.IsInside s) := by
  rw [readStructureDefinition_eq]
  simp only
  split
  · exact asks_bind (asks_ofExcept _) fun name => asks_bind (asks_ofExcept _) fun fields => .done _
  · constructor

theorem asks_readIf : (readIf s).Asks (·.IsInside s) := by
  unfold readIf
  split
  · exact asks_map _ (asks_readConditional_singleton s)
  · constructor

theorem asks_readConditionLoop (lead : Keyword) (origin : String)
    (loop : Position → Expr → List Stmt → Stmt) :
    (readConditionLoop lead origin loop s).Asks (·.IsInside s) := by
  rw [readConditionLoop_eq]
  split
  · constructor
  · rename_i doAt hdo
    refine asks_bind (asks_required _ _ _ (isPartOf_extract s _ _)) fun condition => ?_
    exact asks_bind (asks_requiredBody_of_first _ _ (first_of_ite s hdo).2)
      fun body => .done _

theorem asks_readDoLoop : (readDoLoop s).Asks (·.IsInside s) := by
  have hbody := isPartOf_withoutTerminator s
  rw [readDoLoop_eq]
  simp only
  split
  · rename_i hlead
    split
    · constructor
    · split
      · refine asks_bind (asks_required _ _ _ ?_) fun condition => ?_
        · exact (isPartOf_drop _ 1).trans ((isPartOf_drop _ _).trans hbody)
        · refine asks_bind (asks_readBlock _ _ ?_) fun block => .done _
          refine ⟨(isPartOf_extract _ _ _).trans hbody, ?_⟩
          have hblock := length_pos_of_startsWith _ hlead.2
          have hlength := hbody.length_le
          rw [length_drop] at hblock
          rw [length_extract]
          omega
      · constructor
  · constructor

theorem asks_readForEach : (readForEach s).Asks (·.IsInside s) := by
  rw [readForEach_eq]
  simp only
  split
  · constructor
  · split
    · constructor
    · rename_i doAt hdo
      refine asks_bind (asks_ofExcept _) fun name => ?_
      refine asks_bind (asks_required _ _ _ (isPartOf_extract s _ _)) fun iterable => ?_
      exact asks_bind (asks_requiredBody_of_first _ _ hdo) fun body => .done _

theorem asks_readForRange : (readForRange s).Asks (·.IsInside s) := by
  rw [readForRange_eq]
  simp only
  split
  · constructor
  · split
    · constructor
    · split
      · constructor
      · rename_i doAt hdo
        refine asks_bind (asks_ofExcept _) fun name => ?_
        refine asks_bind (asks_required _ _ _ (isPartOf_extract s _ _)) fun start => ?_
        refine asks_bind (asks_required _ _ _ (isPartOf_extract s _ _)) fun stop => ?_
        refine asks_bind (asks_readLoopStep _ _ _ _) fun step => ?_
        exact asks_bind (asks_requiredBody_of_first _ _ hdo)
          fun body => .done _

theorem asks_readRepeat : (readRepeat s).Asks (·.IsInside s) := by
  rw [readRepeat_eq]
  simp only
  split
  · constructor
  · rename_i timesAt htimes
    refine asks_bind (asks_required _ _ _ (isPartOf_extract s _ _)) fun count => ?_
    exact asks_bind
      (asks_requiredBody_of_first _ _ (first_of_ite s htimes).2)
      fun body => .done _

theorem isPartOf_handlerName (handler : Slice) : (handlerName handler).2.IsPartOf handler := by
  rw [handlerName_eq]
  split
  · split
    · exact isPartOf_drop _ _
    · exact .refl _
  · exact .refl _

theorem asks_readTry : (readTry s).Asks (·.IsInside s) := by
  have hall := isPartOf_withoutTerminator s
  rw [readTry_eq]
  simp only
  split
  · constructor
  · refine asks_bind (asks_requiredBlock _ _ ((isPartOf_extract _ _ _).trans hall)) fun body => ?_
    refine asks_bind (asks_requiredBlock _ _ ?_) fun handler => ?_
    · exact (isPartOf_handlerName _).trans ((isPartOf_extract _ _ _).trans hall)
    · split
      · refine asks_bind (asks_map _ (asks_requiredBlock _ _ ?_)) fun cleanup => .done _
        exact (isPartOf_drop _ _).trans hall
      · exact .done _

theorem asks_readAssignment : (readAssignment s).Asks (·.IsInside s) := by
  have hbody := isPartOf_withoutTerminator s
  rw [readAssignment_eq]
  simp only
  split
  · constructor
  · refine asks_bind (asks_required _ _ _ ((isPartOf_extract _ _ _).trans hbody)) fun target => ?_
    have hvalue (origin name : String) (n : Nat) :
        (required origin name (s.withoutTerminator.drop n) s.tokens).Asks (·.IsInside s) :=
      asks_required _ _ _ ((isPartOf_drop _ _).trans hbody)
    split
    · exact asks_bind (hvalue _ _ _) fun value => .done _
    · exact asks_bind (hvalue _ _ _) fun value => .done _
    · constructor

theorem asks_readDeclaration : (readDeclaration s).Asks (·.IsInside s) := by
  rw [readDeclaration_eq]
  simp only
  split
  · constructor
  · refine asks_bind (asks_ofExcept _) fun name => asks_bind (asks_required _ _ _ ?_) fun _ => .done _
    exact (isPartOf_drop _ _).trans (isPartOf_withoutTerminator s)

theorem asks_readIncrement : (readIncrement s).Asks (·.IsInside s) := by
  rw [readIncrement_eq]
  simp only
  split
  · refine asks_bind (asks_ofExcept _) fun name => ?_
    split
    · refine asks_bind (asks_map _ (asks_required _ _ _ ?_)) fun amount => .done _
      exact (isPartOf_drop _ _).trans (isPartOf_withoutTerminator s)
    · exact .done _
  · constructor

theorem asks_readSwap : (readSwap s).Asks (·.IsInside s) := by
  rw [readSwap_eq]
  simp only
  split
  · constructor
  · exact asks_bind (asks_ofExcept _) fun left => asks_bind (asks_ofExcept _) fun right => .done _

theorem asks_readPair (lead separator : Keyword) (origin first second : String)
    (pair : Position → Expr → Expr → Stmt) :
    (readPair lead separator origin first second pair s).Asks (·.IsInside s) := by
  have hbody := isPartOf_withoutTerminator s
  rw [readPair_eq]
  simp only
  split
  · constructor
  · refine asks_bind (asks_required _ _ _ ((isPartOf_extract _ _ _).trans hbody)) fun value => ?_
    exact asks_bind (asks_required _ _ _ ((isPartOf_drop _ _).trans hbody)) fun list => .done _

theorem asks_readValue (leads : List Keyword) (origin : String)
    (statement : Position → Expr → Stmt) :
    (readValue leads origin statement s).Asks (·.IsInside s) := by
  rw [readValue_eq]
  simp only
  split
  · refine asks_bind (asks_required _ _ _ ?_) fun value => .done _
    exact (isPartOf_drop _ _).trans (isPartOf_withoutTerminator s)
  · constructor

theorem asks_readReturn : (readReturn s).Asks (·.IsInside s) := by
  rw [readReturn_eq]
  simp only
  split
  · split
    · constructor
    · refine asks_bind (asks_required _ _ _ ?_) fun value => .done _
      exact (isPartOf_drop _ _).trans (isPartOf_withoutTerminator s)
  · constructor

theorem asks_readBare (lead : Keyword) (origin : String) (statement : Position → Stmt) :
    (readBare lead origin statement s).Asks (·.IsInside s) := by
  rw [readBare_eq]
  simp only
  split
  · split <;> constructor
  · constructor

theorem asks_readImport : (readImport s).Asks (·.IsInside s) := by
  rw [readImport_eq]
  simp only
  split
  · split
    · constructor
    · split
      · split <;> constructor
      · constructor
    · constructor
  · constructor

theorem asks_readReadInto : (readReadInto s).Asks (·.IsInside s) := by
  rw [readReadInto_eq]
  simp only
  split
  · exact asks_bind (asks_ofExcept _) fun name => .done _
  · constructor

theorem asks_readExpressionStatement : (readExpressionStatement s).Asks (·.IsInside s) := by
  rw [readExpressionStatement_eq]
  split
  · constructor
  refine asks_bind (asks_ofExpr (fun _ hq => hq) (Expr.asks_read (isPartOf_withoutTerminator s)))
    fun r => ?_
  split
  · constructor
  · simp only
    split
    · exact .done _
    · exact asks_bind (asks_question trivial) fun _ => .done _

/-- A form of statements asks about parts of its slice, and for blocks without two of its tokens. -/
theorem asks_form_inside (f : Form) : (f.read s).Asks (·.IsInside s) := by
  cases f with
  | block => exact asks_readBlockStatement s
  | entryPoint => exact asks_readEntryPoint s
  | functionDefinition => exact asks_readFunctionDefinition s
  | structureDefinition => exact asks_readStructureDefinition s
  | conditional => exact asks_readIf s
  | whileLoop => exact asks_readConditionLoop s _ _ _
  | untilLoop => exact asks_readConditionLoop s _ _ _
  | doLoop => exact asks_readDoLoop s
  | forEach => exact asks_readForEach s
  | forRange => exact asks_readForRange s
  | repeatLoop => exact asks_readRepeat s
  | tryCatch => exact asks_readTry s
  | assignment => exact asks_readAssignment s
  | declaration => exact asks_readDeclaration s
  | increment => exact asks_readIncrement s
  | print => exact asks_readValue s _ _ _
  | returning => exact asks_readReturn s
  | breaking => exact asks_readBare s _ _ _
  | continuing => exact asks_readBare s _ _ _
  | exiting => exact asks_readBare s _ _ _
  | throwing => exact asks_readValue s _ _ _
  | assertion => exact asks_readValue s _ _ _
  | importing => exact asks_readImport s
  | listAdd => exact asks_readPair s _ _ _ _ _ _
  | listRemove => exact asks_readPair s _ _ _ _ _ _
  | swap => exact asks_readSwap s
  | readInto => exact asks_readReadInto s
  | expression => exact asks_readExpressionStatement s

theorem asks_form (f : Form) : (f.read s).Asks (·.IsWithin s) :=
  (asks_form_inside s f).mono fun _ hq => hq.isWithin

end forms

end Prose.Stmt
