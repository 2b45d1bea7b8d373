import Prose.Proofs.Expr.Outcome
import Prose.Proofs.Expr.Relocation
import Prose.Proofs.Inquiry
import Prose.Proofs.Slice.Relocation

namespace Prose.Inquiry

variable {Q : Type} {R : Q → Type} [Relocates Q] {α β : Type} [Relocates α] [Relocates β]
  {ρ : Relocation} {reply : (q : Q) → R q → R (relocate ρ q)}

/-- The second inquiry is the first one about relocated things; `reply` relocates the answers. -/
inductive Mirrors (reply : (q : Q) → R q → R (relocate ρ q)) :
    Inquiry Q R α → Inquiry Q R α → Prop
  | done (a : α) : Mirrors reply (done a) (done (relocate ρ a))
  | fail (p : Problem) : Mirrors reply (fail p) (fail (relocate ρ p))
  | ask {q : Q} {next : R q → Inquiry Q R α} {next' : R (relocate ρ q) → Inquiry Q R α}
      (h : ∀ r, Mirrors reply (next r) (next' (reply q r))) :
      Mirrors reply (ask q next) (ask (relocate ρ q) next')

theorem mirrors_pure {a b : α} (h : relocate ρ a = b) :
    Mirrors reply (pure a) (pure b) :=
  h ▸ .done a

theorem mirrors_bind {x x' : Inquiry Q R α} {f f' : α → Inquiry Q R β} (hx : Mirrors reply x x')
    (hf : ∀ a, Mirrors reply (f a) (f' (relocate ρ a))) : Mirrors reply (x >>= f) (x' >>= f') := by
  change Mirrors reply (x.bind f) (x'.bind f')
  induction hx with
  | done a => exact hf a
  | fail p => exact .fail p
  | ask _ ih => exact .ask ih

theorem mirrors_map {x x' : Inquiry Q R α} {f f' : α → β} (hx : Mirrors reply x x')
    (hf : ∀ a, relocate ρ (f a) = f' (relocate ρ a)) : Mirrors reply (f <$> x) (f' <$> x') :=
  mirrors_bind hx fun a => mirrors_pure (hf a)

/-- Two runs side by side. Where the steps that answer a question take related states to related
states and give relocated answers, the runs of the inquiries do so with their ends. -/
theorem Mirrors.run {S : Type} {K : S → S → Prop} {P : Q → Prop}
    {answer answer' : (q : Q) → ExceptT Problem (StateM S) (R q)}
    (h : ∀ q, P q → ∀ σ τ, K σ τ →
      ((answer' (relocate ρ q)).run.run τ).1 = ρ.result (reply q) ((answer q).run.run σ).1 ∧
        K ((answer q).run.run σ).2 ((answer' (relocate ρ q)).run.run τ).2)
    {x x' : Inquiry Q R α} (hm : Mirrors reply x x') (hx : x.Asks P) {σ τ : S} (hK : K σ τ) :
    ((x'.run answer').run.run τ).1 = relocate ρ ((x.run answer).run.run σ).1 ∧
      K ((x.run answer).run.run σ).2 ((x'.run answer').run.run τ).2 := by
  induction hm generalizing σ τ with
  | done a => exact ⟨rfl, hK⟩
  | fail p => exact ⟨rfl, hK⟩
  | @ask q next next' hnext ih =>
    cases hx with
    | ask hq hasks =>
      -- The answers are related, so the inquiries go on side by side or fail together.
      obtain ⟨hresult, hstates⟩ := h q hq σ τ hK
      rw [Inquiry.run, Inquiry.run, run_bind, run_bind]
      generalize (answer q).run.run σ = first at hresult hstates
      generalize (answer' (relocate ρ q)).run.run τ = first' at hresult hstates
      obtain ⟨r | r, σ'⟩ := first
      · obtain ⟨r', τ'⟩ := first'
        cases hresult
        exact ⟨rfl, hstates⟩
      · obtain ⟨r', τ'⟩ := first'
        cases hresult
        exact ih r (hasks r) hstates

/-- The same without a state: relocated answers lead to the relocated end. -/
theorem Mirrors.resolve {P : Q → Prop} {answer answer' : (q : Q) → Except Problem (R q)}
    (h : ∀ q, P q → answer' (relocate ρ q) = ρ.result (reply q) (answer q))
    {x x' : Inquiry Q R α} (hm : Mirrors reply x x') (hx : x.Asks P) :
    x'.resolve answer' = relocate ρ (x.resolve answer) := by
  induction hm with
  | done a => rfl
  | fail p => rfl
  | @ask q next next' _ ih =>
    cases hx with
    | ask hq hasks =>
      rw [resolve_ask, resolve_ask, h q hq]
      cases answer q with
      | error p => rfl
      | ok r => exact ih r (hasks r)

end Prose.Inquiry

namespace Prose.Expr

open Inquiry

variable (ρ : Relocation)

abbrev Mirrors {α : Type} [Relocates α] (ρ : Relocation) (x x' : Query α) : Prop :=
  Inquiry.Mirrors (ρ := ρ) (fun (_ : Slice) (r : Reading) => relocate ρ r) x x'

section parts

variable (origin name : String) (part : Slice) (whole : List Token)

theorem mirrors_read : Mirrors ρ (read part) (read (relocate ρ part)) := by
  apply Mirrors.ask
  intro r
  exact .done r

@[simp] theorem relocate_missingPart (ts : List Token) :
    relocate ρ (missingPart origin name ts) = missingPart origin name (relocate ρ ts) := rfl

@[simp] theorem relocate_invalidPart (ts : List Token) :
    relocate ρ (invalidPart origin name ts) = invalidPart origin name (relocate ρ ts) := rfl

theorem mirrors_requiredOr (missing invalid : Problem) :
    Mirrors ρ (requiredOr missing invalid part)
      (requiredOr (relocate ρ missing) (relocate ρ invalid) (relocate ρ part)) := by
  unfold requiredOr
  rw [Slice.isEmpty_relocate]
  split
  · exact .fail missing
  · apply mirrors_bind (mirrors_read ρ part)
    intro r
    cases r with
    | none => exact .fail invalid
    | some r => exact .done r.2

theorem mirrors_required :
    Mirrors ρ (required origin name part whole)
      (required origin name (relocate ρ part) (relocate ρ whole)) :=
  mirrors_requiredOr ρ part _ _

theorem mirrors_requiredType :
    Mirrors ρ (requiredType origin part whole)
      (requiredType origin (relocate ρ part) (relocate ρ whole)) := by
  obtain ⟨a, _ | ⟨t, _ | ⟨u, us⟩⟩⟩ := part
  · exact .fail _
  · have hkeyword : (relocate ρ t).keyword = t.keyword := rfl
    simp only [requiredType, Slice.tokens_relocate, relocate_cons, relocate_nil, hkeyword]
    cases TypeName.ofKeyword? t.keyword with
    | some n => exact .done n
    | none => exact .fail _
  · exact .fail _

theorem mirrors_ruleBehind (rule : Rule) (start : Nat) (ts : List Token) :
    Mirrors ρ (ruleBehind rule start ts)
      (ruleBehind rule (start + ρ.offset) (relocate ρ ts)) := by
  induction ts generalizing rule start with
  | nil => exact .done rule
  | cons t ts ih =>
    match ts, ih with
    | [], _ => exact .done rule
    | u :: us, ih =>
      have hstart : start + ρ.offset + 1 = start + 1 + ρ.offset := Nat.add_right_comm ..
      rw [relocate_cons, relocate_cons, ruleBehind, ruleBehind, hstart]
      split
      · apply mirrors_bind (mirrors_read ρ ⟨start + 1, u :: us⟩)
        intro r
        cases r with
        | none => exact .done rule
        | some r => exact ih r.1 (start + 1)
      · exact .done rule

theorem mirrors_operand (level : Nat) (side : Side) :
    Mirrors ρ (operand level side part) (operand level side (relocate ρ part)) := by
  apply mirrors_bind (mirrors_read ρ part)
  intro r
  cases r with
  | none => exact .done Operand.unread
  | some r =>
    apply mirrors_bind (mirrors_ruleBehind ρ r.1 part.start part.tokens)
    intro rule
    apply mirrors_pure
    simp only [relocate_rule]
    split <;> rfl

theorem mirrors_requiredOperand (level : Nat) (side : Side) :
    Mirrors ρ (requiredOperand origin name level side part whole)
      (requiredOperand origin name level side (relocate ρ part) (relocate ρ whole)) := by
  unfold requiredOperand
  rw [Slice.isEmpty_relocate]
  split
  · exact .fail _
  · apply mirrors_bind (mirrors_operand ρ part level side)
    intro r
    cases r with
    | bound e => exact .done (some e)
    | looser => exact .done none
    | unread => exact .fail _

theorem mirrors_literalOr (t : Token) (value : Except LiteralFault Literal) :
    Mirrors ρ (literalOr origin t value) (literalOr origin (relocate ρ t) value) := by
  cases value with
  | ok v => exact .done _
  | error fault => exact .fail _

end parts

section forms

variable (s : Slice)

theorem mirrors_readParenthesized :
    Mirrors ρ (readParenthesized s) (readParenthesized (relocate ρ s)) := by
  simp only [readParenthesized_eq, Slice.enclosed_relocate, Slice.position_relocate]
  cases s.enclosed .openParen with
  | none => exact .done none
  | some inner =>
    apply mirrors_bind (mirrors_required ρ _ _ inner s.tokens)
    intro e
    exact .done _

theorem mirrors_readArticle : Mirrors ρ (readArticle s) (readArticle (relocate ρ s)) := by
  obtain ⟨a, _ | ⟨t, _ | ⟨u, us⟩⟩⟩ := s
  · exact .done none
  · exact .done none
  · simp only [readArticle_eq, Slice.drop_relocate, Slice.tokens_relocate, relocate_cons,
      Token.keyword_relocate]
    split
    · apply mirrors_bind (mirrors_operand ρ _ _ _)
      intro r
      cases r with
      | bound e => exact mirrors_pure (congrArg some (relocate_movedTo ρ _ e))
      | looser => exact .done none
      | unread => exact .done none
    · exact .done none

theorem mirrors_readTernaryFrom (n : Nat) :
    Mirrors ρ (readTernaryFrom n s) (readTernaryFrom n (relocate ρ s)) := by
  induction n generalizing s with
  | zero => exact .done none
  | succ n ih =>
    simp only [readTernaryFrom_succ, Slice.first_relocate, Slice.drop_relocate, Slice.firstOf_relocate,
      Slice.extract_relocate, Slice.tokens_relocate, Slice.position_relocate]
    split
    · exact .done none
    · split
      · exact .done none
      · apply mirrors_bind (mirrors_required ρ _ _ _ _)
        intro condition
        apply mirrors_bind (mirrors_required ρ _ _ _ _)
        intro thenValue
        -- What follows `otherwise if` is a conditional of its own.
        split
        · apply mirrors_bind (ih _)
          intro r
          cases r with
          | none => exact .fail _
          | some e => exact .done _
        · apply mirrors_bind (mirrors_required ρ _ _ _ _)
          intro elseValue
          exact .done _

theorem mirrors_readTernary : Mirrors ρ (readTernary s) (readTernary (relocate ρ s)) := by
  unfold readTernary
  rw [Slice.startsWith_relocate, Slice.length_relocate]
  split
  · exact mirrors_readTernaryFrom ρ s _
  · exact .done none

theorem mirrors_readArms (whole : List Token) (arms : List Slice) :
    Mirrors ρ (readArms whole arms) (readArms (relocate ρ whole) (relocate ρ arms)) := by
  induction arms with
  | nil => exact .done _
  | cons arm arms ih =>
    simp only [relocate_cons, readArms_cons, Slice.first_relocate, Slice.isEmpty_relocate,
      Slice.tokens_relocate, Slice.drop_relocate, Slice.take_relocate, Slice.startsWith_relocate,
      isEmpty_relocate_list]
    split
    · split <;> exact .fail _
    · apply mirrors_bind (mirrors_required ρ _ _ _ _)
      intro result
      split
      · split
        · exact .done _
        · exact .fail _
      · apply mirrors_bind (mirrors_required ρ _ _ _ _)
        intro pattern
        apply mirrors_bind ih
        intro rest
        exact .done _

theorem mirrors_readSelection : Mirrors ρ (readSelection s) (readSelection (relocate ρ s)) := by
  simp only [readSelection_eq, Slice.startsWith_relocate, Slice.first_relocate,
    Slice.extract_relocate, Slice.drop_relocate, Slice.tokens_relocate, Slice.isEmpty_relocate,
    Slice.split_relocate, Slice.position_relocate]
  split
  · exact .done none
  · apply mirrors_bind (mirrors_required ρ _ _ _ _)
    intro subject
    split
    · exact .fail _
    · apply mirrors_bind (mirrors_readArms ρ _ _)
      intro arms
      exact mirrors_pure (congrArg some (relocate_selection ρ _ _ _ _))

theorem mirrors_readSplit (l : OperatorLevel) (is : List Nat) :
    Mirrors ρ (readSplit s l is) (readSplit (relocate ρ s) l is) := by
  induction is with
  | nil => exact .done none
  | cons i is ih =>
    have hoperator : ((relocate ρ s).tokens[i]?.bind fun t => l.operators.lookup t.keyword) =
        s.tokens[i]?.bind fun t => l.operators.lookup t.keyword := by
      rw [Slice.tokens_relocate, Slice.getElem?_relocate_list]
      cases s.tokens[i]? <;> rfl
    simp only [readSplit, hoperator, Slice.length_relocate, Slice.take_relocate,
      Slice.drop_relocate, Slice.position_relocate]
    split
    · exact ih
    · apply mirrors_bind (mirrors_operand ρ _ _ _)
      intro left
      cases left with
      | bound left =>
        apply mirrors_bind (mirrors_operand ρ _ _ _)
        intro right
        cases right with
        | bound right => exact .done _
        | looser => exact ih
        | unread => exact ih
      | looser => exact ih
      | unread => exact ih

theorem mirrors_readOperators (l : OperatorLevel) :
    Mirrors ρ (readOperators l s) (readOperators l (relocate ρ s)) := by
  simp only [readOperators_eq, Slice.positionsOf_relocate]
  exact mirrors_readSplit ρ s l _

/-- A required operand becomes an operand of the form, or the form is rejected. -/
theorem mirrors_bind_requiredOperand {x x' : Query (Option Expr)} {f f' : Expr → Expr}
    (hx : Mirrors ρ x x') (hf : ∀ e, relocate ρ (f e) = f' (relocate ρ e)) :
    Mirrors ρ
      (do
        match ← x with
        | some e => pure (some (f e))
        | none => pure none)
      (do
        match ← x' with
        | some e => pure (some (f' e))
        | none => pure none) := by
  apply mirrors_bind hx
  intro r
  cases r with
  | none => exact .done none
  | some e => exact mirrors_pure (congrArg some (hf e))

theorem mirrors_readUnary (op : UnaryOp) :
    Mirrors ρ (readUnary op s) (readUnary op (relocate ρ s)) := by
  simp only [readUnary_eq, Slice.startsWith_relocate, Slice.length_relocate, Slice.drop_relocate,
    Slice.tokens_relocate, Slice.position_relocate]
  split
  · exact mirrors_bind_requiredOperand ρ (mirrors_requiredOperand ρ _ _ _ _ _ _) fun e => rfl
  · exact .done none

theorem phraseHint_relocate : phraseHint (relocate ρ s) = phraseHint s := by
  simp only [phraseHint, Slice.head?_relocate]
  cases s.head? <;> rfl

theorem mirrors_readPhraseSplit (p : ArithmeticPhrase) (operands : Slice) (looser : Bool)
    (is : List Nat) :
    Mirrors ρ (readPhraseSplit p s operands looser is)
      (readPhraseSplit p (relocate ρ s) (relocate ρ operands) looser is) := by
  induction is generalizing looser with
  | nil =>
    simp only [readPhraseSplit, Slice.tokens_relocate, phraseHint_relocate]
    split
    · exact .done none
    · exact .fail _
  | cons i is ih =>
    simp only [readPhraseSplit, Slice.take_relocate, Slice.drop_relocate, Slice.position_relocate]
    apply mirrors_bind (mirrors_read ρ _)
    intro left
    cases left with
    | none => exact ih looser
    | some left =>
      apply mirrors_bind (mirrors_operand ρ _ _ _)
      intro right
      cases right with
      | bound right => exact .done _
      | looser => exact ih true
      | unread => exact ih looser

theorem mirrors_readPhrase (p : ArithmeticPhrase) :
    Mirrors ρ (readPhrase p s) (readPhrase p (relocate ρ s)) := by
  simp only [readPhrase_eq, Slice.startsWith_relocate, Slice.drop_relocate, Slice.allOf_relocate,
    Slice.length_relocate, Slice.tokens_relocate, phraseHint_relocate]
  generalize (if s.startsWith p.lead then (s.drop 1).allOf .andWord else []) = ands
  split
  · exact .done none
  · split
    · exact .fail _
    · exact mirrors_readPhraseSplit ρ s p _ _ _

theorem mirrors_readTypeCheck : Mirrors ρ (readTypeCheck s) (readTypeCheck (relocate ρ s)) := by
  simp only [readTypeCheck_eq, Slice.allOf_relocate, Slice.length_relocate, Slice.drop_relocate,
    Slice.take_relocate, Slice.tokens_relocate, Slice.position_relocate]
  split
  · exact .done none
  · split
    · exact .done none
    · apply mirrors_bind (mirrors_requiredType ρ _ _ _)
      intro n
      exact mirrors_bind_requiredOperand ρ (mirrors_requiredOperand ρ _ _ _ _ _ _) fun e => rfl

theorem mirrors_readNullCheck : Mirrors ρ (readNullCheck s) (readNullCheck (relocate ρ s)) := by
  have hlast : (relocate ρ s.tokens).getLast?.map (·.keyword) =
      s.tokens.getLast?.map (·.keyword) := by
    rw [Slice.getLast?_relocate_list]
    cases s.tokens.getLast? <;> rfl
  simp only [readNullCheck_eq, Slice.length_relocate, Slice.take_relocate, Slice.tokens_relocate,
    Slice.position_relocate, hlast]
  split
  · exact .done none
  · split
    · exact .done none
    · exact mirrors_bind_requiredOperand ρ (mirrors_requiredOperand ρ _ _ _ _ _ _) fun e => rfl

theorem mirrors_readCast : Mirrors ρ (readCast s) (readCast (relocate ρ s)) := by
  simp only [readCast_eq, Slice.startsWith_relocate, Slice.first_relocate, Slice.extract_relocate,
    Slice.drop_relocate, Slice.tokens_relocate, Slice.position_relocate]
  split
  · exact .done none
  · apply mirrors_bind (mirrors_required ρ _ _ _ _)
    intro e
    apply mirrors_bind (mirrors_requiredType ρ _ _ _)
    intro n
    exact .done _

theorem mirrors_readSlice : Mirrors ρ (readSlice s) (readSlice (relocate ρ s)) := by
  simp only [readSlice_eq, Slice.startsWith_relocate, Slice.first_relocate, Slice.extract_relocate,
    Slice.drop_relocate, Slice.tokens_relocate, Slice.position_relocate]
  split
  · exact .done none
  · split
    · exact .done none
    · apply mirrors_bind (mirrors_required ρ _ _ _ _)
      intro collection
      apply mirrors_bind (mirrors_required ρ _ _ _ _)
      intro start
      exact mirrors_bind_requiredOperand ρ (mirrors_requiredOperand ρ _ _ _ _ _ _) fun e => rfl

theorem mirrors_readCollection (index : Expr) (rest : Slice) :
    Mirrors ρ (readCollection s s.position index rest)
      (readCollection (relocate ρ s) (relocate ρ s).position (relocate ρ index)
        (relocate ρ rest)) := by
  simp only [readCollection, Slice.tokens_relocate, Slice.position_relocate]
  exact mirrors_bind_requiredOperand ρ (mirrors_requiredOperand ρ _ _ _ _ _ _) fun e => rfl

theorem mirrors_readIndex : Mirrors ρ (readIndex s) (readIndex (relocate ρ s)) := by
  simp only [readIndex_eq, Slice.startsWith_relocate, Slice.first_relocate, Slice.extract_relocate,
    Slice.drop_relocate]
  split
  · split
    · exact .done none
    · apply mirrors_bind (mirrors_required ρ _ _ _ _)
      intro index
      exact mirrors_readCollection ρ s index _
  · obtain ⟨a, _ | ⟨t, _ | ⟨u, _ | ⟨v, vs⟩⟩⟩⟩ := s
    · exact .done none
    · exact .done none
    · exact .done none
    · simp only [Slice.tokens_relocate, relocate_cons, Token.keyword_relocate,
        Token.ordinalValue_relocate]
      split
      · apply mirrors_bind (mirrors_literalOr ρ _ _ _)
        intro index
        exact mirrors_readCollection ρ _ index _
      · exact .done none

theorem mirrors_readItems (origin name : String) (level : Nat) (whole : List Token)
    (parts : List Slice) :
    Mirrors ρ (readItems origin name level whole parts)
      (readItems origin name level (relocate ρ whole) (relocate ρ parts)) := by
  induction parts with
  | nil => exact .done _
  | cons part parts ih =>
    match parts, ih with
    | [], _ =>
      apply mirrors_bind (mirrors_requiredOperand ρ _ _ _ _ _ _)
      intro r
      cases r with
      | none => exact .done none
      | some e => exact .done _
    | _ :: _, ih =>
      apply mirrors_bind (mirrors_required ρ _ _ _ _)
      intro e
      apply mirrors_bind ih
      intro r
      cases r with
      | none => exact .done none
      | some es => exact .done _

/-- Items become the parts of the form, or the form is rejected. -/
theorem mirrors_bind_readItems {x x' : Query (Option (List Expr))} {f f' : List Expr → Expr}
    (hx : Mirrors ρ x x') (hf : ∀ es, relocate ρ (f es) = f' (relocate ρ es)) :
    Mirrors ρ
      (do
        match ← x with
        | some es => pure (some (f es))
        | none => pure none)
      (do
        match ← x' with
        | some es => pure (some (f' es))
        | none => pure none) := by
  apply mirrors_bind hx
  intro r
  cases r with
  | none => exact .done none
  | some es => exact mirrors_pure (congrArg some (hf es))

theorem mirrors_readCall : Mirrors ρ (readCall s) (readCall (relocate ρ s)) := by
  have hbehind : (if s.startsWith .call then (relocate ρ s).tokens.drop 1 else []) =
      relocate ρ (if s.startsWith .call then s.tokens.drop 1 else []) := by
    split
    · exact (List.map_drop ..).symm
    · rfl
  simp only [readCall_eq, Slice.startsWith_relocate, hbehind, Slice.drop_relocate,
    Slice.split_relocate, Slice.position_relocate]
  generalize (if s.startsWith .call then s.tokens.drop 1 else []) = ts
  obtain _ | ⟨f, rest⟩ := ts
  · exact .done none
  · simp only [relocate_cons, Token.name?_relocate]
    split
    · exact .fail _
    · obtain _ | ⟨t, _ | ⟨u, us⟩⟩ := rest
      · exact .done _
      · simp only [relocate_cons, relocate_nil, Token.keyword_relocate]
        split <;> exact .fail _
      · simp only [relocate_cons, Token.keyword_relocate]
        split
        · exact mirrors_bind_readItems ρ (mirrors_readItems ρ _ _ _ _ _) (relocate_call ρ _ _)
        · exact .fail _

theorem mirrors_readList : Mirrors ρ (readList s) (readList (relocate ρ s)) := by
  simp only [readList_eq, Slice.length_relocate, Slice.startsWith_relocate, Slice.drop_relocate,
    Slice.split_relocate, Slice.tokens_relocate, Slice.position_relocate]
  split
  · exact .done _
  · split
    · exact mirrors_bind_readItems ρ (mirrors_readItems ρ _ _ _ _ _) (relocate_list ρ _)
    · exact .done none

/-- A form of one token does not ask anything. -/
theorem mirrors_readToken {value : Token → Option (Query Expr)}
    (h : ∀ t, (value t = none ∧ value (relocate ρ t) = none) ∨
      ∃ q q', value t = some q ∧ value (relocate ρ t) = some q' ∧ Mirrors ρ q q') :
    Mirrors ρ (readToken s value) (readToken (relocate ρ s) value) := by
  obtain ⟨a, _ | ⟨t, _ | ⟨u, us⟩⟩⟩ := s
  · exact .done none
  · simp only [readToken, Slice.tokens_relocate, relocate_cons, relocate_nil]
    obtain ⟨hvalue, hvalue'⟩ | ⟨q, q', hvalue, hvalue', hq⟩ := h t
    · rw [hvalue, hvalue']
      exact .done none
    · rw [hvalue, hvalue']
      exact mirrors_map hq fun e => rfl
  · exact .done none

theorem mirrors_readNumber : Mirrors ρ (readNumber s) (readNumber (relocate ρ s)) := by
  apply mirrors_readToken
  intro t
  simp only [Token.kind_relocate, Token.numberValue_relocate]
  split
  · exact .inr ⟨_, _, rfl, rfl, mirrors_literalOr ρ _ t _⟩
  · exact .inl ⟨rfl, rfl⟩

theorem mirrors_readOrdinal : Mirrors ρ (readOrdinal s) (readOrdinal (relocate ρ s)) := by
  apply mirrors_readToken
  intro t
  simp only [Token.keyword_relocate, Token.ordinalValue_relocate]
  split
  · exact .inr ⟨_, _, rfl, rfl, mirrors_literalOr ρ _ t _⟩
  · exact .inl ⟨rfl, rfl⟩

theorem mirrors_readText : Mirrors ρ (readText s) (readText (relocate ρ s)) := by
  apply mirrors_readToken
  intro t
  simp only [Token.kind_relocate, Token.unescaped_relocate, Token.characterValue_relocate]
  split
  · exact .inr ⟨_, _, rfl, rfl, mirrors_literalOr ρ _ t _⟩
  · exact .inr ⟨_, _, rfl, rfl, mirrors_literalOr ρ _ t _⟩
  · exact .inl ⟨rfl, rfl⟩

theorem mirrors_readConstant : Mirrors ρ (readConstant s) (readConstant (relocate ρ s)) := by
  apply mirrors_readToken
  intro t
  simp only [Token.keyword_relocate]
  cases constant? t.keyword with
  | none => exact .inl ⟨rfl, rfl⟩
  | some v => exact .inr ⟨_, _, rfl, rfl, .done _⟩

theorem mirrors_readIdentifier :
    Mirrors ρ (readIdentifier s) (readIdentifier (relocate ρ s)) := by
  simp only [readIdentifier_eq, Slice.name?_relocate, Slice.position_relocate]
  cases s.name? <;> exact .done _

/-- A form asks about a relocated slice what it asks about the slice itself. -/
theorem mirrors_form (f : Form) : Mirrors ρ (f.read s) (f.read (relocate ρ s)) := by
  cases f with
  | parenthesized => exact mirrors_readParenthesized ρ s
  | article => exact mirrors_readArticle ρ s
  | ternary => exact mirrors_readTernary ρ s
  | selection => exact mirrors_readSelection ρ s
  | operators l => exact mirrors_readOperators ρ s l
  | unary op => exact mirrors_readUnary ρ s op
  | typeCheck => exact mirrors_readTypeCheck ρ s
  | nullCheck => exact mirrors_readNullCheck ρ s
  | phrase p => exact mirrors_readPhrase ρ s p
  | cast => exact mirrors_readCast ρ s
  | slice => exact mirrors_readSlice ρ s
  | index => exact mirrors_readIndex ρ s
  | call => exact mirrors_readCall ρ s
  | list => exact mirrors_readList ρ s
  | number => exact mirrors_readNumber ρ s
  | ordinal => exact mirrors_readOrdinal ρ s
  | text => exact mirrors_readText ρ s
  | constant => exact mirrors_readConstant ρ s
  | identifier => exact mirrors_readIdentifier ρ s

end forms

end Prose.Expr

namespace Prose

open Prose.Expr

variable (ρ : Relocation)

theorem firstVerdict_relocate {verdict verdict' : Form → Except Problem (Option Expr)}
    (h : ∀ f, verdict' f = relocate ρ (verdict f)) (rules : List Rule) :
    firstVerdict verdict' rules = relocate ρ (firstVerdict verdict rules) := by
  induction rules with
  | nil => rfl
  | cons rule rules ih =>
    rw [firstVerdict, firstVerdict, h]
    rcases verdict rule.form with p | _ | e
    · rfl
    · exact ih
    · rfl

/-- The cascade comes to the same about a relocated slice, in the relocated places. -/
theorem Grammar.outcome_relocate (g : Grammar) (s : Slice) :
    g.outcome (relocate ρ s) = relocate ρ (g.outcome s) := by
  induction hn : s.length using Nat.strongRecOn generalizing s with
  | _ n ih =>
    by_cases hempty : s.isEmpty = true
    · rw [g.outcome_of_isEmpty hempty, g.outcome_of_isEmpty (by rwa [Slice.isEmpty_relocate])]
      rfl
    · have hpos := s.length_pos_of_not_isEmpty hempty
      rw [g.outcome_eq_firstVerdict hpos,
        g.outcome_eq_firstVerdict (by rwa [Slice.length_relocate])]
      refine firstVerdict_relocate ρ (fun f => ?_) _
      refine (mirrors_form ρ s f).resolve (fun q hq => ?_) (asks_form f s)
      exact ih q.length (hn ▸ hq.2) q rfl

/-- What a slice is read as does not depend on where it begins. -/
theorem Grammar.outcome_start (g : Grammar) (a b : Nat) (ts : List Token) :
    g.outcome ⟨a, ts⟩ = g.outcome ⟨b, ts⟩ := by
  have hzero (n : Nat) : g.outcome ⟨n, ts⟩ = g.outcome ⟨0, ts⟩ := by
    have hmoved := g.outcome_relocate (.along n) ⟨0, ts⟩
    rw [relocate_along_slice, Nat.zero_add] at hmoved
    rw [hmoved]
    rcases g.outcome ⟨0, ts⟩ with p | _ | ⟨rule, e⟩
    · exact congrArg Except.error (relocate_along_problem n p)
    · rfl
    · rw [relocate_ok, relocate_some, relocate_prod, relocate_rule, relocate_along_expr]
  rw [hzero a, hzero b]

end Prose
