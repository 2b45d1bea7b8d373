import Prose.Proofs.Expr.Height

namespace Prose.Expr

open Inquiry Slice

variable {P : Expr → Prop} {s : Slice} {e : Expr}

section forms

theorem composed_of_readParenthesized
    (h : Reaches (Answers fun _ => P) (readParenthesized s) (some e)) : Composed P e := by
  rw [readParenthesized_eq] at h
  split at h
  · cases reaches_pure_iff.mp h
  · obtain ⟨e', he', h⟩ := reaches_bind_iff.mp h
    cases reaches_pure_iff.mp h
    exact .children (List.forall_mem_singleton.mpr (answer_of_required he'))

theorem composed_of_readArticle (h : Reaches (Answers fun _ => P) (readArticle s) (some e)) :
    Composed P e := by
  rw [readArticle_eq] at h
  split at h
  · split at h
    · obtain ⟨operand, hoperand, h⟩ := reaches_bind_iff.mp h
      cases operand with
      | bound e' =>
        cases reaches_pure_iff.mp h
        exact .moved _ (answer_of_operand hoperand)
      | looser => cases reaches_pure_iff.mp h
      | unread => cases reaches_pure_iff.mp h
    · cases reaches_pure_iff.mp h
  · cases reaches_pure_iff.mp h

/-- A further condition is read by the form itself, so that its parts are asked for as the parts of
the first one are. -/
theorem composed_of_readTernaryFrom {n : Nat}
    (h : Reaches (Answers fun _ => P) (readTernaryFrom n s) (some e)) :
    e.isTernary = true ∧ Composed P e := by
  induction n generalizing s e with
  | zero => cases reaches_pure_iff.mp h
  | succ n ih =>
    rw [readTernaryFrom_succ] at h
    split at h
    · cases reaches_pure_iff.mp h
    split at h
    · cases reaches_pure_iff.mp h
    obtain ⟨c, hc, h⟩ := reaches_bind_iff.mp h
    obtain ⟨a, ha, h⟩ := reaches_bind_iff.mp h
    have hc := answer_of_required hc
    have ha := answer_of_required ha
    simp only at h
    split at h
    · -- Behind `otherwise if` the form reads a conditional again, and no part is asked for.
      obtain ⟨_ | b, hb, h⟩ := reaches_bind_iff.mp h
      · exact (not_reaches_fail _ _ h).elim
      · cases reaches_pure_iff.mp h
        obtain ⟨hternary, hb⟩ := ih hb
        exact ⟨rfl, .chain _ hc ha hternary hb⟩
    · obtain ⟨b, hb, h⟩ := reaches_bind_iff.mp h
      cases reaches_pure_iff.mp h
      have hparts : ∀ x ∈ [c, a, b], P x := by
        simp only [List.forall_mem_cons]
        exact ⟨hc, ha, answer_of_required hb, by simp⟩
      exact ⟨rfl, .children hparts⟩

theorem composed_of_readTernary (h : Reaches (Answers fun _ => P) (readTernary s) (some e)) :
    Composed P e := by
  unfold readTernary at h
  split at h
  · exact (composed_of_readTernaryFrom h).2
  · cases reaches_pure_iff.mp h

/-- The patterns and results of the arms are asked for. -/
theorem answers_of_readArms {whole : List Token} {pieces : List Slice} {arms : List (Expr × Expr)}
    {d : Option Expr} (h : Reaches (Answers fun _ => P) (readArms whole pieces) (arms, d)) :
    ∀ c ∈ arms.flatMap (fun arm => [arm.1, arm.2]) ++ d.toList, P c := by
  induction pieces generalizing arms d with
  | nil =>
    cases reaches_pure_iff.mp h
    exact List.forall_mem_nil P
  | cons arm pieces ih =>
    rw [readArms_cons] at h
    simp only at h
    split at h
    · exact (not_reaches_fail _ _ h).elim
    obtain ⟨r, hr, h⟩ := reaches_bind_iff.mp h
    have hr := answer_of_required hr
    split at h
    · split at h
      · cases reaches_pure_iff.mp h
        exact List.forall_mem_singleton.mpr hr
      · exact (not_reaches_fail _ _ h).elim
    · obtain ⟨p, hp, h⟩ := reaches_bind_iff.mp h
      obtain ⟨⟨rest, d'⟩, hrest, h⟩ := reaches_bind_iff.mp h
      cases reaches_pure_iff.mp h
      exact List.forall_mem_cons.mpr ⟨answer_of_required hp, List.forall_mem_cons.mpr ⟨hr, ih hrest⟩⟩

theorem composed_of_readSelection (h : Reaches (Answers fun _ => P) (readSelection s) (some e)) :
    Composed P e := by
  rw [readSelection_eq] at h
  split at h
  · cases reaches_pure_iff.mp h
  obtain ⟨subject, hsubject, h⟩ := reaches_bind_iff.mp h
  simp only at h
  split at h
  · exact (not_reaches_fail _ _ h).elim
  · obtain ⟨⟨arms, d⟩, hread, h⟩ := reaches_bind_iff.mp h
    cases reaches_pure_iff.mp h
    exact .children (List.forall_mem_cons.mpr
      ⟨answer_of_required hsubject, answers_of_readArms hread⟩)

theorem composed_of_pair {place : Position} {l r : Expr} {op : BinaryOp} (hl : P l) (hr : P r) :
    Composed P (binary place l op r) :=
  .children (List.forall_mem_cons.mpr ⟨hl, List.forall_mem_singleton.mpr hr⟩)

theorem composed_of_readSplit {l : OperatorLevel} {is : List Nat}
    (h : Reaches (Answers fun _ => P) (readSplit s l is) (some e)) : Composed P e := by
  induction is with
  | nil => cases reaches_pure_iff.mp h
  | cons i is ih =>
    rw [readSplit] at h
    split at h
    · exact ih h
    obtain ⟨left, hleft, h⟩ := reaches_bind_iff.mp h
    cases left with
    | bound l =>
      obtain ⟨right, hright, h⟩ := reaches_bind_iff.mp h
      cases right with
      | bound r =>
        cases reaches_pure_iff.mp h
        exact composed_of_pair (answer_of_operand hleft) (answer_of_operand hright)
      | looser => exact ih h
      | unread => exact ih h
    | looser => exact ih h
    | unread => exact ih h

theorem composed_of_readUnary {op : UnaryOp}
    (h : Reaches (Answers fun _ => P) (readUnary op s) (some e)) : Composed P e := by
  rw [readUnary_eq] at h
  split at h
  · obtain ⟨e', rfl, he'⟩ := exists_answer_of_requiredOperand h (fun _ => rfl) rfl
    exact .children (List.forall_mem_singleton.mpr he')
  · cases reaches_pure_iff.mp h

theorem composed_of_readPhraseSplit {p : ArithmeticPhrase} {operands : Slice} {looser : Bool}
    {is : List Nat}
    (h : Reaches (Answers fun _ => P) (readPhraseSplit p s operands looser is) (some e)) :
    Composed P e := by
  induction is generalizing looser with
  | nil =>
    rw [readPhraseSplit] at h
    split at h
    · cases reaches_pure_iff.mp h
    · exact (not_reaches_fail _ _ h).elim
  | cons i is ih =>
    rw [readPhraseSplit] at h
    obtain ⟨_ | ⟨rule, left⟩, hleft, h⟩ := reaches_bind_iff.mp h
    · exact ih h
    obtain ⟨right, hright, h⟩ := reaches_bind_iff.mp h
    cases right with
    | bound r =>
      cases reaches_pure_iff.mp h
      exact composed_of_pair (answer_of_read hleft) (answer_of_operand hright)
    | looser => exact ih h
    | unread => exact ih h

theorem composed_of_readPhrase {p : ArithmeticPhrase}
    (h : Reaches (Answers fun _ => P) (readPhrase p s) (some e)) : Composed P e := by
  simp only [readPhrase_eq] at h
  generalize (if s.startsWith p.lead = true then (s.drop 1).allOf .andWord else []) = ands at h
  split at h
  · cases reaches_pure_iff.mp h
  split at h
  · exact (not_reaches_fail _ _ h).elim
  · exact composed_of_readPhraseSplit h

theorem composed_of_readTypeCheck (h : Reaches (Answers fun _ => P) (readTypeCheck s) (some e)) :
    Composed P e := by
  rw [readTypeCheck_eq] at h
  split at h
  · cases reaches_pure_iff.mp h
  split at h
  · cases reaches_pure_iff.mp h
  obtain ⟨n, -, h⟩ := reaches_bind_iff.mp h
  obtain ⟨e', rfl, he'⟩ := exists_answer_of_requiredOperand h (fun _ => rfl) rfl
  exact .children (List.forall_mem_singleton.mpr he')

theorem composed_of_readNullCheck (h : Reaches (Answers fun _ => P) (readNullCheck s) (some e)) :
    Composed P e := by
  rw [readNullCheck_eq] at h
  simp only at h
  split at h
  · cases reaches_pure_iff.mp h
  split at h
  · cases reaches_pure_iff.mp h
  obtain ⟨e', rfl, he'⟩ := exists_answer_of_requiredOperand h (fun _ => rfl) rfl
  exact .children (List.forall_mem_singleton.mpr he')

theorem composed_of_readCast (h : Reaches (Answers fun _ => P) (readCast s) (some e)) :
    Composed P e := by
  rw [readCast_eq] at h
  split at h
  · cases reaches_pure_iff.mp h
  obtain ⟨e', he', h⟩ := reaches_bind_iff.mp h
  obtain ⟨n, -, h⟩ := reaches_bind_iff.mp h
  cases reaches_pure_iff.mp h
  exact .children (List.forall_mem_singleton.mpr (answer_of_required he'))

theorem composed_of_readSlice (h : Reaches (Answers fun _ => P) (readSlice s) (some e)) :
    Composed P e := by
  rw [readSlice_eq] at h
  split at h
  · cases reaches_pure_iff.mp h
  split at h
  · cases reaches_pure_iff.mp h
  obtain ⟨c, hc, h⟩ := reaches_bind_iff.mp h
  obtain ⟨a, ha, h⟩ := reaches_bind_iff.mp h
  obtain ⟨b, rfl, hb⟩ := exists_answer_of_requiredOperand h (fun _ => rfl) rfl
  have hparts : ∀ x ∈ [c, a, b], P x := by
    simp only [List.forall_mem_cons]
    exact ⟨answer_of_required hc, answer_of_required ha, hb, by simp⟩
  exact .children hparts

theorem composed_of_readIndex (h : Reaches (Answers fun _ => P) (readIndex s) (some e)) :
    Composed P e := by
  rw [readIndex_eq] at h
  simp only at h
  split at h
  · split at h
    · cases reaches_pure_iff.mp h
    obtain ⟨i, hi, h⟩ := reaches_bind_iff.mp h
    obtain ⟨c, rfl, hc⟩ := exists_answer_of_requiredOperand h (fun _ => rfl) rfl
    exact .children (List.forall_mem_cons.mpr
      ⟨hc, List.forall_mem_singleton.mpr (answer_of_required hi)⟩)
  · split at h
    · split at h
      · -- No question is asked for the number of an ordinal.
        obtain ⟨i, hi, h⟩ := reaches_bind_iff.mp h
        obtain ⟨v, -, rfl⟩ := exists_of_literalOr hi
        obtain ⟨c, rfl, hc⟩ := exists_answer_of_requiredOperand h (fun _ => rfl) rfl
        exact .ordinal _ _ v hc
      · cases reaches_pure_iff.mp h
    · cases reaches_pure_iff.mp h

/-- Every item of a list form is asked for. -/
theorem answers_of_readItems {origin name : String} {level : Nat} {whole : List Token}
    {pieces : List Slice} {es : List Expr}
    (h : Reaches (Answers fun _ => P) (readItems origin name level whole pieces) (some es)) :
    ∀ c ∈ es, P c := by
  induction pieces generalizing es with
  | nil =>
    cases reaches_pure_iff.mp h
    exact List.forall_mem_nil P
  | cons part pieces ih =>
    match pieces with
    | [] =>
      obtain ⟨_ | e, he, h⟩ := reaches_bind_iff.mp h
      · cases reaches_pure_iff.mp h
      · cases reaches_pure_iff.mp h
        exact List.forall_mem_singleton.mpr (answer_of_requiredOperand he)
    | next :: pieces =>
      obtain ⟨e, he, h⟩ := reaches_bind_iff.mp h
      obtain ⟨_ | es', hes, h⟩ := reaches_bind_iff.mp h
      · cases reaches_pure_iff.mp h
      · cases reaches_pure_iff.mp h
        exact List.forall_mem_cons.mpr ⟨answer_of_required he, ih hes⟩

theorem composed_of_readCall (h : Reaches (Answers fun _ => P) (readCall s) (some e)) :
    Composed P e := by
  rw [readCall_eq] at h
  simp only at h
  split at h
  · cases reaches_pure_iff.mp h
  split at h
  · exact (not_reaches_fail _ _ h).elim
  split at h
  · cases reaches_pure_iff.mp h
    exact .children (List.forall_mem_nil P)
  · split at h
    · exact (not_reaches_fail _ _ h).elim
    · exact (not_reaches_fail _ _ h).elim
  · split at h
    · obtain ⟨_ | es, hes, h⟩ := reaches_bind_iff.mp h
      · cases reaches_pure_iff.mp h
      · cases reaches_pure_iff.mp h
        exact .children (answers_of_readItems hes)
    · exact (not_reaches_fail _ _ h).elim

theorem composed_of_readList (h : Reaches (Answers fun _ => P) (readList s) (some e)) :
    Composed P e := by
  rw [readList_eq] at h
  split at h
  · cases reaches_pure_iff.mp h
    exact .children (List.forall_mem_nil P)
  · split at h
    · obtain ⟨_ | es, hes, h⟩ := reaches_bind_iff.mp h
      · cases reaches_pure_iff.mp h
      · cases reaches_pure_iff.mp h
        exact .children (answers_of_readItems hes)
    · cases reaches_pure_iff.mp h

theorem composed_of_literalOr {origin : String} {t : Token} {value : Except LiteralFault Literal}
    (h : Reaches (Answers fun _ => P) (literalOr origin t value) e) : Composed P e := by
  obtain ⟨v, -, rfl⟩ := exists_of_literalOr h
  exact .children (List.forall_mem_nil P)

end forms

/-- What a form accepts is made of the expressions that it asked for. -/
theorem composed_of_form (f : Form) (h : Reaches (Answers fun _ => P) (f.read s) (some e)) :
    Composed P e := by
  cases f with
  | parenthesized => exact composed_of_readParenthesized h
  | article => exact composed_of_readArticle h
  | ternary => exact composed_of_readTernary h
  | selection => exact composed_of_readSelection h
  | operators l =>
    rw [Form.read, readOperators_eq] at h
    exact composed_of_readSplit h
  | unary op => exact composed_of_readUnary h
  | typeCheck => exact composed_of_readTypeCheck h
  | nullCheck => exact composed_of_readNullCheck h
  | phrase p => exact composed_of_readPhrase h
  | cast => exact composed_of_readCast h
  | slice => exact composed_of_readSlice h
  | index => exact composed_of_readIndex h
  | call => exact composed_of_readCall h
  | list => exact composed_of_readList h
  -- A literal and a name have no parts, so nothing is asked for.
  | number =>
    obtain ⟨t, q, -, hq, h⟩ := exists_of_readToken h
    split at hq
    · obtain rfl := Option.some.inj hq
      exact composed_of_literalOr h
    · cases hq
  | ordinal =>
    obtain ⟨t, q, -, hq, h⟩ := exists_of_readToken h
    split at hq
    · obtain rfl := Option.some.inj hq
      exact composed_of_literalOr h
    · cases hq
  | text =>
    obtain ⟨t, q, -, hq, h⟩ := exists_of_readToken h
    split at hq
    · obtain rfl := Option.some.inj hq
      exact composed_of_literalOr h
    · obtain rfl := Option.some.inj hq
      exact composed_of_literalOr h
    · cases hq
  | constant =>
    obtain ⟨t, q, -, hq, h⟩ := exists_of_readToken h
    obtain ⟨v, -, rfl⟩ := Option.map_eq_some_iff.mp hq
    cases reaches_pure_iff.mp h
    exact .children (List.forall_mem_nil P)
  | identifier =>
    rw [Form.read, readIdentifier_eq] at h
    have hname := (reaches_pure_iff.mp h).symm
    obtain ⟨n, -, rfl⟩ := Option.map_eq_some_iff.mp hname
    exact .children (List.forall_mem_nil P)

end Prose.Expr
