import Prose.Proofs.Expr.OperatorChain

namespace Prose.Expr

open Grammar

def parens (o : Word .openParen) (ts : List Token) (c : Word .closeParen) : List Token :=
  o.val :: (ts ++ [c.val])

/-- A new session reads the slice as the expression, under some limit of nesting. -/
def IsReadAs (s : Slice) (e : Expr) : Prop :=
  ∃ options n rule, s.selection options n = .ok (some (rule, e))

variable {s s' : Slice} {e e' : Expr} {o o' : Word .openParen} {c c' : Word .closeParen}

theorem isRegular_parens (hs : s.IsRegular) : ∀ t ∈ parens o s.tokens c, t.IsRegular := by
  rw [parens, List.forall_mem_cons, List.forall_mem_append, List.forall_mem_singleton]
  exact ⟨Token.isRegular_of_not_plain o.property.2, hs,
    Token.isRegular_of_not_plain c.property.2⟩

theorem IsReadAs.isClosed_parens (h : IsReadAs s e) :
    IsClosed (grouping o.val.position e) (parens o s.tokens c) := by
  obtain ⟨options, n, rule, h⟩ := h
  exact .parens o.property.1 c.property.1 h

/-- What is read is read in parentheses, by the form of parentheses. -/
theorem IsReadAs.outcome_parens (h : IsReadAs s e) (hs : s.IsRegular) (a : Nat) :
    standard.outcome ⟨a, parens o s.tokens c⟩ =
      .ok (some (Form.parenthesized.rule, grouping o.val.position e)) := by
  obtain ⟨options, n, rule, h⟩ := h
  have hread := outcome_of_selection h
  have hnested := wellNested_of_outcome hs hread
  have hinner : standard.outcome ⟨a + 1, s.tokens⟩ = .ok (some (rule, e)) := by
    rw [← hread]
    exact standard.outcome_start _ _ s.tokens
  exact Expr.outcome_parens o.property.1 c.property.1 hnested hinner

/-- An operator between two slices in parentheses reads both as its operands. The one link of this
chain is its root, and no looser form finds its sign outside of the parentheses. -/
theorem IsReadAs.outcome_operator (h : IsReadAs s e) (hs : s.IsRegular) (h' : IsReadAs s' e')
    (hs' : s'.IsRegular) {op : BinaryOp} (w : Word op.role) (a : Nat) :
    standard.outcome ⟨a, parens o s.tokens c ++ w.val :: parens o' s'.tokens c'⟩ =
      .ok (some ((Form.operators op.operatorLevel).rule, binary o.val.position
        (grouping o.val.position e) op (grouping o'.val.position e'))) := by
  have hleft : IsClosed (grouping o.val.position e) (parens o s.tokens c) := h.isClosed_parens
  have hright : IsClosed (grouping o'.val.position e') (parens o' s'.tokens c') :=
    h'.isClosed_parens
  -- Each side is one closed operand, so the chain has no other operator to compare with.
  have hchain := IsChain.link hleft w.property.1 (.operand hright)
  have hregular : ∀ t ∈ parens o s.tokens c ++ w.val :: parens o' s'.tokens c', t.IsRegular := by
    rw [List.forall_mem_append, List.forall_mem_cons]
    exact ⟨isRegular_parens hs, Token.isRegular_of_not_plain w.property.2, isRegular_parens hs'⟩
  have hfloor := op.operatorLevel.le_level
  have hroot : IsRoot [] op [] := ⟨by simp, by simp⟩
  have hverdict := verdict_root hroot (.operand hleft) w.property.1 (.operand hright) hregular a
    ((hleft.fits (isRegular_parens hs) a).mono hfloor)
    ((hright.fits (isRegular_parens hs') _).mono hfloor)
  refine outcome_standard_eq_some_iff.mpr ⟨_, rfl, hchain.length_pos, hverdict, fun f hlt => ?_⟩
  refine hchain.rejects hregular (List.cons_ne_nil _ _) (Nat.lt_of_le_of_lt hfloor hlt) ?_ a
  exact List.forall_mem_singleton.mpr hlt

/-- A slice of condensed tokens that is read as an expression is read in parentheses as the grouping
of that expression, and with any operator between it and another such slice, each in parentheses,
both are read as the operands of that operator. -/
theorem selection_of_parens (hs : s.IsCondensed) (h : IsReadAs s e) :
    (∀ (o : Word .openParen) (c : Word .closeParen) (u : Slice) (options : Options) (n : Nat),
      u.tokens = parens o s.tokens c → u.length < options.maxNestingDepth →
        u.selection options n =
          .ok (some (Form.parenthesized.rule, grouping o.val.position e))) ∧
      ∀ (s' : Slice) (e' : Expr), s'.IsCondensed → IsReadAs s' e' →
        ∀ (op : BinaryOp) (o o' : Word .openParen) (c c' : Word .closeParen) (w : Word op.role)
          (u : Slice) (options : Options) (n : Nat),
          u.tokens = parens o s.tokens c ++ w.val :: parens o' s'.tokens c' →
            u.length < options.maxNestingDepth →
              u.selection options n =
                .ok (some ((Form.operators op.operatorLevel).rule, binary o.val.position
                  (grouping o.val.position e) op (grouping o'.val.position e'))) := by
  constructor
  · rintro o c ⟨a, -⟩ options n rfl hroom
    rw [selection_eq_outcome (Nat.le_of_lt hroom)]
    exact h.outcome_parens hs.isRegular a
  · rintro s' e' hs' h' op o o' c c' w ⟨a, -⟩ options n rfl hroom
    rw [selection_eq_outcome (Nat.le_of_lt hroom)]
    exact h.outcome_operator hs.isRegular h' hs'.isRegular w a

/-- A type check: looser than `multiplied by`, so no operand of it. -/
def checkedNumber : Slice :=
  .ofSource "$x is a number" "t"

/-- A conditional, which takes an operator behind it for a part of its last value. -/
def chosenSum : Slice :=
  .ofSource "if $a then $b plus 1 otherwise $c" "t"

/-- In parentheses both of them are factors. -/
theorem selection_of_parens_product :
    let o := Word.ofRole .openParen
    let c := Word.ofRole .closeParen
    let u : Slice := ⟨0, parens o checkedNumber.tokens c ++
      (Word.ofRole .multipliedBy).val :: parens o chosenSum.tokens c⟩
    checkedNumber.IsCondensed ∧ chosenSum.IsCondensed ∧ u.length < ({} : Options).maxNestingDepth ∧
      ∃ e e', IsReadAs checkedNumber e ∧ IsReadAs chosenSum e' ∧
        u.selection {} 0 = .ok (some ((Form.operators .multiplicative).rule,
          binary o.val.position (grouping o.val.position e) .multiply
            (grouping o.val.position e'))) := by
  intro o c u
  have hcheck := Slice.isCondensed_ofSource "$x is a number" "t"
  have hchosen := Slice.isCondensed_ofSource "if $a then $b plus 1 otherwise $c" "t"
  obtain ⟨⟨rule, e⟩, he⟩ : ∃ r, checkedNumber.selection {} 0 = .ok (some r) :=
    exists_eq_ok_some (by decide +kernel)
  obtain ⟨⟨rule', e'⟩, he'⟩ : ∃ r, chosenSum.selection {} 0 = .ok (some r) :=
    exists_eq_ok_some (by decide +kernel)
  have hroom : u.length < ({} : Options).maxNestingDepth := by decide +kernel
  have h : IsReadAs checkedNumber e := ⟨_, _, _, he⟩
  have h' : IsReadAs chosenSum e' := ⟨_, _, _, he'⟩
  refine ⟨hcheck, hchosen, hroom, e, e', h, h', ?_⟩
  exact (selection_of_parens hcheck h).2 _ _ hchosen h' .multiply o o c c (.ofRole _) u {} 0 rfl
    hroom

end Prose.Expr
