import Prose.Proofs.Expr.Derivation
import Prose.Proofs.Expr.Indices
import Prose.Proofs.Expr.Outcome
import Prose.Proofs.Expr.Questions
import Prose.Proofs.Slice.Cut

namespace Prose.Expr

open Inquiry Slice

def Sound (q : Slice) (r : Reading) : Prop :=
  ∀ rule e, r = some (rule, e) → e.Derives q.tokens

variable {s part : Slice} {whole : List Token} {origin name : String} {e : Expr}

section parts

theorem derives_of_read {rule : Rule} (h : Reaches Sound (read part) (some (rule, e))) :
    e.Derives part.tokens :=
  answer_of_read (A := fun q e => e.Derives q.tokens) h

theorem derives_of_requiredOr {missing invalid : Problem}
    (h : Reaches Sound (requiredOr missing invalid part) e) : e.Derives part.tokens :=
  answer_of_requiredOr (A := fun q e => e.Derives q.tokens) h

theorem derives_of_required (h : Reaches Sound (required origin name part whole) e) :
    e.Derives part.tokens :=
  derives_of_requiredOr h

theorem derives_of_operand {level : Nat} {side : Side}
    (h : Reaches Sound (operand level side part) (.bound e)) : e.Derives part.tokens :=
  answer_of_operand (A := fun q e => e.Derives q.tokens) h

theorem derives_of_requiredOperand {level : Nat} {side : Side}
    (h : Reaches Sound (requiredOperand origin name level side part whole) (some e)) :
    e.Derives part.tokens :=
  answer_of_requiredOperand (A := fun q e => e.Derives q.tokens) h

/-- A form that ends with a required operand accepts what it makes of this operand. -/
theorem exists_of_requiredOperand {level : Nat} {side : Side} {f : Expr → Expr}
    {next : Option Expr → Query (Option Expr)}
    (h : Reaches Sound (requiredOperand origin name level side part whole >>= next) (some e))
    (hsome : ∀ e', next (some e') = pure (some (f e'))) (hnone : next none = pure none) :
    ∃ e', e = f e' ∧ e'.Derives part.tokens :=
  exists_answer_of_requiredOperand (A := fun q e => e.Derives q.tokens) h hsome hnone

theorem exists_token_of_requiredType {n : TypeName}
    (h : Reaches Sound (requiredType origin part whole) n) :
    ∃ t, part.tokens = [t] ∧ TypeName.ofKeyword? t.keyword = some n := by
  unfold requiredType at h
  simp only at h
  split at h
  · exact (not_reaches_fail _ _ h).elim
  · rename_i t ht
    split at h
    · rename_i n' hn
      obtain rfl := reaches_pure_iff.mp h
      exact ⟨t, ht, hn⟩
    · exact (not_reaches_fail _ _ h).elim
  · exact (not_reaches_fail _ _ h).elim

end parts

theorem position_eq_firstPlace (s : Slice) : s.position = Token.firstPlace s.tokens := rfl

theorem position_of_tokens {t : Token} {ts : List Token} (hs : s.tokens = t :: ts) :
    s.position = t.position := by
  rw [position_eq_firstPlace, hs]
  rfl

section forms

theorem derives_of_readParenthesized (h : Reaches Sound (readParenthesized s) (some e)) :
    e.Derives s.tokens := by
  rw [readParenthesized_eq] at h
  split at h
  · cases reaches_pure_iff.mp h
  · rename_i inner hinner
    obtain ⟨e', he', h⟩ := reaches_bind_iff.mp h
    cases reaches_pure_iff.mp h
    obtain ⟨o, c, ho, hc, hs⟩ := tokens_of_enclosed (b := .paren) hinner
    rw [position_of_tokens hs, hs]
    exact .grouping ho (derives_of_required he') hc

theorem derives_of_readArticle (h : Reaches Sound (readArticle s) (some e)) :
    e.Derives s.tokens := by
  rw [readArticle_eq] at h
  split at h
  · rename_i t u ts hs
    split at h
    · rename_i ht
      obtain ⟨operand, hoperand, h⟩ := reaches_bind_iff.mp h
      cases operand with
      | bound e' =>
        cases reaches_pure_iff.mp h
        have he' := derives_of_operand hoperand
        rw [tokens_drop, hs] at he'
        rw [hs]
        exact .article ht he'
      | looser => cases reaches_pure_iff.mp h
      | unread => cases reaches_pure_iff.mp h
    · cases reaches_pure_iff.mp h
  · cases reaches_pure_iff.mp h

/-- A conditional behind `if` or `otherwise if`, whose word is the first token. -/
theorem derives_of_readTernaryFrom {n : Nat} {t : Token} {ts : List Token} (hs : s.tokens = t :: ts)
    (h : Reaches Sound (readTernaryFrom n s) (some e)) : e.DerivesTernary s.tokens := by
  induction n generalizing s t ts e with
  | zero => cases reaches_pure_iff.mp h
  | succ n ih =>
    rw [readTernaryFrom_succ] at h
    split at h
    · cases reaches_pure_iff.mp h
    rename_i thenAt hthen
    split at h
    · cases reaches_pure_iff.mp h
    rename_i offset branch helse
    -- The slice is cut at `then` and at the first `otherwise` or `otherwise if` behind it.
    obtain ⟨u, hu, hbehind⟩ := drop_tokens_of_first hthen
    obtain ⟨hbranch, hkey⟩ := getElem?_of_firstOf helse
    rw [tokens_drop, List.getElem?_drop] at hkey
    obtain ⟨v, hget, hv⟩ := Option.map_eq_some_iff.mp hkey
    have htokens : s.tokens = t :: ((s.extract 1 thenAt).tokens ++ u ::
        ((s.extract (thenAt + 1) (thenAt + 1 + offset)).tokens ++ v ::
          s.tokens.drop (thenAt + 1 + offset + 1))) := by
      rw [← drop_tokens_of_getElem? (Nat.le_add_right _ _) hget, ← hbehind, hs]
      rfl
    obtain ⟨c, hc, h⟩ := reaches_bind_iff.mp h
    obtain ⟨a, ha, h⟩ := reaches_bind_iff.mp h
    have hc := derives_of_required hc
    have ha := derives_of_required ha
    simp only at h
    split at h
    · rename_i hmore
      -- A further condition is read from its own word on.
      have hrest : (s.drop (thenAt + 1 + offset)).tokens =
          v :: s.tokens.drop (thenAt + 1 + offset + 1) := by
        have hcut := drop_tokens_of_getElem? (Nat.le_refl _) hget
        rwa [tokens_extract, List.drop_take, Nat.sub_self, List.take_zero] at hcut
      obtain ⟨_ | b, hb, h⟩ := reaches_bind_iff.mp h
      · exact (not_reaches_fail _ _ h).elim
      · cases reaches_pure_iff.mp h
        have hb := ih hrest hb
        rw [hrest] at hb
        rw [position_of_tokens hs, htokens]
        exact .more hc hu ha (hv.trans hmore) hb
    · rename_i hlast
      obtain ⟨b, hb, h⟩ := reaches_bind_iff.mp h
      cases reaches_pure_iff.mp h
      have hother : branch = .otherwise := by
        rcases List.mem_cons.mp hbranch with hb | hb
        · exact hb
        · exact (hlast (List.mem_singleton.mp hb)).elim
      rw [position_of_tokens hs, htokens]
      exact .last hc hu ha (hv.trans hother) (derives_of_required hb)

theorem derives_of_readTernary (h : Reaches Sound (readTernary s) (some e)) :
    e.Derives s.tokens := by
  unfold readTernary at h
  split at h
  · rename_i hstart
    obtain ⟨t, ht, hs⟩ := tokens_of_startsWith hstart
    have hternary := derives_of_readTernaryFrom hs h
    rw [hs] at hternary ⊢
    exact .ternary ht hternary
  · cases reaches_pure_iff.mp h

/-- A piece is the last arm `otherwise gives`, or an arm before others. -/
theorem exists_of_readArms_cons {arm : Slice} {pieces : List Slice} {arms : List (Expr × Expr)}
    {d : Option Expr} (h : Reaches Sound (readArms whole (arm :: pieces)) (arms, d)) :
    (pieces = [] ∧ arms = [] ∧ ∃ r t u rs, d = some r ∧ t.keyword = .otherwise ∧
        u.keyword = .gives ∧ arm.tokens = t :: u :: rs ∧ r.Derives rs) ∨
      ∃ p r rest ps t rs, arms = (p, r) :: rest ∧ Reaches Sound (readArms whole pieces) (rest, d) ∧
        t.keyword = .gives ∧ arm.tokens = ps ++ t :: rs ∧ p.Derives ps ∧ r.Derives rs := by
  rw [readArms_cons] at h
  simp only at h
  -- Without a `gives` the arm has failed.
  split at h
  · exact (not_reaches_fail _ _ h).elim
  rename_i givesAt hgives
  obtain ⟨u, hu, hcut⟩ := drop_tokens_of_first hgives
  obtain ⟨r, hr, h⟩ := reaches_bind_iff.mp h
  have hr := derives_of_required hr
  split at h
  · -- An `otherwise` right in front of its `gives` is the last arm.
    rename_i hotherwise
    split at h
    · rename_i hempty
      cases reaches_pure_iff.mp h
      obtain ⟨t, ht, hs⟩ := tokens_of_startsWith hotherwise.2
      have harm : arm.tokens = t :: u :: arm.tokens.drop (givesAt + 1) := by
        have hone : arm.tokens.take 1 = [t] := by rw [hs]; rfl
        rw [hotherwise.1] at hcut ⊢
        rwa [tokens_extract, hone] at hcut
      exact .inl ⟨List.isEmpty_iff.mp hempty, rfl, r, t, u, _, rfl, ht, hu, harm, hr⟩
    · exact (not_reaches_fail _ _ h).elim
  · obtain ⟨p, hp, h⟩ := reaches_bind_iff.mp h
    obtain ⟨⟨rest, d'⟩, hrest, h⟩ := reaches_bind_iff.mp h
    cases reaches_pure_iff.mp h
    exact .inr ⟨p, r, rest, _, u, _, rfl, hrest, hu, hcut, derives_of_required hp, hr⟩

/-- The arms of a match are the pieces of the tokens between commas. -/
theorem derivesArms_of_readArms {pieces : List Slice} {ts : List Token}
    {arms : List (Expr × Expr)} {d : Option Expr} (hpieces : Joined .comma pieces ts)
    (h : Reaches Sound (readArms whole pieces) (arms, d)) : DerivesArms arms d ts := by
  induction hpieces generalizing arms with
  | one arm =>
    obtain ⟨-, rfl, r, t, u, rs, rfl, ht, hu, harm, hr⟩ |
      ⟨p, r, rest, ps, t, rs, rfl, hrest, ht, harm, hp, hr⟩ := exists_of_readArms_cons h
    · rw [harm]
      exact .fallback ht hu hr
    · cases reaches_pure_iff.mp hrest
      rw [harm]
      exact .last hp ht hr
  | @more pieces c ts arm hc hpieces ih =>
    obtain ⟨rfl, -⟩ | ⟨p, r, rest, ps, t, rs, rfl, hrest, ht, harm, hp, hr⟩ :=
      exists_of_readArms_cons h
    · cases hpieces
    · rw [harm]
      exact .more hp ht hr hc (ih hrest)

theorem isEmpty_eq_false {s : Slice} (h : ¬ s.isEmpty = true) : s.isEmpty = false := by
  rwa [Bool.not_eq_true] at h

theorem derives_of_readSelection (h : Reaches Sound (readSelection s) (some e)) :
    e.Derives s.tokens := by
  rw [readSelection_eq] at h
  split at h
  · cases reaches_pure_iff.mp h
  rename_i withAt hfound
  obtain ⟨t, u, ht, hu, hs⟩ := tokens_of_lead hfound
  obtain ⟨subject, hsubject, h⟩ := reaches_bind_iff.mp h
  simp only at h
  split at h
  · exact (not_reaches_fail _ _ h).elim
  · rename_i harms
    obtain ⟨⟨arms, d⟩, hread, h⟩ := reaches_bind_iff.mp h
    cases reaches_pure_iff.mp h
    rw [position_of_tokens hs, hs]
    exact .selection ht (derives_of_required hsubject) hu
      (derivesArms_of_readArms (joined_split (isEmpty_eq_false harms)) hread)

theorem role_of_lookup {l : OperatorLevel} {k : Keyword} {op : BinaryOp}
    (h : l.operators.lookup k = some op) : k = op.role := by
  have hroles : ∀ p ∈ l.operators, p.1 = p.2.role := by cases l <;> decide
  obtain ⟨before, after, hl, -⟩ := List.lookup_eq_some_iff.mp h
  exact hroles (k, op) (by rw [hl]; simp)

theorem derives_of_readSplit {l : OperatorLevel} {is : List Nat}
    (h : Reaches Sound (readSplit s l is) (some e)) : e.Derives s.tokens := by
  induction is with
  | nil => cases reaches_pure_iff.mp h
  | cons i is ih =>
    rw [readSplit] at h
    split at h
    · exact ih h
    rename_i op hop
    split at hop
    · cases hop
    obtain ⟨t, hget, hlookup⟩ := Option.bind_eq_some_iff.mp hop
    obtain ⟨left, hleft, h⟩ := reaches_bind_iff.mp h
    cases left with
    | bound l =>
      obtain ⟨right, hright, h⟩ := reaches_bind_iff.mp h
      cases right with
      | bound r =>
        cases reaches_pure_iff.mp h
        have hs := tokens_of_getElem? hget
        rw [position_eq_firstPlace, hs]
        exact .binary (derives_of_operand hleft) (role_of_lookup hlookup) (derives_of_operand hright)
      | looser => exact ih h
      | unread => exact ih h
    | looser => exact ih h
    | unread => exact ih h

theorem derives_of_readUnary {op : UnaryOp} (h : Reaches Sound (readUnary op s) (some e)) :
    e.Derives s.tokens := by
  rw [readUnary_eq] at h
  split at h
  · rename_i hlead
    obtain ⟨t, ht, hs⟩ := tokens_of_startsWith hlead.1
    obtain ⟨e', rfl, he'⟩ := exists_of_requiredOperand h (fun _ => rfl) rfl
    rw [position_of_tokens hs, hs]
    exact .unary ht he'
  · cases reaches_pure_iff.mp h

theorem derives_of_readPhraseSplit {p : ArithmeticPhrase} {operands : Slice} {looser : Bool}
    {is : List Nat} {t : Token} (ht : t.keyword = p.lead) (hs : s.tokens = t :: operands.tokens)
    (his : ∀ i ∈ is, (operands.tokens[i]?).map (·.keyword) = some .andWord)
    (h : Reaches Sound (readPhraseSplit p s operands looser is) (some e)) : e.Derives s.tokens := by
  induction is generalizing looser with
  | nil =>
    rw [readPhraseSplit] at h
    split at h
    · cases reaches_pure_iff.mp h
    · exact (not_reaches_fail _ _ h).elim
  | cons i is ih =>
    -- Whatever the first `and` was found to be, the later ones are tried in the same way.
    have hlater (looser : Bool)
        (h : Reaches Sound (readPhraseSplit p s operands looser is) (some e)) :
        e.Derives s.tokens := ih (fun j hj => his j (List.mem_cons_of_mem _ hj)) h
    rw [readPhraseSplit] at h
    obtain ⟨_ | ⟨rule, left⟩, hleft, h⟩ := reaches_bind_iff.mp h
    · exact hlater _ h
    obtain ⟨right, hright, h⟩ := reaches_bind_iff.mp h
    cases right with
    | bound r =>
      cases reaches_pure_iff.mp h
      obtain ⟨u, hget, hu⟩ := Option.map_eq_some_iff.mp (his i (List.mem_cons_self ..))
      rw [position_of_tokens hs, hs, tokens_of_getElem? hget]
      exact .phrase ht (derives_of_read hleft) hu (derives_of_operand hright)
    | looser => exact hlater _ h
    | unread => exact hlater _ h

theorem derives_of_readPhrase {p : ArithmeticPhrase} (h : Reaches Sound (readPhrase p s) (some e)) :
    e.Derives s.tokens := by
  by_cases hlead : s.startsWith p.lead = true
  · obtain ⟨t, ht, hs⟩ := tokens_of_startsWith hlead
    simp only [readPhrase_eq, hlead, if_true] at h
    split at h
    · cases reaches_pure_iff.mp h
    split at h
    · exact (not_reaches_fail _ _ h).elim
    · refine derives_of_readPhraseSplit ht hs (fun i hi => ?_) h
      exact getElem?_of_mem_allOf (List.mem_filter.mp hi |>.1)
  · simp only [readPhrase_eq, hlead] at h
    cases reaches_pure_iff.mp h

theorem derives_of_readTypeCheck (h : Reaches Sound (readTypeCheck s) (some e)) :
    e.Derives s.tokens := by
  rw [readTypeCheck_eq] at h
  split at h
  · cases reaches_pure_iff.mp h
  rename_i i hi
  split at h
  · cases reaches_pure_iff.mp h
  obtain ⟨n, htype, h⟩ := reaches_bind_iff.mp h
  obtain ⟨e', rfl, he'⟩ := exists_of_requiredOperand h (fun _ => rfl) rfl
  obtain ⟨u, hrest, hn⟩ := exists_token_of_requiredType htype
  have hkey := getElem?_of_mem_allOf (List.mem_of_getLast? hi)
  obtain ⟨t, hget, ht⟩ := Option.map_eq_some_iff.mp hkey
  -- The type is one token, so `is a` is the token before the last.
  have hs : s.tokens = s.tokens.take i ++ [t, u] := by
    rw [tokens_drop] at hrest
    rw [← hrest]
    exact tokens_of_getElem? hget
  rw [position_eq_firstPlace, hs]
  exact .typeCheck he' ht hn

theorem derives_of_readNullCheck (h : Reaches Sound (readNullCheck s) (some e)) :
    e.Derives s.tokens := by
  rw [readNullCheck_eq] at h
  simp only at h
  split at h
  · cases reaches_pure_iff.mp h
  rename_i negated hnegated
  split at h
  · cases reaches_pure_iff.mp h
  obtain ⟨e', rfl, he'⟩ := exists_of_requiredOperand h (fun _ => rfl) rfl
  obtain ⟨t, hlast, ht⟩ : ∃ t, s.tokens.getLast? = some t ∧
      t.keyword = if negated then .isNotNull else .isNull := by
    split at hnegated
    · rename_i hkey
      cases hnegated
      exact Option.map_eq_some_iff.mp hkey
    · rename_i hkey
      cases hnegated
      exact Option.map_eq_some_iff.mp hkey
    · cases hnegated
  obtain ⟨ts, hs⟩ := List.getLast?_eq_some_iff.mp hlast
  rw [tokens_take_of_concat hs] at he'
  rw [position_eq_firstPlace, hs]
  exact .nullCheck he' ht

theorem derives_of_readCast (h : Reaches Sound (readCast s) (some e)) : e.Derives s.tokens := by
  rw [readCast_eq] at h
  split at h
  · cases reaches_pure_iff.mp h
  rename_i asAt hfound
  obtain ⟨t, u, ht, hu, hs⟩ := tokens_of_lead hfound
  obtain ⟨e', he', h⟩ := reaches_bind_iff.mp h
  obtain ⟨n, htype, h⟩ := reaches_bind_iff.mp h
  cases reaches_pure_iff.mp h
  obtain ⟨v, hrest, hn⟩ := exists_token_of_requiredType htype
  rw [tokens_drop] at hrest
  rw [position_of_tokens hs, hs, hrest]
  exact .cast ht (derives_of_required he') hu hn

theorem derives_of_readSlice (h : Reaches Sound (readSlice s) (some e)) : e.Derives s.tokens := by
  rw [readSlice_eq] at h
  split at h
  · cases reaches_pure_iff.mp h
  rename_i fromAt hfound
  split at h
  · cases reaches_pure_iff.mp h
  rename_i toAt hto
  obtain ⟨t, u, ht, hu, hs⟩ := tokens_of_lead hfound
  obtain ⟨v, hv, hcut⟩ := drop_tokens_of_first hto
  obtain ⟨c, hc, h⟩ := reaches_bind_iff.mp h
  obtain ⟨a, ha, h⟩ := reaches_bind_iff.mp h
  obtain ⟨b, rfl, hb⟩ := exists_of_requiredOperand h (fun _ => rfl) rfl
  rw [position_of_tokens hs, hs, hcut]
  exact .slice ht (derives_of_required hc) hu (derives_of_required ha) hv hb

theorem derives_of_readIndex (h : Reaches Sound (readIndex s) (some e)) : e.Derives s.tokens := by
  rw [readIndex_eq] at h
  simp only at h
  split at h
  · rename_i hstart
    split at h
    · cases reaches_pure_iff.mp h
    rename_i ofAt hof
    obtain ⟨t, ht, hs⟩ : ∃ t, (t.keyword = .item ∨ t.keyword = .element) ∧
        s.tokens = t :: s.tokens.drop 1 := by
      rcases hstart with hstart | hstart
      · obtain ⟨t, ht, hs⟩ := tokens_of_startsWith hstart
        exact ⟨t, .inl ht, hs⟩
      · obtain ⟨t, ht, hs⟩ := tokens_of_startsWith hstart
        exact ⟨t, .inr ht, hs⟩
    obtain ⟨u, hu, hcut⟩ := drop_tokens_of_first hof
    obtain ⟨i, hi, h⟩ := reaches_bind_iff.mp h
    obtain ⟨c, rfl, hc⟩ := exists_of_requiredOperand h (fun _ => rfl) rfl
    rw [position_of_tokens hs, hs, hcut]
    exact .index ht (derives_of_required hi) hu hc
  · split at h
    · -- An ordinal is itself the index, and stands where the words `item` and `element` would
      -- follow it.
      rename_i t u w rest hs
      split at h
      · rename_i hkeys
        obtain ⟨i, hi, h⟩ := reaches_bind_iff.mp h
        obtain ⟨v, hv, rfl⟩ := exists_of_literalOr hi
        obtain ⟨c, rfl, hc⟩ := exists_of_requiredOperand h (fun _ => rfl) rfl
        rw [tokens_drop, hs] at hc
        rw [position_of_tokens hs, hs]
        exact .ordinalIndex hkeys.1 hv hkeys.2.1 hkeys.2.2 hc
      · cases reaches_pure_iff.mp h
    · cases reaches_pure_iff.mp h

/-- The items of a list form are the pieces of the tokens between commas. -/
theorem derivesItems_of_readItems {level : Nat} {pieces : List Slice} {ts : List Token}
    {es : List Expr} (hpieces : Joined .comma pieces ts)
    (h : Reaches Sound (readItems origin name level whole pieces) (some es)) :
    DerivesItems es ts := by
  induction hpieces generalizing es with
  | one part =>
    obtain ⟨_ | e, he, h⟩ := reaches_bind_iff.mp h
    · cases reaches_pure_iff.mp h
    · cases reaches_pure_iff.mp h
      exact .last (derives_of_requiredOperand he)
  | @more pieces c ts part hc hpieces ih =>
    match pieces, hpieces with
    | next :: pieces, hpieces =>
      obtain ⟨e, he, h⟩ := reaches_bind_iff.mp h
      obtain ⟨_ | es', hes, h⟩ := reaches_bind_iff.mp h
      · cases reaches_pure_iff.mp h
      · cases reaches_pure_iff.mp h
        exact .more (derives_of_required he) hc (ih hes)

theorem derives_of_readCall (h : Reaches Sound (readCall s) (some e)) : e.Derives s.tokens := by
  rw [readCall_eq] at h
  simp only at h
  -- Behind the name there is nothing, one token, which no call ends with, or `with` and arguments.
  split at h
  · cases reaches_pure_iff.mp h
  rename_i f rest hbehind
  split at hbehind
  · rename_i hstart
    obtain ⟨t, ht, hs⟩ := tokens_of_startsWith hstart
    rw [hbehind] at hs
    split at h
    · exact (not_reaches_fail _ _ h).elim
    rename_i callee hcallee
    split at h
    · cases reaches_pure_iff.mp h
      rw [position_of_tokens hs, hs]
      exact .call ht hcallee
    · split at h
      · exact (not_reaches_fail _ _ h).elim
      · exact (not_reaches_fail _ _ h).elim
    · rename_i v vs hone
      split at h
      · rename_i hv
        obtain ⟨_ | es, hes, h⟩ := reaches_bind_iff.mp h
        · cases reaches_pure_iff.mp h
        · cases reaches_pure_iff.mp h
          have hdrop : (s.drop 3).tokens = vs := by rw [tokens_drop, hs]; rfl
          have hne : (s.drop 3).isEmpty = false := by
            rw [isEmpty, hdrop]
            cases vs with
            | nil => exact (hone rfl).elim
            | cons _ _ => rfl
          have hitems := derivesItems_of_readItems (joined_split hne) hes
          rw [hdrop] at hitems
          rw [position_of_tokens hs, hs]
          exact .callWith ht hcallee hv hitems
      · exact (not_reaches_fail _ _ h).elim
  · cases hbehind

theorem derives_of_readList (h : Reaches Sound (readList s) (some e)) : e.Derives s.tokens := by
  rw [readList_eq] at h
  split at h
  · rename_i hstart
    cases reaches_pure_iff.mp h
    obtain ⟨t, ht, hs⟩ := tokens_of_startsWith hstart.2
    have hnil : s.tokens.drop 1 = [] := List.drop_eq_nil_of_le (Nat.le_of_eq hstart.1)
    rw [hnil] at hs
    rw [position_of_tokens hs, hs]
    exact .emptyList ht
  · split at h
    · rename_i hstart
      obtain ⟨t, ht, hs⟩ := tokens_of_startsWith hstart.2
      obtain ⟨_ | es, hes, h⟩ := reaches_bind_iff.mp h
      · cases reaches_pure_iff.mp h
      · cases reaches_pure_iff.mp h
        have hne : (s.drop 1).isEmpty = false := by
          rw [← Bool.not_eq_true, Slice.isEmpty_iff, length_drop]
          omega
        rw [position_of_tokens hs, hs]
        exact .list ht (derivesItems_of_readItems (joined_split hne) hes)
    · cases reaches_pure_iff.mp h

theorem exists_of_map_eq_ok {ε α β : Type} {f : α → β} {r : Except ε α} {b : β}
    (h : r.map f = .ok b) : ∃ a, r = .ok a ∧ b = f a := by
  cases r with
  | ok a =>
    cases h
    exact ⟨a, rfl, rfl⟩
  | error p => cases h

end forms

/-- Where the readings of the parts are derived, so is what a form accepts. -/
theorem derives_of_form (f : Form) (h : Reaches Sound (f.read s) (some e)) : e.Derives s.tokens := by
  cases f with
  | parenthesized => exact derives_of_readParenthesized h
  | article => exact derives_of_readArticle h
  | ternary => exact derives_of_readTernary h
  | selection => exact derives_of_readSelection h
  | operators l =>
    rw [Form.read, readOperators_eq] at h
    exact derives_of_readSplit h
  | unary op => exact derives_of_readUnary h
  | typeCheck => exact derives_of_readTypeCheck h
  | nullCheck => exact derives_of_readNullCheck h
  | phrase p => exact derives_of_readPhrase h
  | cast => exact derives_of_readCast h
  | slice => exact derives_of_readSlice h
  | index => exact derives_of_readIndex h
  | call => exact derives_of_readCall h
  | list => exact derives_of_readList h
  -- The remaining forms accept a single token, and the grammar has a rule for its literal or name.
  | number =>
    obtain ⟨t, q, hs, hq, h⟩ := exists_of_readToken h
    split at hq
    · rename_i hk
      obtain rfl := Option.some.inj hq
      obtain ⟨v, hv, rfl⟩ := exists_of_literalOr h
      rw [hs]
      exact .literal (.number hk hv)
    · cases hq
  | ordinal =>
    obtain ⟨t, q, hs, hq, h⟩ := exists_of_readToken h
    split at hq
    · rename_i hk
      obtain rfl := Option.some.inj hq
      obtain ⟨v, hv, rfl⟩ := exists_of_literalOr h
      rw [hs]
      exact .literal (.ordinal hk hv)
    · cases hq
  | text =>
    obtain ⟨t, q, hs, hq, h⟩ := exists_of_readToken h
    split at hq
    · rename_i hk
      obtain rfl := Option.some.inj hq
      obtain ⟨v, hv, rfl⟩ := exists_of_literalOr h
      obtain ⟨x, hx, rfl⟩ := exists_of_map_eq_ok hv
      rw [hs]
      exact .literal (.text hk hx)
    · rename_i hk
      obtain rfl := Option.some.inj hq
      obtain ⟨v, hv, rfl⟩ := exists_of_literalOr h
      rw [hs]
      exact .literal (.character hk hv)
    · cases hq
  | constant =>
    obtain ⟨t, q, hs, hq, h⟩ := exists_of_readToken h
    obtain ⟨v, hv, rfl⟩ := Option.map_eq_some_iff.mp hq
    cases reaches_pure_iff.mp h
    rw [hs]
    exact .literal (.constant hv)
  | identifier =>
    rw [Form.read, readIdentifier_eq] at h
    have hname := (reaches_pure_iff.mp h).symm
    obtain ⟨n, hn, rfl⟩ := Option.map_eq_some_iff.mp hname
    unfold Slice.name? at hn
    split at hn
    · rename_i t hs
      rw [position_of_tokens hs, hs]
      exact .identifier hn
    · cases hn

end Prose.Expr

namespace Prose.Grammar

/-- What the cascade reads in a slice is derived by the grammar. -/
theorem derives_of_outcome (g : Grammar) {s : Slice} {rule : Expr.Rule} {e : Expr}
    (h : g.outcome s = .ok (some (rule, e))) : e.Derives s.tokens := by
  induction hn : s.length using Nat.strongRecOn generalizing s rule e with
  | _ n ih =>
    by_cases hempty : s.isEmpty = true
    · rw [g.outcome_of_isEmpty hempty] at h
      cases h
    · have hpos := s.length_pos_of_not_isEmpty hempty
      rw [g.outcome_eq_firstVerdict hpos] at h
      obtain ⟨before, after, -, -, hverdict⟩ := firstVerdict_eq_some_iff.mp h
      have hreaches := Inquiry.reaches_of_resolve (Expr.asks_form rule.form s) hverdict
      refine Expr.derives_of_form rule.form (hreaches.mono ?_)
      rintro q r ⟨hq, hr⟩ rule' e' rfl
      exact ih q.length (hn ▸ hq.2) hr rfl

end Prose.Grammar
