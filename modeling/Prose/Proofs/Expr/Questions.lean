import Mathlib.Tactic.ByContra
import Prose.Expr.Reading
import Prose.Proofs.Expr.Indices
import Prose.Proofs.Inquiry
import Prose.Proofs.Slice.Depth

namespace Prose.Expr

open Inquiry Slice

variable {s : Slice}

theorem asks_read {P : Slice → Prop} {part : Slice} (h : P part) : (Expr.read part).Asks P :=
  asks_question h

theorem asks_requiredOr {P : Slice → Prop} {part : Slice} (missing invalid : Problem)
    (h : 0 < part.length → P part) : (requiredOr missing invalid part).Asks P := by
  unfold requiredOr
  split
  · constructor
  · rename_i hne
    have hpos := part.length_pos_of_not_isEmpty hne
    exact asks_bind (asks_read (h hpos)) fun r => by split <;> constructor

theorem asks_required {P : Slice → Prop} {part : Slice} (origin name : String)
    (whole : List Token) (h : P part) : (required origin name part whole).Asks P :=
  asks_requiredOr _ _ fun _ => h

theorem asks_requiredType {P : Slice → Prop} (origin : String) (part : Slice)
    (whole : List Token) : (requiredType origin part whole).Asks P := by
  unfold requiredType
  split <;> try split
  all_goals constructor

/-- Behind an article the tokens are a part of the slice without it. -/
theorem asks_ruleBehind {P : Slice → Prop} (rule : Rule) (start : Nat) (ts : List Token)
    (h : ∀ q : Slice, q.IsPartOf ⟨start, ts⟩ → P q) : (ruleBehind rule start ts).Asks P := by
  induction ts generalizing rule start with
  | nil => constructor
  | cons t ts ih =>
    match ts, ih with
    | [], _ => constructor
    | u :: us, ih =>
      have hrest : Slice.IsPartOf ⟨start + 1, u :: us⟩ ⟨start, t :: u :: us⟩ :=
        ⟨1, rfl, List.prefix_rfl⟩
      rw [ruleBehind]
      split
      · refine asks_bind (asks_read (h _ hrest)) fun r => ?_
        split
        · exact ih _ _ fun q hq => h q (hq.trans hrest)
        · constructor
      · constructor

theorem asks_operand {P : Slice → Prop} (level : Nat) (side : Side) {part : Slice}
    (h : ∀ q : Slice, q.IsPartOf part → P q) : (operand level side part).Asks P := by
  refine asks_bind (asks_read (h _ (.refl part))) fun r => ?_
  split
  · constructor
  · exact asks_bind (asks_ruleBehind _ _ _ h) fun _ => .done _

theorem asks_requiredOperand {P : Slice → Prop} (origin name : String) (level : Nat) (side : Side)
    {part : Slice} (whole : List Token) (h : ∀ q : Slice, q.IsPartOf part → P q) :
    (requiredOperand origin name level side part whole).Asks P := by
  unfold requiredOperand
  split
  · constructor
  · exact asks_bind (asks_operand level side h) fun r => by split <;> constructor

theorem asks_literalOr {P : Slice → Prop} (origin : String) (t : Token)
    (value : Except LiteralFault Literal) : (literalOr origin t value).Asks P := by
  unfold literalOr
  split <;> constructor

theorem asks_readTernaryFrom {P : Slice → Prop} (n : Nat) (s : Slice)
    (h : ∀ q : Slice, q.IsStrictPartOf s → P q) : (readTernaryFrom n s).Asks P := by
  induction n generalizing s with
  | zero => constructor
  | succ n ih =>
    rw [readTernaryFrom_succ]
    split
    · constructor
    · rename_i thenAt hthen
      have hpos : 0 < s.length := Nat.lt_of_le_of_lt (Nat.zero_le _) (lt_length_of_first hthen)
      have hdrop (n : Nat) (hn : 0 < n) : (s.drop n).IsStrictPartOf s := isStrictPartOf_drop hpos hn
      have hextract (i j : Nat) (hi : 0 < i) : (s.extract i j).IsStrictPartOf s :=
        isStrictPartOf_extract hpos hi
      split
      · constructor
      · refine asks_bind (asks_required _ _ _ (h _ (hextract _ _ (by omega)))) fun _ => ?_
        refine asks_bind (asks_required _ _ _ (h _ (hextract _ _ (by omega)))) fun _ => ?_
        simp only
        split
        · refine asks_bind (ih _ fun q hq => h q ?_) fun r => by split <;> constructor
          exact hq.1.trans_isStrictPartOf (hdrop _ (by omega))
        · exact asks_bind (asks_required _ _ _ (h _ (hdrop _ (by omega)))) fun _ => .done _

theorem asks_readArms {P : Slice → Prop} (whole : List Token) (arms : List Slice)
    (h : ∀ arm ∈ arms, ∀ q : Slice, q.IsPartOf arm → P q) : (readArms whole arms).Asks P := by
  induction arms with
  | nil => constructor
  | cons arm arms ih =>
    have harm (q : Slice) (hq : q.IsPartOf arm) : P q := h arm (List.mem_cons_self ..) q hq
    have hrest : (readArms whole arms).Asks P := ih fun a ha => h a (List.mem_cons_of_mem _ ha)
    rw [readArms_cons]
    split
    · constructor
    · refine asks_bind (asks_required _ _ _ (harm _ (isPartOf_drop _ _))) fun _ => ?_
      split
      · split <;> constructor
      · refine asks_bind (asks_required _ _ _ (harm _ (isPartOf_take _ _))) fun _ => ?_
        exact asks_bind hrest fun _ => .done _

theorem asks_readSplit {P : Slice → Prop} (s : Slice) (l : OperatorLevel) (is : List Nat)
    (h : ∀ q : Slice, q.IsStrictPartOf s → P q) : (readSplit s l is).Asks P := by
  induction is with
  | nil => constructor
  | cons i is ih =>
    rw [readSplit]
    split
    · exact ih
    · rename_i op hop
      split at hop
      · cases hop
      · rename_i hends
        have hi : i < s.length := by
          obtain ⟨t, ht, -⟩ := Option.bind_eq_some_iff.mp hop
          exact (List.getElem?_eq_some_iff.mp ht).1
        have hleft (q : Slice) (hq : q.IsPartOf (s.take i)) : P q :=
          h q (hq.trans_isStrictPartOf (isStrictPartOf_take hi))
        have hright (q : Slice) (hq : q.IsPartOf (s.drop (i + 1))) : P q :=
          h q (hq.trans_isStrictPartOf (isStrictPartOf_drop (by omega) (by omega)))
        refine asks_bind (asks_operand _ _ hleft) fun left => ?_
        split
        · refine asks_bind (asks_operand _ _ hright) fun right => ?_
          split
          · constructor
          · exact ih
        · exact ih

theorem asks_readPhraseSplit {P : Slice → Prop} (p : ArithmeticPhrase) (s operands : Slice)
    (looser : Bool) (is : List Nat) (h : ∀ q : Slice, q.IsPartOf operands → P q) :
    (readPhraseSplit p s operands looser is).Asks P := by
  induction is generalizing looser with
  | nil =>
    rw [readPhraseSplit]
    split <;> constructor
  | cons i is ih =>
    rw [readPhraseSplit]
    refine asks_bind (asks_read (h _ (isPartOf_take _ _))) fun left => ?_
    split
    · exact ih looser
    · refine asks_bind (asks_operand _ _ fun q hq => h q (hq.trans (isPartOf_drop _ _)))
        fun right => ?_
      split
      · constructor
      · exact ih true
      · exact ih looser

theorem asks_readItems {P : Slice → Prop} (origin name : String) (level : Nat)
    (whole : List Token) (parts : List Slice)
    (h : ∀ part ∈ parts, ∀ q : Slice, q.IsPartOf part → P q) :
    (readItems origin name level whole parts).Asks P := by
  induction parts with
  | nil => constructor
  | cons part parts ih =>
    have hpart (q : Slice) (hq : q.IsPartOf part) : P q := h part (List.mem_cons_self ..) q hq
    have hrest := ih fun a ha => h a (List.mem_cons_of_mem _ ha)
    match parts, hrest with
    | [], _ =>
      exact asks_bind (asks_requiredOperand _ _ _ _ _ hpart) fun r => by split <;> constructor
    | _ :: _, hrest =>
      refine asks_bind (asks_required _ _ _ (hpart _ (.refl _))) fun _ => ?_
      exact asks_bind hrest fun r => by split <;> constructor

section forms

variable {P : Slice → Prop} (s : Slice) (h : ∀ q : Slice, q.IsStrictPartOf s → P q)
include h

theorem asks_readParenthesized : (readParenthesized s).Asks P := by
  rw [readParenthesized_eq]
  split
  · constructor
  · rename_i inner hinner
    obtain ⟨j, hj, rfl⟩ := extract_of_enclosed hinner
    refine asks_bind (asks_required _ _ _ (h _ ?_)) fun _ => .done _
    exact isStrictPartOf_extract (by omega) (by omega)

theorem asks_readArticle : (readArticle s).Asks P := by
  rw [readArticle_eq]
  split
  · rename_i hs
    split
    · have hdrop : (s.drop 1).IsStrictPartOf s :=
        isStrictPartOf_drop (by simp [length, hs]) (by omega)
      refine asks_bind (asks_operand _ _ fun q hq => h q (hq.trans_isStrictPartOf hdrop))
        fun r => by split <;> constructor
    · constructor
  · constructor

theorem asks_readTernary : (readTernary s).Asks P := by
  unfold readTernary
  split
  · exact asks_readTernaryFrom _ _ h
  · constructor

theorem asks_readSelection : (readSelection s).Asks P := by
  rw [readSelection_eq]
  split
  · constructor
  · rename_i withAt hwith
    split at hwith
    · have hpos : 0 < s.length := Nat.lt_of_le_of_lt (Nat.zero_le _) (lt_length_of_first hwith)
      have harms : (s.drop (withAt + 1)).IsStrictPartOf s :=
        isStrictPartOf_drop hpos (by omega)
      refine asks_bind (asks_required _ _ _ (h _ (isStrictPartOf_extract hpos (by omega))))
        fun _ => ?_
      simp only
      split
      · constructor
      · refine asks_bind (asks_readArms _ _ fun arm harm q hq => h q ?_) fun _ => .done _
        exact (hq.trans (isPartOf_of_mem_split harm)).trans_isStrictPartOf harms
    · cases hwith

theorem asks_readOperators (l : OperatorLevel) : (readOperators l s).Asks P := by
  rw [readOperators_eq]
  exact asks_readSplit s l _ h

theorem asks_readUnary (op : UnaryOp) : (readUnary op s).Asks P := by
  rw [readUnary_eq]
  split
  · rename_i hlead
    refine asks_bind (asks_requiredOperand _ _ _ _ _ fun q hq => h q ?_)
      fun r => by split <;> constructor
    exact hq.trans_isStrictPartOf (isStrictPartOf_drop (by omega) (by omega))
  · constructor

theorem asks_readPhrase (p : ArithmeticPhrase) : (readPhrase p s).Asks P := by
  by_cases hlead : s.startsWith p.lead = true
  · simp only [readPhrase_eq, hlead, if_true]
    split
    · constructor
    · split
      · constructor
      · refine asks_readPhraseSplit p s _ false _ fun q hq => h q ?_
        exact hq.trans_isStrictPartOf
          (isStrictPartOf_drop (length_pos_of_startsWith s hlead) (by omega))
  · simp only [readPhrase_eq, hlead]
    constructor

theorem asks_readTypeCheck : (readTypeCheck s).Asks P := by
  rw [readTypeCheck_eq]
  split
  · constructor
  · rename_i i hi
    have hlt : i < s.length :=
      lt_length_of_getElem? (getElem?_of_mem_allOf (List.mem_of_getLast? hi))
    split
    · constructor
    · refine asks_bind (asks_requiredType _ _ _) fun _ => ?_
      refine asks_bind (asks_requiredOperand _ _ _ _ _ fun q hq => h q ?_)
        fun r => by split <;> constructor
      exact hq.trans_isStrictPartOf (isStrictPartOf_take hlt)

theorem asks_readNullCheck : (readNullCheck s).Asks P := by
  rw [readNullCheck_eq]
  simp only
  split
  · constructor
  · split
    · constructor
    · refine asks_bind (asks_requiredOperand _ _ _ _ _ fun q hq => h q ?_)
        fun r => by split <;> constructor
      exact hq.trans_isStrictPartOf (isStrictPartOf_take (by omega))

theorem asks_readCast : (readCast s).Asks P := by
  rw [readCast_eq]
  split
  · constructor
  · rename_i asAt has
    split at has
    · have hpos : 0 < s.length := Nat.lt_of_le_of_lt (Nat.zero_le _) (lt_length_of_first has)
      refine asks_bind (asks_required _ _ _ (h _ (isStrictPartOf_extract hpos (by omega))))
        fun _ => ?_
      exact asks_bind (asks_requiredType _ _ _) fun _ => .done _
    · cases has

theorem asks_readSlice : (readSlice s).Asks P := by
  rw [readSlice_eq]
  split
  · constructor
  · rename_i fromAt hfrom
    split at hfrom
    · have hpos : 0 < s.length := Nat.lt_of_le_of_lt (Nat.zero_le _) (lt_length_of_first hfrom)
      have hextract (i j : Nat) (hi : 0 < i) : P (s.extract i j) :=
        h _ (isStrictPartOf_extract hpos hi)
      split
      · constructor
      · refine asks_bind (asks_required _ _ _ (hextract _ _ (by omega))) fun _ => ?_
        refine asks_bind (asks_required _ _ _ (hextract _ _ (by omega))) fun _ => ?_
        refine asks_bind (asks_requiredOperand _ _ _ _ _ fun q hq => h q ?_)
          fun r => by split <;> constructor
        exact hq.trans_isStrictPartOf (isStrictPartOf_drop hpos (by omega))
    · cases hfrom

theorem asks_readCollection (index : Expr) {n : Nat} (hs : 0 < s.length) (hn : 0 < n) :
    (readCollection s s.position index (s.drop n)).Asks P := by
  refine asks_bind (asks_requiredOperand _ _ _ _ _ fun q hq => h q ?_)
    fun r => by split <;> constructor
  exact hq.trans_isStrictPartOf (isStrictPartOf_drop hs hn)

theorem asks_readIndex : (readIndex s).Asks P := by
  rw [readIndex_eq]
  simp only
  split
  · split
    · constructor
    · rename_i ofAt hof
      have hpos : 0 < s.length := Nat.lt_of_le_of_lt (Nat.zero_le _) (lt_length_of_first hof)
      refine asks_bind (asks_required _ _ _ (h _ (isStrictPartOf_extract hpos (by omega))))
        fun _ => ?_
      exact asks_readCollection s h _ hpos (by omega)
  · split
    · rename_i hs
      have hpos : 0 < s.length := by
        rw [length, hs]
        exact Nat.succ_pos _
      split
      · refine asks_bind (asks_literalOr _ _ _) fun index => ?_
        exact asks_readCollection s h index hpos (Nat.succ_pos 2)
      · constructor
    · constructor

theorem asks_readCall : (readCall s).Asks P := by
  rw [readCall_eq]
  simp only
  split
  · constructor
  · rename_i f rest hrest
    have hpos : 0 < s.length := by
      by_contra hlen
      have hnil : s.tokens = [] := List.eq_nil_of_length_eq_zero (by simpa [length] using hlen)
      simp [hnil] at hrest
    split
    · constructor
    · split
      · constructor
      · split <;> constructor
      · split
        · refine asks_bind (asks_readItems _ _ _ _ _ fun part hpart q hq => h q ?_)
            fun r => by split <;> constructor
          exact (hq.trans (isPartOf_of_mem_split hpart)).trans_isStrictPartOf
            (isStrictPartOf_drop hpos (by omega))
        · constructor

theorem asks_readList : (readList s).Asks P := by
  rw [readList_eq]
  split
  · constructor
  · split
    · rename_i hlead
      refine asks_bind (asks_readItems _ _ _ _ _ fun part hpart q hq => h q ?_)
        fun r => by split <;> constructor
      exact (hq.trans (isPartOf_of_mem_split hpart)).trans_isStrictPartOf
        (isStrictPartOf_drop (by omega) (by omega))
    · constructor

end forms

theorem asks_readToken {P : Slice → Prop} (s : Slice) {value : Token → Option (Query Expr)}
    (h : ∀ t q, value t = some q → q.Asks P) : (readToken s value).Asks P := by
  unfold readToken
  split
  · split
    · exact asks_map _ (h _ _ ‹_›)
    · constructor
  · constructor

/-- A form asks about nothing but strict parts of its slice. -/
theorem asks_form (f : Form) (s : Slice) : (f.read s).Asks (·.IsStrictPartOf s) := by
  have h (q : Slice) (hq : q.IsStrictPartOf s) : q.IsStrictPartOf s := hq
  cases f with
  | parenthesized => exact asks_readParenthesized s h
  | article => exact asks_readArticle s h
  | ternary => exact asks_readTernary s h
  | selection => exact asks_readSelection s h
  | operators l => exact asks_readOperators s h l
  | unary op => exact asks_readUnary s h op
  | typeCheck => exact asks_readTypeCheck s h
  | nullCheck => exact asks_readNullCheck s h
  | phrase p => exact asks_readPhrase s h p
  | cast => exact asks_readCast s h
  | slice => exact asks_readSlice s h
  | index => exact asks_readIndex s h
  | call => exact asks_readCall s h
  | list => exact asks_readList s h
  -- A single token has no part to ask for.
  | number =>
    refine asks_readToken s fun t q hq => ?_
    split at hq
    · exact Option.some.inj hq ▸ asks_literalOr _ _ _
    · cases hq
  | ordinal =>
    refine asks_readToken s fun t q hq => ?_
    split at hq
    · exact Option.some.inj hq ▸ asks_literalOr _ _ _
    · cases hq
  | text =>
    refine asks_readToken s fun t q hq => ?_
    split at hq
    · exact Option.some.inj hq ▸ asks_literalOr _ _ _
    · exact Option.some.inj hq ▸ asks_literalOr _ _ _
    · cases hq
  | constant =>
    refine asks_readToken s fun t q hq => ?_
    obtain ⟨v, -, rfl⟩ := Option.map_eq_some_iff.mp hq
    constructor
  | identifier =>
    refine asks_readToken s fun t q hq => ?_
    obtain ⟨n, -, rfl⟩ := Option.map_eq_some_iff.mp hq
    constructor

section answers

/-- Every expression that is read in a slice stands in the relation `A` to it. -/
def Answers (A : Slice → Expr → Prop) (q : Slice) (r : Reading) : Prop :=
  ∀ rule e, r = some (rule, e) → A q e

variable {A : Slice → Expr → Prop} {part : Slice} {whole : List Token} {origin name : String}
  {level : Nat} {side : Side} {e : Expr}

theorem answer_of_read {rule : Rule} (h : Reaches (Answers A) (read part) (some (rule, e))) :
    A part e :=
  reaches_question_iff.mp h rule e rfl

theorem answer_of_requiredOr {missing invalid : Problem}
    (h : Reaches (Answers A) (requiredOr missing invalid part) e) : A part e := by
  unfold requiredOr at h
  split at h
  · exact (not_reaches_fail _ _ h).elim
  · obtain ⟨_ | ⟨rule, e'⟩, hread, h⟩ := reaches_bind_iff.mp h
    · exact (not_reaches_fail _ _ h).elim
    · obtain rfl := reaches_pure_iff.mp h
      exact answer_of_read hread

theorem answer_of_required (h : Reaches (Answers A) (required origin name part whole) e) :
    A part e :=
  answer_of_requiredOr h

theorem answer_of_operand (h : Reaches (Answers A) (operand level side part) (.bound e)) :
    A part e := by
  obtain ⟨_ | ⟨rule, e'⟩, hread, h⟩ := reaches_bind_iff.mp h
  · cases reaches_pure_iff.mp h
  · obtain ⟨rule', -, h⟩ := reaches_bind_iff.mp h
    have hbound := reaches_pure_iff.mp h
    split at hbound
    · cases hbound
    · cases hbound
      exact answer_of_read hread

theorem answer_of_requiredOperand
    (h : Reaches (Answers A) (requiredOperand origin name level side part whole) (some e)) :
    A part e := by
  unfold requiredOperand at h
  split at h
  · exact (not_reaches_fail _ _ h).elim
  · obtain ⟨operand, hoperand, h⟩ := reaches_bind_iff.mp h
    cases operand with
    | bound e' =>
      cases reaches_pure_iff.mp h
      exact answer_of_operand hoperand
    | looser => cases reaches_pure_iff.mp h
    | unread => exact (not_reaches_fail _ _ h).elim

/-- A form that ends with a required operand accepts what it makes of this operand. -/
theorem exists_answer_of_requiredOperand {f : Expr → Expr} {next : Option Expr → Query (Option Expr)}
    (h : Reaches (Answers A) (requiredOperand origin name level side part whole >>= next) (some e))
    (hsome : ∀ e', next (some e') = pure (some (f e'))) (hnone : next none = pure none) :
    ∃ e', e = f e' ∧ A part e' := by
  obtain ⟨_ | e', hoperand, h⟩ := reaches_bind_iff.mp h
  · rw [hnone] at h
    cases reaches_pure_iff.mp h
  · rw [hsome] at h
    cases reaches_pure_iff.mp h
    exact ⟨e', rfl, answer_of_requiredOperand hoperand⟩

theorem exists_of_literalOr {B : (q : Slice) → Reading → Prop} {t : Token}
    {value : Except LiteralFault Literal} (h : Reaches B (literalOr origin t value) e) :
    ∃ v, value = .ok v ∧ e = literal t.position v := by
  unfold literalOr at h
  split at h
  · exact ⟨_, rfl, reaches_pure_iff.mp h⟩
  · exact (not_reaches_fail _ _ h).elim

/-- A form of one token accepts what the value of this token reaches. -/
theorem exists_of_readToken {B : (q : Slice) → Reading → Prop} {s : Slice}
    {value : Token → Option (Query Expr)} (h : Reaches B (readToken s value) (some e)) :
    ∃ t q, s.tokens = [t] ∧ value t = some q ∧ Reaches B q e := by
  unfold readToken at h
  split at h
  · rename_i t hs
    split at h
    · rename_i q hq
      obtain ⟨e', he', he⟩ := reaches_map_iff.mp h
      cases he
      exact ⟨t, q, hs, hq, he'⟩
    · cases reaches_pure_iff.mp h
  · cases reaches_pure_iff.mp h

end answers

end Prose.Expr
