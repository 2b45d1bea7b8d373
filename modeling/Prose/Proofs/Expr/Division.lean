import Prose.Proofs.Expr.Sign
import Prose.Proofs.Expr.Verdict
import Prose.Proofs.Slice.Prefix

namespace Prose

open Prose.Expr Grammar

/-- The form divides the slice at an index: before it stands an operand, at it a sign of the form. -/
def Expr.Form.Divides (f : Form) (s : Slice) (i : Nat) : Prop :=
  0 < i ∧
    match f with
    | operators l => i + 1 < s.length ∧ ∃ k ∈ (operators l).signs, (i, k) ∈ depthZero 0 0 s.tokens
    | typeCheck => i + 2 = s.length ∧ (i, .isA) ∈ depthZero 0 0 s.tokens ∧
        ∃ t ∈ s.tokens.getLast?, (TypeName.ofKeyword? t.keyword).isSome = true
    | nullCheck => i + 1 = s.length ∧ ∃ t ∈ s.tokens.getLast?, t.keyword ∈ nullCheck.signs
    | _ => False

variable {f : Form} {s : Slice} {i : Nat}

section operators

variable {l : OperatorLevel} {is : List Nat}

def operatorAt? (s : Slice) (l : OperatorLevel) (i : Nat) : Option BinaryOp :=
  if i = 0 ∨ i + 1 = s.length then none
  else s.tokens[i]?.bind fun t => l.operators.lookup t.keyword

theorem divides_of_operatorAt? {op : BinaryOp} (h : operatorAt? s l i = some op)
    (hi : i ∈ s.positionsOf (l.operators.map (·.1))) : (Form.operators l).Divides s i := by
  obtain ⟨k, hk, hmem⟩ := Slice.mem_positionsOf_iff.mp hi
  have hlt := Slice.lt_length_of_getElem? (getElem?_of_mem_depthZero hmem).2
  unfold operatorAt? at h
  split at h
  · cases h
  · rename_i hends
    exact ⟨by omega, by omega, k, hk, hmem⟩

theorem exists_operatorAt? (h : (Form.operators l).Divides s i) :
    i ∈ s.positionsOf (l.operators.map (·.1)) ∧ ∃ op, operatorAt? s l i = some op := by
  obtain ⟨hpos, hlt, k, hk, hmem⟩ := h
  refine ⟨Slice.mem_positionsOf_iff.mpr ⟨k, hk, hmem⟩, ?_⟩
  have htoken := (getElem?_of_mem_depthZero hmem).2
  rw [operatorAt?, if_neg (by omega)]
  match ht : s.tokens[i]? with
  | none =>
    rw [Nat.sub_zero, ht] at htoken
    cases htoken
  | some t =>
    rw [Nat.sub_zero, ht] at htoken
    cases htoken
    have hlookup : ∀ k ∈ l.operators.map (·.1), (l.operators.lookup k).isSome = true := by
      cases l <;> decide
    exact Option.isSome_iff_exists.mp (hlookup _ hk)

/-- At an operator a slice is read if both sides are operands, and otherwise at a later one. -/
theorem readSplit_cons {op : BinaryOp} (hop : operatorAt? s l i = some op) :
    readSplit s l (i :: is) = (do
      match ← operand l.level .before (s.take i) with
      | .bound left =>
        match ← operand l.level .after (s.drop (i + 1)) with
        | .bound right => pure (some (.binary s.position left op right))
        | _ => readSplit s l is
      | _ => readSplit s l is) := by
  unfold operatorAt? at hop
  rw [readSplit]
  split
  · rename_i hnone
    rw [hop] at hnone
    cases hnone
  · rename_i op' hop'
    rw [hop] at hop'
    cases hop'
    rfl

theorem readSplit_cons_of_none (hop : operatorAt? s l i = none) :
    readSplit s l (i :: is) = readSplit s l is := by
  unfold operatorAt? at hop
  rw [readSplit, hop]

/-- What is read is read at the first operator, or it is what is read at the later ones. -/
theorem readSplit_cons_cases {r : Option Expr}
    (h : (readSplit s l (i :: is)).resolve standard.outcome = .ok r) :
    (r.isSome = true ∧ (operatorAt? s l i).isSome = true ∧ (s.take i).IsOperand l.level .before ∧
      (s.drop (i + 1)).IsOperand l.level .after) ∨
      (readSplit s l is).resolve standard.outcome = .ok r := by
  cases hop : operatorAt? s l i with
  | none =>
    rw [readSplit_cons_of_none hop] at h
    exact .inr h
  | some op =>
    rw [readSplit_cons hop] at h
    obtain ⟨left | _ | _, hleft, h⟩ := Inquiry.resolve_bind_eq_ok.mp h
    · obtain ⟨right | _ | _, hright, h⟩ := Inquiry.resolve_bind_eq_ok.mp h
      · cases h
        have hl := operand_bound_iff.mp ⟨left, hleft⟩
        have hr := operand_bound_iff.mp ⟨right, hright⟩
        exact .inl ⟨rfl, rfl, hl, hr⟩
      · exact .inr h
      · exact .inr h
    · exact .inr h
    · exact .inr h

/-- The operator at which a slice was read. -/
theorem exists_mem_of_readSplit {e : Expr}
    (h : (readSplit s l is).resolve standard.outcome = .ok (some e)) :
    ∃ i ∈ is, (operatorAt? s l i).isSome = true ∧ (s.take i).IsOperand l.level .before ∧
      (s.drop (i + 1)).IsOperand l.level .after := by
  induction is with
  | nil => cases h
  | cons i is ih =>
    rcases readSplit_cons_cases h with ⟨-, hfirst⟩ | hlater
    · exact ⟨i, List.mem_cons_self .., hfirst⟩
    · obtain ⟨j, hj, hread⟩ := ih hlater
      exact ⟨j, List.mem_cons_of_mem i hj, hread⟩

/-- A slice is not rejected if one of the operators stands between operands. -/
theorem readSplit_ne_none {op : BinaryOp} (hi : i ∈ is) (hop : operatorAt? s l i = some op)
    (hl : (s.take i).IsOperandOrFails l.level .before)
    (hr : (s.drop (i + 1)).IsOperandOrFails l.level .after) :
    (readSplit s l is).resolve standard.outcome ≠ .ok none := by
  rw [Slice.isOperandOrFails_iff] at hl hr
  induction is with
  | nil => cases hi
  | cons j is ih =>
    intro h
    rcases List.mem_cons.mp hi with rfl | hi
    -- Both sides are operands here, or one of them fails; no later operator is tried.
    · rw [readSplit_cons hop] at h
      obtain ⟨o, hleft, h⟩ := Inquiry.resolve_bind_eq_ok.mp h
      rcases hl with ⟨left, hl⟩ | ⟨p, hl⟩
      · rw [hl] at hleft
        cases hleft
        obtain ⟨o, hright, h⟩ := Inquiry.resolve_bind_eq_ok.mp h
        rcases hr with ⟨right, hr⟩ | ⟨p, hr⟩
        · rw [hr] at hright
          cases hright
          cases h
        · rw [hr] at hright
          cases hright
      · rw [hl] at hleft
        cases hleft
    · rcases readSplit_cons_cases h with ⟨hsome, -⟩ | hlater
      · cases hsome
      · exact ih hi hlater

end operators

section checks

theorem not_mem_signs_of_type {k : Keyword} (hk : (TypeName.ofKeyword? k).isSome = true) :
    k ∉ Form.nullCheck.signs := by
  revert hk
  cases k <;> decide

theorem tokens_of_requiredType {origin : String} {part : Slice} {whole : List Token} {n : TypeName}
    (h : (requiredType origin part whole).resolve standard.outcome = .ok n) :
    ∃ t, part.tokens = [t] ∧ (TypeName.ofKeyword? t.keyword).isSome = true := by
  unfold requiredType at h
  match hp : part.tokens with
  | [] =>
    simp only [hp] at h
    cases h
  | [t] =>
    simp only [hp] at h
    cases ht : TypeName.ofKeyword? t.keyword with
    | none =>
      rw [ht] at h
      cases h
    | some n' => exact ⟨t, rfl, by rw [ht]; rfl⟩
  | t :: u :: ts =>
    simp only [hp] at h
    cases h

/-- A slice with a type as its only token behind an index. -/
theorem Slice.getLast?_of_drop {t : Token} (h : s.tokens.drop i = [t]) :
    i + 1 = s.length ∧ s.tokens.getLast? = some t := by
  have hlength := congrArg List.length h
  have hlast := congrArg List.getLast? h
  rw [List.length_drop, List.length_singleton] at hlength
  rw [List.getLast?_drop, if_neg (by omega)] at hlast
  refine ⟨?_, hlast⟩
  rw [Slice.length]
  omega

theorem divides_of_accepts_typeCheck (h : Form.typeCheck.Accepts s) :
    ∃ i, Form.typeCheck.Divides s i ∧ (s.take i).IsOperand Form.typeCheck.level .before := by
  obtain ⟨e, he⟩ := h
  rw [verdict, Form.read, readTypeCheck_eq] at he
  cases hlast : (s.allOf .isA).getLast? with
  | none =>
    rw [hlast] at he
    cases he
  | some i =>
    rw [hlast] at he
    simp only at he
    split at he
    · cases he
    · rename_i hends
      obtain ⟨n, htype, he⟩ := Inquiry.resolve_bind_eq_ok.mp he
      obtain ⟨t, ht, hkey⟩ := tokens_of_requiredType htype
      obtain ⟨hlength, hlast'⟩ := Slice.getLast?_of_drop ht
      have hmem := Slice.mem_depthZero_of_mem_allOf (List.mem_of_getLast? hlast)
      refine ⟨i, ⟨by omega, by omega, hmem, t, hlast', hkey⟩, ?_⟩
      obtain ⟨e' | e', hoperand, he⟩ := Inquiry.resolve_bind_eq_ok.mp he
      · cases he
      · exact isOperand_of_requiredOperand hoperand

/-- A type check commits to the last `is a` that stands inside. -/
theorem not_rejects_of_divides_typeCheck (h : Form.typeCheck.Divides s i)
    (hl : (s.take i).IsOperandOrFails Form.typeCheck.level .before) :
    ¬ Form.typeCheck.Rejects s := by
  obtain ⟨hpos, hlength, hmem, t, ht, hkey⟩ := h
  have hi : i ∈ s.allOf .isA := Slice.mem_allOf_iff.mpr hmem
  match hlast : (s.allOf .isA).getLast? with
  | none =>
    rw [List.getLast?_eq_none_iff] at hlast
    rw [hlast] at hi
    cases hi
  | some j =>
    have hle := Slice.le_of_getLast?_allOf hlast hi
    have htoken := Slice.getElem?_of_mem_allOf (List.mem_of_getLast? hlast)
    have hlt := Slice.lt_length_of_getElem? htoken
    -- The last token is a type, so the last `is a` is the one in front of it.
    have hj : j = i := by
      by_contra hne
      have hend : j = s.tokens.length - 1 := by
        rw [Slice.length] at hlength hlt
        omega
      rw [hend, ← List.getLast?_eq_getElem?, ht] at htoken
      have hisA : t.keyword = .isA := Option.some.inj htoken
      rw [hisA] at hkey
      cases hkey
    subst hj
    rw [Form.Rejects, verdict, Form.read, readTypeCheck_eq, hlast]
    simp only
    rw [if_neg (by omega)]
    intro hreject
    obtain ⟨n, htype, he⟩ := Inquiry.resolve_bind_eq_ok.mp hreject
    obtain ⟨_ | e, hoperand, he⟩ := Inquiry.resolve_bind_eq_ok.mp he
    · exact requiredOperand_ne_none hl hoperand
    · cases he

/-- A null check asks for one operand, the tokens before its last one. -/
theorem exists_readNullCheck_eq (h : Form.nullCheck.Divides s i) :
    ∃ negated, readNullCheck s = (do
      match ← requiredOperand "parse_null_check" "a value to test" Form.nullCheck.level .before
          (s.take i) s.tokens with
      | some e => pure (some (.nullCheck s.position e negated))
      | none => pure none) := by
  obtain ⟨hpos, hlength, t, ht, hk⟩ := h
  have hi : s.length - 1 = i := by omega
  rw [readNullCheck_eq, ht, Option.map_some, hi]
  rcases List.mem_cons.mp hk with hk | hk
  · rw [hk]
    exact ⟨false, if_neg (by omega)⟩
  · rw [List.mem_singleton.mp hk]
    exact ⟨true, if_neg (by omega)⟩

theorem readNullCheck_eq_pure_none (h : ¬ Form.nullCheck.Divides s (s.length - 1)) :
    readNullCheck s = pure none := by
  rw [readNullCheck_eq]
  cases hlast : s.tokens.getLast? with
  | none => rfl
  | some t =>
    rw [Option.map_some]
    by_cases hlength : s.length ≤ 1
    · simp only [if_pos hlength]
      split <;> rfl
    · have hk : t.keyword ∉ Form.nullCheck.signs :=
        fun hk => h ⟨by omega, by omega, t, hlast, hk⟩
      generalize t.keyword = k at hk
      cases k <;> first | rfl | exact (hk (by decide)).elim

theorem divides_of_accepts_nullCheck (h : Form.nullCheck.Accepts s) :
    ∃ i, Form.nullCheck.Divides s i ∧ (s.take i).IsOperand Form.nullCheck.level .before := by
  obtain ⟨e, he⟩ := h
  rw [verdict, Form.read] at he
  by_cases hdivides : Form.nullCheck.Divides s (s.length - 1)
  · obtain ⟨negated, hread⟩ := exists_readNullCheck_eq hdivides
    rw [hread] at he
    obtain ⟨_ | e', hoperand, he⟩ := Inquiry.resolve_bind_eq_ok.mp he
    · cases he
    · exact ⟨_, hdivides, isOperand_of_requiredOperand hoperand⟩
  · rw [readNullCheck_eq_pure_none hdivides] at he
    cases he

theorem not_rejects_of_divides_nullCheck (h : Form.nullCheck.Divides s i)
    (hl : (s.take i).IsOperandOrFails Form.nullCheck.level .before) :
    ¬ Form.nullCheck.Rejects s := by
  obtain ⟨negated, hread⟩ := exists_readNullCheck_eq h
  rw [Form.Rejects, verdict, Form.read, hread]
  intro hreject
  obtain ⟨_ | e, hoperand, he⟩ := Inquiry.resolve_bind_eq_ok.mp hreject
  · exact requiredOperand_ne_none hl hoperand
  · cases he

end checks

/-- A form that begins with an operand divides what it accepts between operands of its own. -/
theorem exists_divides_of_accepts (hf : f.fixity.isOpenLeft = true) (h : f.Accepts s) :
    ∃ i, f.Divides s i ∧ (s.take i).IsOperand f.level .before ∧
      (f.fixity.isOpenRight = true → (s.drop (i + 1)).IsOperand f.level .after) := by
  cases f with
  | operators l =>
    obtain ⟨e, he⟩ := h
    rw [verdict, Form.read, readOperators_eq] at he
    obtain ⟨i, hi, hop, hl, hr⟩ := exists_mem_of_readSplit he
    obtain ⟨op, hop⟩ := Option.isSome_iff_exists.mp hop
    have hi' : i ∈ s.positionsOf (l.operators.map (·.1)) := by
      split at hi
      · exact hi
      · exact List.mem_reverse.mp hi
    exact ⟨i, divides_of_operatorAt? hop hi', hl, fun _ => hr⟩
  | typeCheck =>
    obtain ⟨i, hi, hl⟩ := divides_of_accepts_typeCheck h
    exact ⟨i, hi, hl, fun hr => by cases hr⟩
  | nullCheck =>
    obtain ⟨i, hi, hl⟩ := divides_of_accepts_nullCheck h
    exact ⟨i, hi, hl, fun hr => by cases hr⟩
  | _ => cases hf

/-- A form that can divide the slice between operands of its own does not reject it. -/
theorem not_rejects_of_divides (h : f.Divides s i)
    (hl : (s.take i).IsOperandOrFails f.level .before)
    (hr : f.fixity.isOpenRight = true → (s.drop (i + 1)).IsOperandOrFails f.level .after) :
    ¬ f.Rejects s := by
  cases f with
  | operators l =>
    obtain ⟨hi, op, hop⟩ := exists_operatorAt? h
    rw [Form.Rejects, verdict, Form.read, readOperators_eq]
    refine readSplit_ne_none ?_ hop hl (hr rfl)
    split
    · exact hi
    · exact List.mem_reverse.mpr hi
  | typeCheck => exact not_rejects_of_divides_typeCheck h hl
  | nullCheck => exact not_rejects_of_divides_nullCheck h hl
  | _ => exact h.2.elim

/-- What stands before an index that divides a slice is shorter than the slice. -/
theorem Expr.Form.Divides.lt_length (h : f.Divides s i) : i < s.length := by
  obtain ⟨-, h⟩ := h
  cases f with
  | operators l => exact Nat.lt_of_succ_lt h.1
  | typeCheck =>
    have hlength : i + 2 = s.length := h.1
    omega
  | nullCheck =>
    have hlength : i + 1 = s.length := h.1
    omega
  | _ => exact h.elim

theorem Expr.Form.Divides.isOpenLeft (h : f.Divides s i) : f.fixity.isOpenLeft = true := by
  cases f with
  | operators l => rfl
  | typeCheck => rfl
  | nullCheck => rfl
  | _ => exact h.2.elim

/-- Behind a flat token of depth zero a slice is divided where the whole is. -/
theorem divides_drop_iff {j : Nat} {k : Keyword} (hj : (j, k) ∈ depthZero 0 0 s.tokens)
    (ho : k.isOpener = false) (hc : k.isCloser = false) (hpos : 0 < i) :
    f.Divides (s.drop (j + 1)) i ↔ f.Divides s (i + (j + 1)) := by
  have hmem (k' : Keyword) : (i, k') ∈ depthZero 0 0 (s.drop (j + 1)).tokens ↔
      (i + (j + 1), k') ∈ depthZero 0 0 s.tokens := Slice.mem_depthZero_drop_iff hj ho hc
  have hlength : (s.drop (j + 1)).length = s.length - (j + 1) := s.length_drop (j + 1)
  have hlast : j + 1 < s.length → (s.drop (j + 1)).tokens.getLast? = s.tokens.getLast? := by
    intro hlt
    have hle : ¬ s.tokens.length ≤ j + 1 := Nat.not_le.mpr hlt
    rw [Slice.tokens_drop, List.getLast?_drop, if_neg hle]
  have hindex (n : Nat) : i + n = (s.drop (j + 1)).length ↔ i + (j + 1) + n = s.length := by
    rw [hlength]
    omega
  unfold Form.Divides
  simp only [hpos, Nat.add_pos_left hpos, true_and]
  -- Only operators and checks divide a slice, and a check does so by what stands at its end.
  cases f with
  | operators l =>
    simp only [hmem, hlength]
    constructor
    · rintro ⟨hlt, k', hk'⟩
      exact ⟨by omega, k', hk'⟩
    · rintro ⟨hlt, k', hk'⟩
      exact ⟨by omega, k', hk'⟩
  | typeCheck =>
    simp only [hmem, hindex 2]
    constructor
    · rintro ⟨hend, hisA, hkey⟩
      rw [hlast (by omega)] at hkey
      exact ⟨hend, hisA, hkey⟩
    · rintro ⟨hend, hisA, hkey⟩
      rw [hlast (by omega)]
      exact ⟨hend, hisA, hkey⟩
  | nullCheck =>
    simp only [hindex 1]
    constructor
    · rintro ⟨hend, hkey⟩
      rw [hlast (by omega)] at hkey
      exact ⟨hend, hkey⟩
    · rintro ⟨hend, hkey⟩
      rw [hlast (by omega)]
      exact ⟨hend, hkey⟩
  | _ => exact Iff.rfl

/-- The first tokens of a slice are divided where the slice is. -/
theorem divides_take_operators_iff {l : OperatorLevel} {n : Nat} (hn : n ≤ s.length) :
    (Form.operators l).Divides (s.take n) i ↔ (Form.operators l).Divides s i ∧ i + 1 < n := by
  have hlength : (s.take n).length = n := by
    rw [Slice.length_take]
    exact Nat.min_eq_left hn
  have happend : s.tokens = (s.take n).tokens ++ s.tokens.drop n := (List.take_append_drop n _).symm
  have htake : (s.take n).tokens.length = n := hlength
  constructor
  · rintro ⟨hpos, hlt, k, hk, hmem⟩
    rw [hlength] at hlt
    refine ⟨⟨hpos, by omega, k, hk, ?_⟩, hlt⟩
    rw [happend]
    exact mem_depthZero_append_left _ hmem
  · rintro ⟨⟨hpos, -, k, hk, hmem⟩, hlt⟩
    refine ⟨hpos, by rw [hlength]; exact hlt, k, hk, ?_⟩
    rw [happend] at hmem
    exact mem_depthZero_of_append hmem (by simp only [htake]; omega)

end Prose
