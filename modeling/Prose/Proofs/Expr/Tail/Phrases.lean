import Prose.Proofs.Expr.Tail.Frame

namespace Prose

open Prose.Expr Grammar

variable {s : Slice} {i j n : Nat}

section unary

variable {op : UnaryOp}

theorem isDivider_unaryLead (op : UnaryOp) : (unaryLead op).IsDivider := by
  cases op <;> decide

theorem isOperand_of_accepts_unary (h : (Form.unary op).Accepts s) :
    s.startsWith (unaryLead op) = true ∧ (s.drop 1).IsOperand (unaryLevel op) .after := by
  obtain ⟨e, he⟩ := h
  rw [verdict, Form.read, readUnary_eq] at he
  split at he
  · rename_i hstart
    obtain ⟨_ | e', hoperand, he⟩ := Inquiry.resolve_bind_eq_ok.mp he
    · cases he
    · exact ⟨hstart.1, isOperand_of_requiredOperand hoperand⟩
  · cases he

theorem not_rejects_unary (hstart : s.startsWith (unaryLead op) = true)
    (h : (s.drop 1).IsOperandOrFails (unaryLevel op) .after) : ¬ (Form.unary op).Rejects s := by
  have hlength := h.length_pos
  rw [Slice.length_drop] at hlength
  rw [Form.Rejects, verdict, Form.read, readUnary_eq, if_pos ⟨hstart, by omega⟩]
  intro hreject
  obtain ⟨_ | e', hoperand, he⟩ := Inquiry.resolve_bind_eq_ok.mp hreject
  · exact requiredOperand_ne_none h hoperand
  · cases he

theorem not_rejects_take_unary (hs : s.EndsInCheck n) (htails : (Form.unary op).KeepsTails s n)
    (h : (Form.unary op).Accepts s) : ¬ (Form.unary op).Rejects (s.take n) := by
  obtain ⟨hstart, hoperand⟩ := isOperand_of_accepts_unary h
  have hk := isDivider_unaryLead op
  have hpos := hs.pos hk.2.2 hstart
  have hstart' : (s.take n).startsWith (unaryLead op) = true := by
    rw [Slice.startsWith_take hpos, hstart]
  exact not_rejects_unary hstart'
    (htails 0 _ (Slice.mem_depthZero_of_startsWith hstart hk) hk hoperand)

end unary

section phrase

variable {p : ArithmeticPhrase} {operands : Slice} {looser : Bool} {is : List Nat}

theorem isDivider_lead (p : ArithmeticPhrase) : p.lead.IsDivider := by
  cases p <;> decide

/-- The split at which a phrase was read. -/
theorem exists_mem_of_readPhraseSplit {e : Expr}
    (h : (readPhraseSplit p s operands looser is).resolve standard.outcome = .ok (some e)) :
    ∃ i ∈ is, (∃ r, standard.outcome (operands.take i) = .ok (some r)) ∧
      (operands.drop (i + 1)).IsOperand p.level .after := by
  induction is generalizing looser with
  | nil =>
    rw [readPhraseSplit] at h
    split at h
    · cases h
    · cases h
  | cons i is ih =>
    have hlater {b : Bool}
        (h : (readPhraseSplit p s operands b is).resolve standard.outcome = .ok (some e)) :=
      (ih h).imp fun j hj => And.imp_left (List.mem_cons_of_mem i) hj
    rw [readPhraseSplit] at h
    obtain ⟨_ | ⟨rule, left⟩, hleft, h⟩ := Inquiry.resolve_bind_eq_ok.mp h
    · exact hlater h
    · rw [Expr.read, Inquiry.resolve_question] at hleft
      obtain ⟨right | _ | _, hright, h⟩ := Inquiry.resolve_bind_eq_ok.mp h
      · exact ⟨i, List.mem_cons_self .., ⟨_, hleft⟩, operand_bound_iff.mp ⟨right, hright⟩⟩
      · exact hlater h
      · exact hlater h

/-- A phrase does not reject if one of its splits has parts that can be read. -/
theorem readPhraseSplit_ne_none {r : Rule × Expr} (hi : i ∈ is)
    (hl : standard.outcome (operands.take i) = .ok (some r))
    (hr : (operands.drop (i + 1)).IsOperandOrFails p.level .after) :
    (readPhraseSplit p s operands looser is).resolve standard.outcome ≠ .ok none := by
  rw [Slice.isOperandOrFails_iff] at hr
  induction is generalizing looser with
  | nil => cases hi
  | cons j is ih =>
    intro h
    rw [readPhraseSplit] at h
    obtain ⟨r', hleft, h⟩ := Inquiry.resolve_bind_eq_ok.mp h
    rw [Expr.read, Inquiry.resolve_question] at hleft
    rcases List.mem_cons.mp hi with rfl | hi
    -- Both parts of this split are read, or the right one fails; no later split is tried.
    · rw [hl] at hleft
      cases hleft
      obtain ⟨o, hright, h⟩ := Inquiry.resolve_bind_eq_ok.mp h
      obtain ⟨e, he⟩ | ⟨q, hq⟩ := hr
      · rw [he] at hright
        cases hright
        cases h
      · rw [hq] at hright
        cases hright
    · rcases r' with _ | ⟨rule, left⟩
      · exact ih hi h
      · obtain ⟨right | _ | _, -, h⟩ := Inquiry.resolve_bind_eq_ok.mp h
        · cases h
        · exact ih hi h
        · exact ih hi h

/-- An arithmetic phrase divides what stands behind its lead at an `and`. -/
theorem exists_and_of_accepts_phrase (h : (Form.phrase p).Accepts s) :
    s.startsWith p.lead = true ∧ ∃ i ∈ (s.drop 1).allOf .andWord, 0 < i ∧
      (∃ r, standard.outcome ((s.drop 1).take i) = .ok (some r)) ∧
        (s.drop (i + 2)).IsOperand p.level .after := by
  obtain ⟨e, he⟩ := h
  rw [verdict, Form.read, readPhrase_eq] at he
  cases hstart : s.startsWith p.lead with
  | false =>
    rw [hstart] at he
    cases he
  | true =>
    rw [hstart] at he
    simp only [if_true] at he
    split at he
    · cases he
    · split at he
      · cases he
      · obtain ⟨i, hi, hleft, hright⟩ := exists_mem_of_readPhraseSplit he
        obtain ⟨hand, hinner⟩ := List.mem_filter.mp hi
        simp only [Bool.and_eq_true, decide_eq_true_eq] at hinner
        rw [Slice.drop_drop, Nat.add_comm 1] at hright
        exact ⟨rfl, i, hand, hinner.1, hleft, hright⟩

theorem not_rejects_phrase {r : Rule × Expr} (hstart : s.startsWith p.lead = true)
    (hand : i ∈ (s.drop 1).allOf .andWord) (hi : 0 < i)
    (hl : standard.outcome ((s.drop 1).take i) = .ok (some r))
    (hr : (s.drop (i + 2)).IsOperandOrFails p.level .after) : ¬ (Form.phrase p).Rejects s := by
  have hlength := hr.length_pos
  rw [Slice.length_drop] at hlength
  have hinner : i ∈ ((s.drop 1).allOf .andWord).filter
      fun i => 0 < i && i + 1 < (s.drop 1).length := by
    rw [List.mem_filter, Slice.length_drop]
    simp only [Bool.and_eq_true, decide_eq_true_eq]
    exact ⟨hand, hi, by omega⟩
  rw [Form.Rejects, verdict, Form.read, readPhrase_eq, hstart]
  simp only [if_true]
  rw [if_neg (fun hempty => ?_), if_neg (fun hempty => ?_)]
  · refine readPhraseSplit_ne_none hinner hl ?_
    rw [Slice.drop_drop, Nat.add_comm 1]
    exact hr
  · rw [List.isEmpty_iff.mp hempty] at hinner
    cases hinner
  · rw [List.isEmpty_iff.mp hempty] at hand
    cases hand

theorem not_rejects_take_phrase (hs : s.EndsInCheck n) (htails : (Form.phrase p).KeepsTails s n)
    (h : (Form.phrase p).Accepts s) : ¬ (Form.phrase p).Rejects (s.take n) := by
  obtain ⟨hstart, i, hand, hi, ⟨r, hl⟩, hr⟩ := exists_and_of_accepts_phrase h
  have hk := isDivider_lead p
  have hpos := hs.pos hk.2.2 hstart
  have hhead := Slice.mem_depthZero_of_startsWith hstart hk
  have hmem : (i + 1, Keyword.andWord) ∈ depthZero 0 0 s.tokens :=
    (Slice.mem_depthZero_drop_iff hhead hk.1 hk.2.1).mp (Slice.mem_depthZero_of_mem_allOf hand)
  have hlt : i + 1 < n := hs.lt_of_getElem? (by decide) (getElem?_of_mem_depthZero hmem).2
  have hpart : (s.take n).drop 1 = (s.drop 1).take (n - 1) := s.drop_take 1 n
  refine not_rejects_phrase (r := r) ?_ ?_ hi ?_ (htails (i + 1) _ hmem (by decide) hr)
  · rw [Slice.startsWith_take hpos, hstart]
  · rw [hpart, Slice.allOf_take]
    · exact hand
    · rw [Slice.tokens_drop, List.drop_drop, Nat.add_sub_cancel' hpos]
      exact hs.keyword_ne (by decide)
  · rw [hpart, Slice.take_take _ (by omega)]
    exact hl

end phrase

section slice

/-- A slice form reads its last operand behind `to`. -/
theorem exists_to_of_accepts_slice (h : Form.slice.Accepts s) : s.startsWith .slice = true ∧
    ∃ fromAt toAt, s.first .fromWord 1 = some fromAt ∧ s.first .to (fromAt + 1) = some toAt ∧
      (s.drop (toAt + 1)).IsOperand Form.slice.level .after := by
  obtain ⟨e, he⟩ := h
  rw [verdict, Form.read, readSlice_eq] at he
  cases hstart : s.startsWith .slice with
  | false =>
    rw [hstart] at he
    cases he
  | true =>
    rw [hstart] at he
    simp only [if_true] at he
    split at he
    · cases he
    · rename_i fromAt hfrom
      split at he
      · cases he
      · rename_i toAt hto
        obtain ⟨collection, -, he⟩ := Inquiry.resolve_bind_eq_ok.mp he
        obtain ⟨start, -, he⟩ := Inquiry.resolve_bind_eq_ok.mp he
        obtain ⟨_ | stop, hstop, he⟩ := Inquiry.resolve_bind_eq_ok.mp he
        · cases he
        · exact ⟨rfl, fromAt, toAt, hfrom, hto, isOperand_of_requiredOperand hstop⟩

theorem not_rejects_slice {fromAt toAt : Nat} (hstart : s.startsWith .slice = true)
    (hfrom : s.first .fromWord 1 = some fromAt) (hto : s.first .to (fromAt + 1) = some toAt)
    (hr : (s.drop (toAt + 1)).IsOperandOrFails Form.slice.level .after) :
    ¬ Form.slice.Rejects s := by
  rw [Form.Rejects, verdict, Form.read, readSlice_eq, hstart]
  simp only [if_true, hfrom, hto]
  intro hreject
  obtain ⟨collection, -, hreject⟩ := Inquiry.resolve_bind_eq_ok.mp hreject
  obtain ⟨start, -, hreject⟩ := Inquiry.resolve_bind_eq_ok.mp hreject
  obtain ⟨_ | stop, hstop, hreject⟩ := Inquiry.resolve_bind_eq_ok.mp hreject
  · exact requiredOperand_ne_none hr hstop
  · cases hreject

theorem not_rejects_take_slice (hs : s.EndsInCheck n) (htails : Form.slice.KeepsTails s n)
    (h : Form.slice.Accepts s) : ¬ Form.slice.Rejects (s.take n) := by
  obtain ⟨hstart, fromAt, toAt, hfrom, hto, hr⟩ := exists_to_of_accepts_slice h
  have hpos := hs.pos (by decide) hstart
  have hhead := Slice.mem_depthZero_of_startsWith hstart (by decide)
  have hmem := Slice.mem_depthZero_of_first hhead (by decide) hfrom
  have hmem' := Slice.mem_depthZero_of_first hmem (by decide) hto
  have hlt : fromAt < n := hs.lt_of_getElem? (by decide) (getElem?_of_mem_depthZero hmem).2
  have hstart' : (s.take n).startsWith .slice = true := by
    rw [Slice.startsWith_take hpos, hstart]
  have hfrom' : (s.take n).first .fromWord 1 = some fromAt := by
    rw [hs.first_take (by decide) hpos, hfrom]
  have hto' : (s.take n).first .to (fromAt + 1) = some toAt := by
    rw [hs.first_take (by decide) hlt, hto]
  exact not_rejects_slice hstart' hfrom' hto' (htails toAt _ hmem' (by decide) hr)

end slice

section index

def Slice.HasOfAt (s : Slice) (j : Nat) : Prop :=
  if s.startsWith .item ∨ s.startsWith .element then s.first .of 1 = some j
  else j = 2 ∧ ∃ t u v ts, s.tokens = t :: u :: v :: ts ∧ t.keyword = .ordinal ∧
    (u.keyword = .item ∨ u.keyword = .element) ∧ v.keyword = .of

theorem isOperand_of_readCollection {e₀ e : Expr} {rest : Slice}
    (h : (readCollection s s.position e₀ rest).resolve standard.outcome = .ok (some e)) :
    rest.IsOperand Form.index.level .after := by
  obtain ⟨_ | collection, hcollection, h⟩ := Inquiry.resolve_bind_eq_ok.mp h
  · cases h
  · exact isOperand_of_requiredOperand hcollection

theorem readCollection_ne_none {e₀ : Expr} {rest : Slice}
    (h : rest.IsOperandOrFails Form.index.level .after) :
    (readCollection s s.position e₀ rest).resolve standard.outcome ≠ .ok none := by
  intro hreject
  obtain ⟨_ | collection, hcollection, hreject⟩ := Inquiry.resolve_bind_eq_ok.mp hreject
  · exact requiredOperand_ne_none h hcollection
  · cases hreject

theorem exists_hasOfAt_of_accepts_index (h : Form.index.Accepts s) :
    ∃ j, s.HasOfAt j ∧ (s.drop (j + 1)).IsOperand Form.index.level .after := by
  obtain ⟨e, he⟩ := h
  rw [verdict, Form.read, readIndex_eq] at he
  unfold Slice.HasOfAt
  split at he
  · rename_i hstart
    split at he
    · cases he
    · rename_i ofAt hof
      obtain ⟨index, -, he⟩ := Inquiry.resolve_bind_eq_ok.mp he
      exact ⟨ofAt, by rw [if_pos hstart]; exact hof, isOperand_of_readCollection he⟩
  · rename_i hstart
    split at he
    · rename_i t u v ts hts
      split at he
      · rename_i hwords
        obtain ⟨index, -, he⟩ := Inquiry.resolve_bind_eq_ok.mp he
        refine ⟨2, ?_, isOperand_of_readCollection he⟩
        rw [if_neg hstart]
        exact ⟨rfl, t, u, v, ts, hts, hwords⟩
      · cases he
    · cases he

theorem not_rejects_index (hj : s.HasOfAt j)
    (hr : (s.drop (j + 1)).IsOperandOrFails Form.index.level .after) : ¬ Form.index.Rejects s := by
  rw [Form.Rejects, verdict, Form.read, readIndex_eq]
  unfold Slice.HasOfAt at hj
  split at hj
  · rename_i hstart
    rw [if_pos hstart, hj]
    intro hreject
    obtain ⟨index, -, hreject⟩ := Inquiry.resolve_bind_eq_ok.mp hreject
    exact readCollection_ne_none hr hreject
  · rename_i hstart
    obtain ⟨rfl, t, u, v, ts, hts, hwords⟩ := hj
    rw [if_neg hstart, hts]
    simp only
    rw [if_pos hwords]
    intro hreject
    obtain ⟨index, -, hreject⟩ := Inquiry.resolve_bind_eq_ok.mp hreject
    exact readCollection_ne_none hr hreject

theorem Slice.HasOfAt.mem_depthZero (hj : s.HasOfAt j) :
    (j, Keyword.of) ∈ depthZero 0 0 s.tokens := by
  unfold HasOfAt at hj
  split at hj
  · rename_i hstart
    rcases hstart with hstart | hstart
    · exact mem_depthZero_of_first (mem_depthZero_of_startsWith hstart (by decide)) (by decide) hj
    · exact mem_depthZero_of_first (mem_depthZero_of_startsWith hstart (by decide)) (by decide) hj
  · obtain ⟨rfl, t, u, v, ts, hts, ht, hu, hv⟩ := hj
    have hflat {w : Token} (hw : w.keyword.IsDivider) : w.IsFlat := ⟨hw.1, hw.2.1⟩
    have hu' : u.keyword.IsDivider := by
      rcases hu with hu | hu
      · rw [hu]
        decide
      · rw [hu]
        decide
    rw [hts, depthZero_flat (hflat (by rw [ht]; decide)), depthZero_flat (hflat hu'),
      depthZero_flat (hflat (by rw [hv]; decide)), hv]
    simp

theorem Slice.HasOfAt.take (hs : s.EndsInCheck n) (hj : s.HasOfAt j) : (s.take n).HasOfAt j := by
  have hlt := hs.lt_of_getElem? (by decide) (getElem?_of_mem_depthZero hj.mem_depthZero).2
  have hpos : 0 < n := by omega
  unfold HasOfAt at hj ⊢
  simp only [startsWith_take hpos, hs.first_take (show Keyword.of.isCheckWord = false by decide) hpos]
  split at hj
  · rename_i hstart
    rw [if_pos hstart]
    exact hj
  · rename_i hstart
    obtain ⟨rfl, t, u, v, ts, hts, hwords⟩ := hj
    rw [if_neg hstart]
    refine ⟨rfl, t, u, v, ts.take (n - 3), ?_, hwords⟩
    obtain ⟨m, rfl⟩ : ∃ m, n = m + 3 := ⟨n - 3, by omega⟩
    rw [tokens_take, hts]
    rfl

theorem not_rejects_take_index (hs : s.EndsInCheck n) (htails : Form.index.KeepsTails s n)
    (h : Form.index.Accepts s) : ¬ Form.index.Rejects (s.take n) := by
  obtain ⟨j, hj, hr⟩ := exists_hasOfAt_of_accepts_index h
  exact not_rejects_index (hj.take hs) (htails j _ hj.mem_depthZero (by decide) hr)

end index

end Prose
