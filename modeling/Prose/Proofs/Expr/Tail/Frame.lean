import Prose.Proofs.Expr.Head

namespace Prose

open Prose.Expr Grammar

def Keyword.isCheckWord : Keyword → Bool
  | isA | isNull | isNotNull | numberType | textType | booleanType | characterType | list => true
  | _ => false

/-- A word that is no bracket and does not belong to a check. -/
def Keyword.IsDivider (k : Keyword) : Prop :=
  k.isOpener = false ∧ k.isCloser = false ∧ k.isCheckWord = false

instance (k : Keyword) : Decidable k.IsDivider :=
  inferInstanceAs (Decidable (_ ∧ _))

structure Slice.EndsInCheck (s : Slice) (n : Nat) : Prop where
  regular : s.IsRegular
  lt_length : n < s.length
  words : ∀ t ∈ s.tokens.drop n, t.keyword.isCheckWord = true

/-- What stands behind a dividing word and is an operand at the end of the form remains one when the
tokens behind the first `n` are cut off, or the cascade fails on what remains. -/
def Expr.Form.KeepsTails (f : Form) (s : Slice) (n : Nat) : Prop :=
  ∀ j k, (j, k) ∈ depthZero 0 0 s.tokens → k.IsDivider → (s.drop (j + 1)).IsOperand f.level .after →
    ((s.take n).drop (j + 1)).IsOperandOrFails f.level .after

variable {f : Form} {s : Slice} {k : Keyword} {i j n : Nat}

theorem Slice.IsOperandOrFails.length_pos {level : Nat} {side : Side}
    (h : s.IsOperandOrFails level side) : 0 < s.length := by
  rcases h with h | h
  · exact h.length_pos
  · obtain ⟨f, hpos, -⟩ := fails_iff.mp h
    exact hpos

namespace Slice

theorem startsWith_take (hn : 0 < n) : (s.take n).startsWith k = s.startsWith k := by
  obtain ⟨m, rfl⟩ := Nat.exists_eq_add_one_of_ne_zero (Nat.ne_of_gt hn)
  obtain ⟨a, _ | ⟨t, ts⟩⟩ := s <;> rfl

theorem mem_depthZero_of_startsWith (h : s.startsWith k = true) (hk : k.IsDivider) :
    (0, k) ∈ depthZero 0 0 s.tokens := by
  obtain ⟨t, ts, hs, rfl⟩ := startsWith_iff.mp h
  rw [hs, depthZero_flat ⟨hk.1, hk.2.1⟩]
  exact List.mem_cons_self ..

/-- What is found behind a dividing word of depth zero is at depth zero. -/
theorem mem_depthZero_of_first {k' : Keyword} (hi : (i, k') ∈ depthZero 0 0 s.tokens)
    (hk' : k'.IsDivider) (hj : s.first k (i + 1) = some j) : (j, k) ∈ depthZero 0 0 s.tokens := by
  obtain ⟨entries, he, -⟩ := exists_depthZero_eq hi hk'.1 hk'.2.1
  have hzero : depthOfCount 0 = 0 := by decide
  rw [first, firstFrom, hzero] at hj
  obtain ⟨⟨j', k''⟩, hfind, rfl⟩ := Option.map_eq_some_iff.mp hj
  have hk : k'' = k := by simpa using List.find?_some hfind
  rw [he, Nat.sub_zero, ← hk]
  exact List.mem_append_right _ (List.mem_cons_of_mem _ (List.mem_of_find?_eq_some hfind))

namespace EndsInCheck

theorem lt_of_getElem? (h : s.EndsInCheck n) (hk : k.isCheckWord = false)
    (hj : (s.tokens[j]?).map (·.keyword) = some k) : j < n := by
  by_contra hle
  obtain ⟨t, ht, rfl⟩ := Option.map_eq_some_iff.mp hj
  have hmem : t ∈ s.tokens.drop n := by
    refine List.mem_of_getElem? (i := j - n) ?_
    rw [List.getElem?_drop, Nat.add_sub_cancel' (Nat.not_lt.mp hle)]
    exact ht
  rw [h.words t hmem] at hk
  cases hk

theorem keyword_ne (h : s.EndsInCheck n) (hk : k.isCheckWord = false) :
    ∀ t ∈ s.tokens.drop n, t.keyword ≠ k := by
  rintro t ht rfl
  rw [h.words t ht] at hk
  cases hk

theorem first_take (h : s.EndsInCheck n) (hk : k.isCheckWord = false) (hi : i ≤ n) :
    (s.take n).first k i = s.first k i :=
  Slice.first_take (h.keyword_ne hk) hi

theorem pos (h : s.EndsInCheck n) (hk : k.isCheckWord = false) (hs : s.startsWith k = true) :
    0 < n := by
  obtain ⟨t, ts, hts, rfl⟩ := startsWith_iff.mp hs
  exact h.lt_of_getElem? hk (by rw [hts]; rfl)

end EndsInCheck

end Slice

section committed

/-- A conditional commits once its words are found, and then does not reject. -/
theorem not_rejects_ternary_iff : ¬ Form.ternary.Rejects s ↔ s.startsWith .ifWord = true ∧
    ∃ i e, s.first .thenWord 1 = some i ∧
      (s.drop (i + 1)).firstOf [.otherwise, .otherwiseIf] = some e := by
  cases hstart : s.startsWith .ifWord with
  | false =>
    have hreject : Form.ternary.Rejects s := by
      apply verdict_of_read_eq
      rw [Form.read, readTernary, hstart]
      rfl
    simp [hreject]
  | true =>
    obtain ⟨m, hm⟩ := Nat.exists_eq_add_one_of_ne_zero
      (Nat.ne_of_gt (s.length_pos_of_startsWith hstart))
    rw [Form.Rejects, verdict, Form.read, readTernary, hstart, if_pos rfl, hm, readTernaryFrom_succ]
    cases s.first .thenWord 1 with
    | none => simp
    | some i =>
      simp only
      rcases hother : (s.drop (i + 1)).firstOf [.otherwise, .otherwiseIf] with _ | ⟨offset, branch⟩
      · simp only [Inquiry.resolve_pure, not_true, true_and, false_iff]
        rintro ⟨j, e, hj, he⟩
        cases hj
        rw [hother] at he
        cases he
      · -- From here on whatever is missing is a failure.
        refine iff_of_true ?_ ⟨trivial, i, _, rfl, hother⟩
        intro hreject
        obtain ⟨c, -, hreject⟩ := Inquiry.resolve_bind_eq_ok.mp hreject
        obtain ⟨v, -, hreject⟩ := Inquiry.resolve_bind_eq_ok.mp hreject
        split at hreject
        · obtain ⟨_ | e, -, hreject⟩ := Inquiry.resolve_bind_eq_ok.mp hreject
          · cases hreject
          · cases hreject
        · obtain ⟨w, -, hreject⟩ := Inquiry.resolve_bind_eq_ok.mp hreject
          cases hreject

/-- A match commits once its words are found, and then does not reject. -/
theorem not_rejects_selection_iff : ¬ Form.selection.Rejects s ↔
    s.startsWith .matchWord = true ∧ ∃ i, s.first .withWord 1 = some i := by
  rw [Form.Rejects, verdict, Form.read, readSelection_eq]
  cases s.startsWith .matchWord with
  | false => simp
  | true =>
    cases s.first .withWord 1 with
    | none => simp
    | some i =>
      simp only [if_true, true_and, Option.some.injEq, exists_eq', iff_true]
      intro hreject
      obtain ⟨e, -, hreject⟩ := Inquiry.resolve_bind_eq_ok.mp hreject
      split at hreject
      · cases hreject
      · obtain ⟨r, -, hreject⟩ := Inquiry.resolve_bind_eq_ok.mp hreject
        cases hreject

/-- Without the words of a check at its end a conditional commits as with them. -/
theorem rejects_ternary_take_iff (hs : s.EndsInCheck n) (hpos : 0 < n) :
    ¬ Form.ternary.Rejects (s.take n) ↔ ¬ Form.ternary.Rejects s := by
  rw [not_rejects_ternary_iff, not_rejects_ternary_iff, Slice.startsWith_take hpos,
    hs.first_take (by decide) hpos]
  refine and_congr_right fun _ => exists_congr fun i => exists_congr fun e =>
    and_congr_right fun hfirst => ?_
  have hi : i < n := hs.lt_of_getElem? (by decide) (Slice.getElem?_of_first hfirst).2
  have hwords : ∀ t ∈ (s.drop (i + 1)).tokens.drop (n - (i + 1)),
      t.keyword ∉ [Keyword.otherwise, .otherwiseIf] := by
    rw [Slice.tokens_drop, List.drop_drop, Nat.add_sub_cancel' hi]
    intro t ht hk
    have hcheck := hs.words t ht
    rcases List.mem_cons.mp hk with hk | hk
    · rw [hk] at hcheck
      cases hcheck
    · rw [List.mem_singleton.mp hk] at hcheck
      cases hcheck
  rw [Slice.drop_take, Slice.firstOf_take hwords]

theorem rejects_selection_take_iff (hs : s.EndsInCheck n) (hpos : 0 < n) :
    ¬ Form.selection.Rejects (s.take n) ↔ ¬ Form.selection.Rejects s := by
  rw [not_rejects_selection_iff, not_rejects_selection_iff, Slice.startsWith_take hpos,
    hs.first_take (by decide) hpos]

end committed

end Prose
