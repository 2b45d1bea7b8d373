import Prose.Slice

namespace Prose.Slice

/-- The tokens of `q` are neighbours in `s`, at the place where `q` begins. -/
def IsPartOf (q s : Slice) : Prop :=
  ∃ i, q.start = s.start + i ∧ q.tokens <+: s.tokens.drop i

def IsStrictPartOf (q s : Slice) : Prop :=
  q.IsPartOf s ∧ q.length < s.length

variable {q r s : Slice}

theorem IsPartOf.refl (s : Slice) : s.IsPartOf s :=
  ⟨0, rfl, List.prefix_rfl⟩

theorem IsPartOf.trans (hq : q.IsPartOf r) (hr : r.IsPartOf s) : q.IsPartOf s := by
  obtain ⟨i, hi, hqi⟩ := hq
  obtain ⟨j, hj, hrj⟩ := hr
  refine ⟨j + i, by omega, hqi.trans ?_⟩
  obtain ⟨ts, hts⟩ := hrj
  rw [← List.drop_drop, ← hts, List.drop_append]
  exact List.prefix_append _ _

theorem IsPartOf.length_le (h : q.IsPartOf s) : q.length ≤ s.length := by
  obtain ⟨i, -, hi⟩ := h
  have hl := hi.length_le
  rw [List.length_drop] at hl
  exact Nat.le_trans hl (Nat.sub_le _ _)

theorem isPartOf_take (s : Slice) (n : Nat) : (s.take n).IsPartOf s :=
  ⟨0, rfl, List.take_prefix n _⟩

theorem isPartOf_drop (s : Slice) (n : Nat) : (s.drop n).IsPartOf s :=
  ⟨n, rfl, List.prefix_rfl⟩

theorem isPartOf_extract (s : Slice) (i j : Nat) : (s.extract i j).IsPartOf s :=
  (isPartOf_drop _ i).trans (isPartOf_take s j)

/-- Parts of one slice with the same start and the same length are the same. -/
theorem IsPartOf.eq_of_key (hq : q.IsPartOf s) (hr : r.IsPartOf s) (hs : q.start = r.start)
    (hl : q.length = r.length) : q = r := by
  obtain ⟨i, hi, hqi⟩ := hq
  obtain ⟨j, hj, hrj⟩ := hr
  have hij : i = j := by omega
  subst hij
  obtain ⟨a, qs⟩ := q
  obtain ⟨b, rs⟩ := r
  have ht : qs = rs := (List.prefix_of_prefix_length_le hqi hrj (Nat.le_of_eq hl)).eq_of_length hl
  simp only at hs ht
  rw [hs, ht]

section tokens

variable (s : Slice)

@[simp] theorem tokens_take (n : Nat) : (s.take n).tokens = s.tokens.take n := rfl

@[simp] theorem tokens_drop (n : Nat) : (s.drop n).tokens = s.tokens.drop n := rfl

@[simp] theorem tokens_extract (i j : Nat) :
    (s.extract i j).tokens = (s.tokens.take j).drop i := rfl

theorem drop_drop (i j : Nat) : (s.drop i).drop j = s.drop (i + j) := by
  simp only [drop, List.drop_drop, Nat.add_assoc]

theorem take_take {i j : Nat} (h : i ≤ j) : (s.take j).take i = s.take i := by
  simp only [take, List.take_take, Nat.min_eq_left h]

/-- The first tokens of what stands behind an index. -/
theorem drop_take (i n : Nat) : (s.take n).drop i = (s.drop i).take (n - i) := by
  simp only [take, drop, List.drop_take]

theorem take_drop (i n : Nat) : (s.drop i).take n = s.extract i (i + n) := by
  rw [extract, drop_take, Nat.add_sub_cancel_left]

theorem take_drop_one (i : Nat) : (s.drop 1).take i = (s.take (i + 1)).drop 1 :=
  (s.drop_take 1 (i + 1)).symm

theorem extract_take {i j n : Nat} (h : j ≤ n) : (s.take n).extract i j = s.extract i j := by
  rw [extract, take_take s h, extract]

theorem extract_length (i : Nat) : s.extract i s.length = s.drop i := by
  rw [extract, take, length, List.take_length]

end tokens

section append

variable (pre mid post : List Token) {i j : Nat}

theorem drop_tokens_eq (hs : s.tokens = pre ++ post) (hi : i = pre.length) :
    s.tokens.drop i = post := by
  rw [hs, hi, List.drop_left]

/-- The first of two runs of tokens. -/
theorem take_eq (hs : s.tokens = pre ++ post) (hi : i = pre.length) :
    s.take i = ⟨s.start, pre⟩ := by
  rw [take, hs, hi, List.take_left]

/-- A closing `.` is left out. -/
theorem withoutTerminator_of_concat {t : Token} (ht : t.keyword = .endOfStatement)
    (hs : s.tokens = pre ++ [t]) : s.withoutTerminator = ⟨s.start, pre⟩ := by
  simp [withoutTerminator, hs, ht, take, length]

/-- The closing `.` that is left out is the last token. -/
theorem eq_or_of_withoutTerminator (s : Slice) : s.withoutTerminator = s ∨
    ∃ d, d.keyword = .endOfStatement ∧ s.tokens = s.withoutTerminator.tokens ++ [d] := by
  by_cases hlast : s.tokens.getLast?.any (·.keyword == .endOfStatement) = true
  · obtain ⟨d, hget, hd⟩ := (Option.any_eq_true _ _).mp hlast
    obtain ⟨ts, hs⟩ := List.getLast?_eq_some_iff.mp hget
    have hdot : d.keyword = .endOfStatement := beq_iff_eq.mp hd
    exact .inr ⟨d, hdot, by rw [withoutTerminator_of_concat ts hdot hs, hs]⟩
  · exact .inl (if_neg hlast)

/-- The second of two runs of tokens. -/
theorem drop_eq (hs : s.tokens = pre ++ post) (hi : i = pre.length) :
    s.drop i = ⟨s.start + i, post⟩ := by
  rw [drop, hs, hi, List.drop_left]

/-- The middle one of three runs of tokens. -/
theorem extract_eq (hs : s.tokens = pre ++ (mid ++ post)) (hi : i = pre.length)
    (hj : j = pre.length + mid.length) : s.extract i j = ⟨s.start + i, mid⟩ := by
  have htake : s.take j = ⟨s.start, pre ++ mid⟩ :=
    take_eq (pre ++ mid) post (by rw [hs, List.append_assoc]) (by rw [hj, List.length_append])
  rw [extract, htake]
  exact drop_eq pre mid rfl hi

/-- A run of tokens from an index on. -/
theorem extract_tokens_of_drop (hs : s.tokens.drop i = mid ++ post) :
    (s.extract i (i + mid.length)).tokens = mid := by
  rw [tokens_extract, List.drop_take, hs, Nat.add_sub_cancel_left, List.take_left]

/-- What stands behind a run of tokens and one more token. -/
theorem drop_tokens_of_drop {t : Token} (hs : s.tokens.drop i = mid ++ t :: post) :
    s.tokens.drop (i + mid.length + 1) = post := by
  rw [Nat.add_assoc, ← List.drop_drop, hs, ← List.drop_drop, List.drop_left, List.drop_one,
    List.tail_cons]

end append

theorem IsStrictPartOf.trans_isPartOf (hq : q.IsStrictPartOf r) (hr : r.IsPartOf s) :
    q.IsStrictPartOf s :=
  ⟨hq.1.trans hr, Nat.lt_of_lt_of_le hq.2 hr.length_le⟩

theorem IsPartOf.trans_isStrictPartOf (hq : q.IsPartOf r) (hr : r.IsStrictPartOf s) :
    q.IsStrictPartOf s :=
  ⟨hq.trans hr.1, Nat.lt_of_le_of_lt hq.length_le hr.2⟩

theorem isStrictPartOf_take {n : Nat} (h : n < s.length) : (s.take n).IsStrictPartOf s :=
  ⟨isPartOf_take s n, by rw [length_take]; omega⟩

theorem isStrictPartOf_drop {n : Nat} (h : 0 < s.length) (hn : 0 < n) :
    (s.drop n).IsStrictPartOf s :=
  ⟨isPartOf_drop s n, by rw [length_drop]; omega⟩

theorem isStrictPartOf_extract {i j : Nat} (h : 0 < s.length) (hi : 0 < i) :
    (s.extract i j).IsStrictPartOf s :=
  ⟨isPartOf_extract s i j, by rw [length_extract]; omega⟩

end Prose.Slice
