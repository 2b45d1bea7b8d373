import Prose.Proofs.Expr.Sign
import Prose.Proofs.Slice.Nested

namespace Prose.Slice

variable {s : Slice} {k : Keyword} {i j : Nat}

/-- A slice with a leading word is that word and the rest. -/
theorem tokens_of_startsWith (h : s.startsWith k = true) :
    ∃ t, t.keyword = k ∧ s.tokens = t :: s.tokens.drop 1 := by
  obtain ⟨t, ts, hs, hk⟩ := startsWith_iff.mp h
  exact ⟨t, hk, by rw [hs]; rfl⟩

/-- An index behind another one cuts the tokens behind the other. -/
theorem drop_tokens_eq_append (s : Slice) (hij : i ≤ j) :
    s.tokens.drop i = (s.extract i j).tokens ++ s.tokens.drop j := by
  conv_lhs => rw [← List.take_append_drop (j - i) (s.tokens.drop i), List.drop_drop]
  rw [Nat.add_sub_cancel' hij, tokens_extract, List.drop_take]

/-- A token behind an index cuts the tokens there. -/
theorem drop_tokens_of_getElem? {t : Token} (hij : i ≤ j) (ht : s.tokens[j]? = some t) :
    s.tokens.drop i = (s.extract i j).tokens ++ t :: s.tokens.drop (j + 1) := by
  obtain ⟨hlt, ht⟩ := List.getElem?_eq_some_iff.mp ht
  rw [s.drop_tokens_eq_append hij, List.drop_eq_getElem_cons hlt, ht]

theorem drop_tokens_of_first (h : s.first k i = some j) :
    ∃ t, t.keyword = k ∧
      s.tokens.drop i = (s.extract i j).tokens ++ t :: s.tokens.drop (j + 1) := by
  obtain ⟨hij, hj⟩ := getElem?_of_first h
  obtain ⟨t, ht, hk⟩ := Option.map_eq_some_iff.mp hj
  exact ⟨t, hk, drop_tokens_of_getElem? hij ht⟩

/-- A leading word and the first word `k` behind it cut a slice. -/
theorem tokens_of_lead {lead : Keyword}
    (h : (if s.startsWith lead = true then s.first k 1 else none) = some j) :
    ∃ t u, t.keyword = lead ∧ u.keyword = k ∧
      s.tokens = t :: ((s.extract 1 j).tokens ++ u :: s.tokens.drop (j + 1)) := by
  split at h
  · rename_i hlead
    obtain ⟨t, ht, hs⟩ := tokens_of_startsWith hlead
    obtain ⟨u, hu, hcut⟩ := drop_tokens_of_first h
    exact ⟨t, u, ht, hu, by rw [← hcut]; exact hs⟩
  · cases h

/-- A token in a slice cuts it. -/
theorem tokens_of_getElem? {t : Token} (ht : s.tokens[j]? = some t) :
    s.tokens = s.tokens.take j ++ t :: s.tokens.drop (j + 1) :=
  drop_tokens_of_getElem? (Nat.zero_le j) ht

/-- The tokens in front of the last one. -/
theorem tokens_take_of_concat {t : Token} {ts : List Token} (hs : s.tokens = ts ++ [t]) :
    (s.take (s.length - 1)).tokens = ts := by
  rw [tokens_take, length, hs, List.length_append, List.length_singleton, Nat.add_sub_cancel,
    List.take_left]

/-- The bracket that begins at an index, and what stands behind it. -/
theorem drop_tokens_of_matchingClose {b : Bracket} {close : Nat}
    (hstart : (s.drop i).startsWith b.opener = true) (hclose : s.matchingClose i = some close) :
    ∃ o c, o.keyword = b.opener ∧ c.keyword = b.closer ∧
      s.tokens.drop i =
        (o :: ((s.extract (i + 1) close).tokens ++ [c])) ++ s.tokens.drop (close + 1) := by
  obtain ⟨o, ho, hs⟩ := tokens_of_startsWith hstart
  rw [tokens_drop, List.drop_drop] at hs
  have hhead : s.tokens[i]? = some o := by
    rw [← List.head?_drop, hs]
    rfl
  -- The closer that is searched for is the one of the same kind.
  have hfirst : s.firstFrom b.closer (i + 1) 1 = some close := by
    rw [matchingClose, hhead] at hclose
    simp only [ho] at hclose
    cases b <;> exact hclose
  obtain ⟨hlt, hkey⟩ := getElem?_of_firstFrom hfirst
  obtain ⟨c, hget, hc⟩ := Option.map_eq_some_iff.mp hkey
  refine ⟨o, c, ho, hc, ?_⟩
  rw [hs, drop_tokens_of_getElem? hlt hget]
  simp only [List.cons_append, List.append_assoc, List.nil_append]

/-- A bracket around a whole slice. -/
theorem tokens_of_enclosed {b : Bracket} {inner : Slice} (h : s.enclosed b.opener = some inner) :
    ∃ o c, o.keyword = b.opener ∧ c.keyword = b.closer ∧ s.tokens = o :: (inner.tokens ++ [c]) := by
  rw [enclosed_eq] at h
  split at h
  · rename_i hstart
    cases hclose : s.matchingClose 0 with
    | none =>
      rw [hclose] at h
      cases h
    | some j =>
      simp only [hclose] at h
      split at h
      · rename_i hlast
        cases h
        obtain ⟨o, c, ho, hc, hs⟩ := drop_tokens_of_matchingClose (s := s) (i := 0) hstart hclose
        -- The closer is the last token.
        have hend : s.tokens.drop (j + 1) = [] := List.drop_eq_nil_of_le (Nat.le_of_eq hlast.symm)
        rw [hend, List.append_nil, List.drop_zero] at hs
        exact ⟨o, c, ho, hc, hs⟩
      · cases h
  · cases h

/-- The tokens are those of the slices with one token of the keyword between any two of them. -/
inductive Joined (k : Keyword) : List Slice → List Token → Prop
  | one (s : Slice) : Joined k [s] s.tokens
  | more {slices : List Slice} {t : Token} {ts : List Token} (s : Slice) (ht : t.keyword = k)
      (h : Joined k slices ts) : Joined k (s :: slices) (s.tokens ++ t :: ts)

theorem joined_cutAt {js : List Nat} (hordered : js.Pairwise (· < ·))
    (hjs : ∀ j ∈ js, i ≤ j ∧ (s.tokens[j]?).map (·.keyword) = some k) :
    Joined k (s.cutAt i js) (s.tokens.drop i) := by
  induction js generalizing i with
  | nil => exact .one (s.drop i)
  | cons j js ih =>
    obtain ⟨hij, hj⟩ := hjs j (List.mem_cons_self ..)
    obtain ⟨hlater, hordered⟩ := List.pairwise_cons.mp hordered
    obtain ⟨t, hget, ht⟩ := Option.map_eq_some_iff.mp hj
    rw [cutAt, drop_tokens_of_getElem? hij hget]
    refine .more _ ht (ih hordered fun j' hj' => ?_)
    exact ⟨hlater j' hj', (hjs j' (List.mem_cons_of_mem _ hj')).2⟩

/-- The pieces between the tokens with a keyword, and these tokens, are the slice. -/
theorem joined_split (h : s.isEmpty = false) : Joined k (s.split k) s.tokens := by
  rw [split_eq, h]
  exact joined_cutAt (s.pairwise_allOf k) fun j hj => ⟨Nat.zero_le j, getElem?_of_mem_allOf hj⟩

end Prose.Slice
