import Prose.Proofs.Slice.Nested

namespace Prose

/-- Tokens that follow add entries of their own indices. -/
theorem exists_depthZero_append (depth : Int) (i : Nat) (ts us : List Token) :
    ∃ entries, depthZero depth i (ts ++ us) = depthZero depth i ts ++ entries ∧
      ∀ e ∈ entries, i + ts.length ≤ e.1 := by
  induction ts generalizing depth i with
  | nil =>
    refine ⟨depthZero depth i us, rfl, fun e he => ?_⟩
    exact (getElem?_of_mem_depthZero he).1
  | cons t ts ih =>
    have hlength : i + (t :: ts).length = i + 1 + ts.length := by
      rw [List.length_cons]
      omega
    rw [List.cons_append, hlength]
    obtain hstep | ⟨d, hstep | ⟨-, hstep⟩⟩ := depthZero_cons depth t
    · exact ⟨[], by rw [hstep, hstep, List.append_nil], by simp⟩
    · rw [hstep, hstep]
      exact ih d (i + 1)
    · obtain ⟨entries, he, hindex⟩ := ih d (i + 1)
      exact ⟨entries, by rw [hstep, hstep, he, List.cons_append], hindex⟩

theorem mem_depthZero_append_left {depth : Int} {i : Nat} {ts : List Token} {e : Nat × Keyword}
    (us : List Token) (h : e ∈ depthZero depth i ts) : e ∈ depthZero depth i (ts ++ us) := by
  obtain ⟨entries, he, -⟩ := exists_depthZero_append depth i ts us
  rw [he]
  exact List.mem_append_left entries h

theorem mem_depthZero_of_append {depth : Int} {i : Nat} {ts us : List Token} {e : Nat × Keyword}
    (h : e ∈ depthZero depth i (ts ++ us)) (hlt : e.1 < i + ts.length) :
    e ∈ depthZero depth i ts := by
  obtain ⟨entries, he, hindex⟩ := exists_depthZero_append depth i ts us
  rw [he] at h
  rcases List.mem_append.mp h with h | h
  · exact h
  · have hle := hindex e h
    omega

/-- Counting the tokens from another index on moves all entries. -/
theorem depthZero_add (depth : Int) (i n : Nat) (ts : List Token) :
    depthZero depth (i + n) ts = (depthZero depth i ts).map fun e => (e.1 + n, e.2) := by
  induction ts generalizing depth i with
  | nil => rfl
  | cons t ts ih =>
    have hindex : i + n + 1 = i + 1 + n := by omega
    obtain hstep | ⟨d, hstep | ⟨-, hstep⟩⟩ := depthZero_cons depth t
    · rw [hstep, hstep, List.map_nil]
    · rw [hstep, hstep, hindex, ih]
    · rw [hstep, hstep, hindex, ih, List.map_cons]

/-- Behind a flat token of depth zero the search goes on at depth zero. -/
theorem exists_depthZero_eq {depth : Int} {i j : Nat} {k : Keyword} {ts : List Token}
    (h : (j, k) ∈ depthZero depth i ts) (ho : k.isOpener = false) (hc : k.isCloser = false) :
    ∃ entries, depthZero depth i ts =
        entries ++ (j, k) :: depthZero 0 (j + 1) (ts.drop (j + 1 - i)) ∧ ∀ e ∈ entries, e.1 < j := by
  induction ts generalizing depth i with
  | nil => cases h
  | cons t ts ih =>
    -- The token may stand behind the first one, whatever the depth is there.
    have hbehind {d : Int} (hd : (j, k) ∈ depthZero d (i + 1) ts) : ∃ entries,
        depthZero d (i + 1) ts =
          entries ++ (j, k) :: depthZero 0 (j + 1) ((t :: ts).drop (j + 1 - i)) ∧ i < j ∧
            ∀ e ∈ entries, e.1 < j := by
      have hle := (getElem?_of_mem_depthZero hd).1
      obtain ⟨entries, he, hentries⟩ := ih hd
      refine ⟨entries, ?_, hle, hentries⟩
      rw [he, show j + 1 - i = j + 1 - (i + 1) + 1 by omega, List.drop_succ_cons]
    obtain hstep | ⟨d, hstep | ⟨hflat, hstep⟩⟩ := depthZero_cons depth t
    · rw [hstep] at h
      cases h
    · rw [hstep] at h ⊢
      obtain ⟨entries, he, -, hentries⟩ := hbehind h
      exact ⟨entries, he, hentries⟩
    · rw [hstep] at h ⊢
      rcases List.mem_cons.mp h with he | hd
      · obtain ⟨rfl, rfl⟩ := Prod.mk.inj he
        refine ⟨[], ?_, by simp⟩
        rw [hflat ho hc, List.nil_append, Nat.add_sub_cancel_left, List.drop_one, List.tail_cons]
      · obtain ⟨entries, he, hij, hentries⟩ := hbehind hd
        exact ⟨(i, t.keyword) :: entries, by rw [he, List.cons_append],
          List.forall_mem_cons.mpr ⟨hij, hentries⟩⟩

namespace Slice

variable {s : Slice} {k k' : Keyword} {i j : Nat}

/-- The entries behind a flat token of depth zero are those of the tokens there. -/
theorem mem_depthZero_drop_iff (h : (j, k) ∈ depthZero 0 0 s.tokens) (ho : k.isOpener = false)
    (hc : k.isCloser = false) :
    (i, k') ∈ depthZero 0 0 (s.drop (j + 1)).tokens ↔
      (i + (j + 1), k') ∈ depthZero 0 0 s.tokens := by
  obtain ⟨entries, he, hentries⟩ := exists_depthZero_eq h ho hc
  rw [Nat.sub_zero] at he
  have hadd := depthZero_add 0 0 (j + 1) (s.tokens.drop (j + 1))
  rw [Nat.zero_add] at hadd
  rw [tokens_drop, he, hadd]
  constructor
  · intro hmem
    exact List.mem_append_right _ (List.mem_cons_of_mem _ (List.mem_map.mpr ⟨_, hmem, rfl⟩))
  · intro hmem
    rcases List.mem_append.mp hmem with hmem | hmem
    · have hlt : i + (j + 1) < j := hentries _ hmem
      omega
    · rcases List.mem_cons.mp hmem with hmem | hmem
      · have heq : i + (j + 1) = j := congrArg Prod.fst hmem
        omega
      · obtain ⟨⟨i', k''⟩, hmem', heq⟩ := List.mem_map.mp hmem
        obtain ⟨hi, rfl⟩ := Prod.mk.inj heq
        have hii : i' = i := by omega
        exact hii ▸ hmem'

section take

variable {n : Nat} {p : Keyword → Bool}

/-- Tokens at the end that a search does not look for change nothing for it. -/
theorem filter_depthZero_take (h : ∀ t ∈ s.tokens.drop n, p t.keyword = false) (hi : i ≤ n) :
    (depthZero 0 i ((s.tokens.take n).drop i)).filter (fun e => p e.2) =
      (depthZero 0 i (s.tokens.drop i)).filter fun e => p e.2 := by
  by_cases hn : n ≤ s.tokens.length
  · have happend : s.tokens.drop i = (s.tokens.take n).drop i ++ s.tokens.drop n := by
      rw [← List.drop_append_of_le_length, List.take_append_drop]
      rw [List.length_take]
      omega
    have hlength : ((s.tokens.take n).drop i).length = n - i := by
      rw [List.length_drop, List.length_take]
      omega
    obtain ⟨entries, he, hindex⟩ :=
      exists_depthZero_append 0 i ((s.tokens.take n).drop i) (s.tokens.drop n)
    -- The further entries are those of tokens behind the first ones.
    have hnone : entries.filter (fun e => p e.2) = [] := by
      rw [List.filter_eq_nil_iff]
      intro e hmem
      have hwhole : (e.1, e.2) ∈ depthZero 0 i (s.tokens.drop i) := by
        rw [happend, he]
        exact List.mem_append_right _ hmem
      obtain ⟨hle, htoken⟩ := getElem?_of_mem_depthZero hwhole
      have hle' := hindex e hmem
      rw [hlength] at hle'
      rw [List.getElem?_drop, show i + (e.1 - i) = n + (e.1 - n) by omega,
        ← List.getElem?_drop] at htoken
      obtain ⟨t, ht, hk⟩ := Option.map_eq_some_iff.mp htoken
      rw [← hk, h t (List.mem_of_getElem? ht)]
      exact Bool.false_ne_true
    rw [happend, he, List.filter_append, hnone, List.append_nil]
  · rw [List.take_of_length_le (by omega)]

theorem find?_eq_head?_filter (p : Nat × Keyword → Bool) (entries : List (Nat × Keyword)) :
    entries.find? p = (entries.filter p).head? := by
  rw [List.head?_filter]

theorem first_take (h : ∀ t ∈ s.tokens.drop n, t.keyword ≠ k) (hi : i ≤ n) :
    (s.take n).first k i = s.first k i := by
  have hp : ∀ t ∈ s.tokens.drop n, (t.keyword == k) = false := fun t ht => by simp [h t ht]
  have hzero : depthOfCount 0 = 0 := by decide
  rw [first, first, firstFrom, firstFrom, find?_eq_head?_filter, find?_eq_head?_filter, hzero,
    tokens_take, filter_depthZero_take (p := (· == k)) hp hi]

theorem allOf_take (h : ∀ t ∈ s.tokens.drop n, t.keyword ≠ k) :
    (s.take n).allOf k = s.allOf k := by
  have hp : ∀ t ∈ s.tokens.drop n, (t.keyword == k) = false := fun t ht => by simp [h t ht]
  rw [allOf, allOf, tokens_take]
  exact congrArg _ (filter_depthZero_take (i := 0) (p := (· == k)) hp (Nat.zero_le n))

theorem firstOf_take {ks : List Keyword} (h : ∀ t ∈ s.tokens.drop n, t.keyword ∉ ks) :
    (s.take n).firstOf ks = s.firstOf ks := by
  have hp : ∀ t ∈ s.tokens.drop n, ks.contains t.keyword = false := fun t ht => by simp [h t ht]
  rw [firstOf, firstOf, find?_eq_head?_filter, find?_eq_head?_filter, tokens_take]
  exact congrArg _ (filter_depthZero_take (i := 0) (p := fun k => ks.contains k) hp (Nat.zero_le n))

end take

/-- A bracket that closes in the first tokens of a slice closes there in the slice. -/
theorem matchingClose_of_take {b : Bracket} {t : Token} {ts : List Token} {c : Nat}
    (hts : s.tokens = t :: ts)
    (hk : t.keyword = b.opener) (h : (s.take j).matchingClose 0 = some c) :
    s.matchingClose 0 = some c := by
  match j with
  | 0 => cases h
  | j + 1 =>
    have htake : (s.take (j + 1)).tokens = t :: ts.take j := by
      rw [tokens_take, hts, List.take_succ_cons]
    have hfirst (q : Slice) (us : List Token) (hq : q.tokens = t :: us) :
        q.matchingClose 0 = q.firstFrom b.closer 1 1 := by
      rw [matchingClose, hq]
      simp only [List.getElem?_cons_zero, hk]
      cases b <;> rfl
    rw [hfirst _ _ htake, firstFrom, htake, List.drop_one, List.tail_cons] at h
    rw [hfirst _ _ hts, firstFrom, hts, List.drop_one, List.tail_cons]
    obtain ⟨entries, he, -⟩ :=
      exists_depthZero_append (depthOfCount 1) 1 (ts.take j) (ts.drop j)
    rw [List.take_append_drop] at he
    obtain ⟨e, hfind, rfl⟩ := Option.map_eq_some_iff.mp h
    rw [he, List.find?_append, hfind]
    rfl

theorem getElem?_of_matchingClose {c : Nat} (h : s.matchingClose i = some c) :
    ∃ b : Bracket, (s.tokens[c]?).map (·.keyword) = some b.closer := by
  rw [matchingClose] at h
  split at h
  · cases h
  · split at h
    · exact ⟨.brace, (getElem?_of_firstFrom h).2⟩
    · exact ⟨.paren, (getElem?_of_firstFrom h).2⟩
    · cases h

/-- The first token of a slice in brackets is the opener. -/
theorem exists_cons_of_enclosed {opener : Keyword} (h : (s.enclosed opener).isSome = true) :
    ∃ t ts, s.tokens = t :: ts ∧ t.keyword = opener := by
  obtain ⟨a, _ | ⟨t, ts⟩⟩ := s
  · cases h
  · rw [enclosed_eq] at h
    split at h
    · rename_i hstart
      exact ⟨t, ts, rfl, beq_iff_eq.mp hstart⟩
    · cases h

/-- A bracket ends at the level at which it begins. -/
theorem mem_depthZero_of_matchingClose {b : Bracket} {t : Token} {ts : List Token} {c : Nat}
    (hs : s.tokens = t :: ts) (hk : t.keyword = b.opener) (h : s.matchingClose 0 = some c) :
    (c, b.closer) ∈ depthZero 0 0 s.tokens := by
  have hfirst : s.firstFrom b.closer 1 1 = some c := by
    rw [← h, matchingClose, hs]
    simp only [List.getElem?_cons_zero, hk]
    cases b <;> rfl
  rw [firstFrom, hs, List.drop_one, List.tail_cons] at hfirst
  obtain ⟨⟨j, k⟩, hfind, rfl⟩ := Option.map_eq_some_iff.mp hfirst
  have hmem := List.mem_of_find?_eq_some hfind
  have hfound := List.find?_some hfind
  have hcloser : k = b.closer := beq_iff_eq.mp hfound
  rw [hs, depthZero_opener 0 0 ts (by rw [hk, b.isOpener_opener]) (by rw [hk, b.isCloser_opener]),
    if_pos rfl, ← hcloser]
  exact List.mem_cons_of_mem _ hmem

theorem matchingClose_of_enclosed {opener : Keyword} (h : (s.enclosed opener).isSome = true) :
    ∃ c, s.matchingClose 0 = some c ∧ c + 1 = s.length := by
  rw [enclosed_eq] at h
  split at h
  · split at h
    · rename_i c hc
      split at h
      · exact ⟨c, hc, ‹_›⟩
      · cases h
    · cases h
  · cases h

end Slice

end Prose
