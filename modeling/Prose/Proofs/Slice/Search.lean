import Mathlib.Order.Bounds.Defs
import Prose.Proofs.Slice.Braces
import Prose.Proofs.Slice.Cut
import Prose.Proofs.Token.Regular

/-! Searches at depth zero, compared with the depth that the brackets in front of a token add up to. A
search finds the tokens at depth zero in front of which no closer falls below zero, and no others. -/
namespace Prose

/-- The depth of the token at index `j` when `depth` regions are open in front of the tokens: of the
brackets up to `j` an opener at `j` itself does not count, and a closer there does. -/
def levelAt (depth : Int) (ts : List Token) (j : Nat) : Int :=
  depth + (ts.take j).countP (·.keyword.isOpener) - (ts.take (j + 1)).countP (·.keyword.isCloser)

/-- The token at index `j` has the keyword and stands at depth zero, and no closer up to it falls below
zero. -/
structure StandsAtZero (depth : Int) (ts : List Token) (k : Keyword) (j : Nat) : Prop where
  keyword : (ts[j]?).map (·.keyword) = some k
  zero : levelAt depth ts j = 0
  nonneg : ∀ m ≤ j, ∀ t, ts[m]? = some t → t.keyword.isCloser = true → 0 ≤ levelAt depth ts m

section cons

variable (depth : Int) (t : Token) (ts : List Token)

theorem levelAt_zero :
    levelAt depth (t :: ts) 0 = depth - if t.keyword.isCloser = true then 1 else 0 := by
  simp only [levelAt, List.take_zero, List.countP_nil, Nat.zero_add, List.take_succ_cons,
    List.countP_singleton]
  split <;> simp

theorem levelAt_succ (j : Nat) :
    levelAt depth (t :: ts) (j + 1) = levelAt (depth + t.keyword.weight) ts j := by
  have hweight : t.keyword.weight =
      (if t.keyword.isOpener = true then 1 else 0) - if t.keyword.isCloser = true then 1 else 0 := by
    by_cases hc : t.keyword.isCloser = true
    · rw [Keyword.weight_of_isCloser hc, Keyword.isOpener_eq_false_of_isCloser hc, hc]
      rfl
    · rw [Keyword.weight, if_neg hc, if_neg hc, Int.sub_zero]
  simp only [levelAt, List.take_succ_cons, List.countP_cons, hweight]
  split <;> split <;> push_cast <;> omega

/-- A search ends at a closer that falls below zero. Behind any other token, which is shown if it stands
at depth zero, it goes on at the depth there. -/
theorem depthZero_step (i : Nat) :
    depthZero depth i (t :: ts) =
      if t.keyword.isCloser = true ∧ depth ≤ 0 then []
      else (if levelAt depth (t :: ts) 0 = 0 then [(i, t.keyword)] else []) ++
        depthZero (depth + t.keyword.weight) (i + 1) ts := by
  rw [levelAt_zero]
  by_cases hc : t.keyword.isCloser = true
  · rw [depthZero_closer depth i ts hc, Keyword.weight_of_isCloser hc, if_pos hc]
    by_cases hneg : depth ≤ 0
    · rw [if_pos hneg, if_pos ⟨hc, hneg⟩]
    · have hstop : ¬(t.keyword.isCloser = true ∧ depth ≤ 0) := fun h => hneg h.2
      rw [if_neg hneg, if_neg hstop]
      -- A closer is shown at depth one, where it leads back to depth zero.
      by_cases hone : depth = 1
      · rw [if_pos hone, if_pos (by omega), hone]
        rfl
      · rw [if_neg hone, if_neg (by omega), List.nil_append, Int.sub_eq_add_neg]
  · have hstop : ¬(t.keyword.isCloser = true ∧ depth ≤ 0) := fun h => hc h.1
    rw [if_neg hstop, if_neg hc, Int.sub_zero]
    rw [Bool.not_eq_true] at hc
    have hstep : depthZero depth i (t :: ts) =
        if depth = 0 then (i, t.keyword) :: depthZero (depth + t.keyword.weight) (i + 1) ts
        else depthZero (depth + t.keyword.weight) (i + 1) ts := by
      by_cases ho : t.keyword.isOpener = true
      · rw [depthZero_opener depth i ts ho hc, Keyword.weight_of_isOpener ho]
      · rw [Bool.not_eq_true] at ho
        rw [depthZero_plain depth i ts ho hc, Keyword.weight_of_flat ho hc, Int.add_zero]
    rw [hstep]
    split <;> rfl

variable {depth t ts} {k : Keyword} {j : Nat}

theorem standsAtZero_cons_zero :
    StandsAtZero depth (t :: ts) k 0 ↔ t.keyword = k ∧ levelAt depth (t :: ts) 0 = 0 := by
  constructor
  · intro h
    exact ⟨Option.some.inj h.keyword, h.zero⟩
  · rintro ⟨hk, hzero⟩
    refine ⟨congrArg some hk, hzero, ?_⟩
    intro m hm u hu hc
    obtain rfl := Nat.le_zero.mp hm
    exact Int.le_of_eq hzero.symm

theorem standsAtZero_cons_succ :
    StandsAtZero depth (t :: ts) k (j + 1) ↔
      (t.keyword.isCloser = true → 0 < depth) ∧
        StandsAtZero (depth + t.keyword.weight) ts k j := by
  constructor
  · intro h
    refine ⟨fun hc => ?_, h.keyword, ?_, fun m hm u hu hc => ?_⟩
    · have hfirst := h.nonneg 0 (Nat.zero_le _) t rfl hc
      rw [levelAt_zero, if_pos hc] at hfirst
      omega
    · rw [← levelAt_succ, h.zero]
    · rw [← levelAt_succ]
      exact h.nonneg (m + 1) (Nat.succ_le_succ hm) u hu hc
  · rintro ⟨hfirst, h⟩
    refine ⟨h.keyword, by rw [levelAt_succ, h.zero], fun m hm u hu hc => ?_⟩
    cases m with
    | zero =>
      have htu : t = u := Option.some.inj hu
      have hpos := hfirst (htu ▸ hc)
      rw [levelAt_zero, if_pos (htu ▸ hc)]
      omega
    | succ m =>
      rw [levelAt_succ]
      exact h.nonneg m (Nat.le_of_succ_le_succ hm) u hu hc

end cons

/-- A search shows the tokens at depth zero in front of which no closer falls below zero. -/
theorem mem_depthZero_iff {depth : Int} {ts : List Token} {k : Keyword} {i j : Nat} :
    (i + j, k) ∈ depthZero depth i ts ↔ StandsAtZero depth ts k j := by
  induction ts generalizing depth i j with
  | nil => exact iff_of_false (fun h => by cases h) fun h => by cases h.keyword
  | cons t ts ih =>
    rw [depthZero_step]
    cases j with
    | zero =>
      -- The head itself is asked for, and no position behind it is taken for it.
      have hbehind {d : Int} : (i + 0, k) ∉ depthZero d (i + 1) ts := by
        intro h
        have hle := (getElem?_of_mem_depthZero h).1
        omega
      rw [standsAtZero_cons_zero]
      split
      · rename_i hstop
        refine iff_of_false List.not_mem_nil fun h => ?_
        rw [levelAt_zero, if_pos hstop.1] at h
        omega
      · rw [List.mem_append, or_iff_left hbehind]
        split
        · rename_i hzero
          simp [hzero, eq_comm]
        · rename_i hzero
          simp [hzero]
    | succ j =>
      -- The search stops at a head that closes more than was opened, and goes on behind any other.
      rw [standsAtZero_cons_succ]
      split
      · rename_i hstop
        refine iff_of_false List.not_mem_nil fun h => ?_
        have hpos := h.1 hstop.1
        omega
      · rename_i hstop
        have hhead : (i + (j + 1), k) ∉
            if levelAt depth (t :: ts) 0 = 0 then [(i, t.keyword)] else [] := by
          split
          · intro h
            have heq : i + (j + 1) = i := congrArg Prod.fst (List.mem_singleton.mp h)
            omega
          · exact List.not_mem_nil
        rw [List.mem_append, or_iff_right hhead, show i + (j + 1) = i + 1 + j by omega, ih]
        refine (and_iff_right fun hc => ?_).symm
        by_contra hpos
        exact hstop ⟨hc, by omega⟩

/-- Of entries in the order of their indices the first one with a property is the one with the least
index. -/
theorem find?_eq_some_iff_least {entries : List (Nat × Keyword)}
    (h : entries.Pairwise fun e e' => e.1 < e'.1) (p : Nat × Keyword → Bool) {e : Nat × Keyword} :
    entries.find? p = some e ↔
      (e ∈ entries ∧ p e = true) ∧ ∀ e' ∈ entries, p e' = true → e.1 ≤ e'.1 := by
  induction entries with
  | nil => exact iff_of_false (fun hfind => by cases hfind) fun hfirst => by cases hfirst.1.1
  | cons a entries ih =>
    obtain ⟨hlater, h⟩ := List.pairwise_cons.mp h
    by_cases ha : p a = true
    · rw [List.find?_cons_of_pos ha]
      constructor
      · intro hfind
        cases hfind
        refine ⟨⟨List.mem_cons_self .., ha⟩, List.forall_mem_cons.mpr ⟨fun _ => Nat.le_refl _, ?_⟩⟩
        exact fun e' he' _ => Nat.le_of_lt (hlater e' he')
      · rintro ⟨⟨hmem, -⟩, hleast⟩
        rcases List.mem_cons.mp hmem with rfl | hmem
        · rfl
        · exact absurd (hleast a (List.mem_cons_self ..) ha) (Nat.not_le.mpr (hlater e hmem))
    · rw [List.find?_cons_of_neg ha, ih h, List.forall_mem_cons, List.mem_cons]
      constructor
      · rintro ⟨⟨hmem, hp⟩, hleast⟩
        exact ⟨⟨.inr hmem, hp⟩, fun hp => absurd hp ha, hleast⟩
      · rintro ⟨⟨rfl | hmem, hp⟩, -, hleast⟩
        · exact absurd hp ha
        · exact ⟨⟨hmem, hp⟩, hleast⟩

namespace Slice

/-- The token at index `i`, which is not in front of index `start`, has the keyword and stands at depth
zero, and no closer from `start` up to it falls below zero, when `depth` regions are open in front of
`start`. -/
def IsMatch (s : Slice) (k : Keyword) (start depth i : Nat) : Prop :=
  start ≤ i ∧ StandsAtZero depth (s.tokens.drop start) k (i - start)

variable {s : Slice} {k : Keyword} {ks : List Keyword} {start depth i : Nat}

theorem mem_depthZero_drop_iff_isMatch :
    (i, k) ∈ depthZero depth start (s.tokens.drop start) ↔ s.IsMatch k start depth i := by
  constructor
  · intro h
    have hle := (getElem?_of_mem_depthZero h).1
    rw [← Nat.add_sub_cancel' hle] at h
    exact ⟨hle, mem_depthZero_iff.mp h⟩
  · rintro ⟨hle, h⟩
    rw [← Nat.add_sub_cancel' hle]
    exact mem_depthZero_iff.mpr h

theorem mem_depthZero_iff_isMatch :
    (i, k) ∈ depthZero 0 0 s.tokens ↔ s.IsMatch k 0 0 i :=
  @mem_depthZero_drop_iff_isMatch s k 0 0 i

theorem depthOfCount_eq (h : depth < Nat.pow 2 63) : depthOfCount depth = depth := by
  have hsigned : Nat.pow 2 63 = 9223372036854775808 := rfl
  have hwords : Nat.pow 2 64 = 18446744073709551616 := rfl
  unfold depthOfCount
  exact Int.bmod_eq_of_le (by rw [hwords]; omega) (by rw [hwords]; omega)

theorem firstFrom_eq_some_iff (h : depth < Nat.pow 2 63) :
    s.firstFrom k start depth = some i ↔ IsLeast {j | s.IsMatch k start depth j} i := by
  have hordered := pairwise_depthZero depth start (s.tokens.drop start)
  rw [firstFrom, depthOfCount_eq h, Option.map_eq_some_iff]
  constructor
  · rintro ⟨⟨j, k'⟩, hfind, rfl⟩
    obtain ⟨⟨hmem, hk⟩, hleast⟩ := (find?_eq_some_iff_least hordered _).mp hfind
    obtain rfl : k' = k := beq_iff_eq.mp hk
    refine ⟨mem_depthZero_drop_iff_isMatch.mp hmem, fun j' hj' => ?_⟩
    exact hleast (j', k') (mem_depthZero_drop_iff_isMatch.mpr hj') (beq_self_eq_true k')
  · rintro ⟨hmatch, hleast⟩
    refine ⟨(i, k), (find?_eq_some_iff_least hordered _).mpr ⟨⟨?_, beq_self_eq_true k⟩, ?_⟩, rfl⟩
    · exact mem_depthZero_drop_iff_isMatch.mpr hmatch
    · rintro ⟨j, k'⟩ hmem hk
      obtain rfl : k' = k := beq_iff_eq.mp hk
      exact hleast (mem_depthZero_drop_iff_isMatch.mp hmem)

theorem firstFrom_eq_none_iff (h : depth < Nat.pow 2 63) :
    s.firstFrom k start depth = none ↔ ∀ i, ¬ s.IsMatch k start depth i := by
  rw [firstFrom, depthOfCount_eq h, Option.map_eq_none_iff, List.find?_eq_none]
  constructor
  · intro hnone i hmatch
    exact hnone (i, k) (mem_depthZero_drop_iff_isMatch.mpr hmatch) (beq_self_eq_true k)
  · rintro hnone ⟨i, k'⟩ hmem hk
    obtain rfl : k' = k := beq_iff_eq.mp hk
    exact hnone i (mem_depthZero_drop_iff_isMatch.mp hmem)

theorem firstOf_eq_some_iff :
    s.firstOf ks = some (i, k) ↔
      (s.IsMatch k 0 0 i ∧ k ∈ ks) ∧ ∀ j, ∀ l ∈ ks, s.IsMatch l 0 0 j → i ≤ j := by
  rw [firstOf, find?_eq_some_iff_least (pairwise_depthZero 0 0 s.tokens), List.contains_iff_mem,
    mem_depthZero_iff_isMatch]
  refine and_congr_right fun _ => ?_
  constructor
  · intro hleast j l hl hmatch
    exact hleast (j, l) (mem_depthZero_iff_isMatch.mpr hmatch) (List.contains_iff_mem.mpr hl)
  · rintro hleast ⟨j, l⟩ hmem hl
    exact hleast j l (List.contains_iff_mem.mp hl) (mem_depthZero_iff_isMatch.mp hmem)

theorem firstOf_eq_none_iff : s.firstOf ks = none ↔ ∀ i, ∀ k ∈ ks, ¬ s.IsMatch k 0 0 i := by
  rw [firstOf, List.find?_eq_none]
  constructor
  · intro hnone i k hk hmatch
    exact hnone (i, k) (mem_depthZero_iff_isMatch.mpr hmatch) (List.contains_iff_mem.mpr hk)
  · rintro hnone ⟨i, k⟩ hmem hk
    exact hnone i k (List.contains_iff_mem.mp hk) (mem_depthZero_iff_isMatch.mp hmem)

/-- Of keywords without repetition every index is found once. -/
theorem pairwise_positionsOf (h : ks.Nodup) : (s.positionsOf ks).Pairwise (· < ·) := by
  have hordered := pairwise_depthZero 0 0 s.tokens
  unfold positionsOf
  rw [List.pairwise_flatMap]
  refine ⟨fun e _ => ?_, hordered.imp fun {e e'} hlt i hi j hj => ?_⟩
  · have hcount := List.nodup_iff_count.mp h e.2
    rw [List.pairwise_replicate]
    exact .inl hcount
  · rw [List.eq_of_mem_replicate hi, List.eq_of_mem_replicate hj]
    exact hlt

/-- A search finds the first token with the keyword that stands at depth zero, and nothing if there is
none. All such tokens are listed in order, and so are those of several keywords, of which the first one
is found. -/
theorem search_iff_isMatch (s : Slice) :
    (∀ k start depth, depth < Nat.pow 2 63 →
        (∀ i, s.firstFrom k start depth = some i ↔ IsLeast {j | s.IsMatch k start depth j} i) ∧
          (s.firstFrom k start depth = none ↔ ∀ i, ¬ s.IsMatch k start depth i)) ∧
      (∀ k, (s.allOf k).Pairwise (· < ·) ∧ ∀ i, i ∈ s.allOf k ↔ s.IsMatch k 0 0 i) ∧
      (∀ ks, (∀ i k, s.firstOf ks = some (i, k) ↔
            (s.IsMatch k 0 0 i ∧ k ∈ ks) ∧ ∀ j, ∀ l ∈ ks, s.IsMatch l 0 0 j → i ≤ j) ∧
          (s.firstOf ks = none ↔ ∀ i, ∀ k ∈ ks, ¬ s.IsMatch k 0 0 i)) ∧
      ∀ ks, ks.Nodup → (s.positionsOf ks).Pairwise (· < ·) ∧
        ∀ i, i ∈ s.positionsOf ks ↔ ∃ k ∈ ks, s.IsMatch k 0 0 i := by
  refine ⟨fun k start depth h => ?_, fun k => ?_, fun ks => ?_, fun ks h => ?_⟩
  · exact ⟨fun i => firstFrom_eq_some_iff h, firstFrom_eq_none_iff h⟩
  · refine ⟨s.pairwise_allOf k, fun i => ?_⟩
    rw [mem_allOf_iff, mem_depthZero_iff_isMatch]
  · exact ⟨fun i k => firstOf_eq_some_iff, firstOf_eq_none_iff⟩
  · refine ⟨pairwise_positionsOf h, fun i => ?_⟩
    simp only [mem_positionsOf_iff, mem_depthZero_iff_isMatch]

def overclosedSum : Slice :=
  .ofSource "$a plus ( $b , $c ) , $d ) , $e" "t"

/-- The parenthesis is closed at the index that a search from inside it finds. The comma inside and the
one behind the last parenthesis are not at depth zero. -/
theorem search_iff_isMatch_overclosedSum :
    1 < Nat.pow 2 63 ∧ IsLeast {j | overclosedSum.IsMatch .closeParen 3 1 j} 6 ∧
      [Keyword.comma, .plus].Nodup ∧
        ∀ i, (∃ k ∈ [Keyword.comma, .plus], overclosedSum.IsMatch k 0 0 i) ↔ i ∈ [1, 7] := by
  have hdepth : 1 < Nat.pow 2 63 := by decide
  have hdistinct : [Keyword.comma, .plus].Nodup := by decide
  have hfirst : overclosedSum.firstFrom .closeParen 3 1 = some 6 := by decide +kernel
  have hpositions : overclosedSum.positionsOf [.comma, .plus] = [1, 7] := by decide +kernel
  obtain ⟨hfrom, -, -, hall⟩ := search_iff_isMatch overclosedSum
  refine ⟨hdepth, ((hfrom .closeParen 3 1 hdepth).1 6).mp hfirst, hdistinct, fun i => ?_⟩
  rw [← (hall _ hdistinct).2 i, hpositions]

end Slice

end Prose
