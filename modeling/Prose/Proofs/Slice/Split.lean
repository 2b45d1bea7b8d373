import Prose.Proofs.Slice.Prefix
import Prose.Proofs.Slice.Search

namespace Prose

variable {k : Keyword} {i j : Nat} {js : List Nat} {ts : List Token}

/-- The tokens in front of one at depth zero close all brackets that are open. -/
theorem balancedFrom_take_of_mem_depthZero (ho : k.isOpener = false) (hc : k.isCloser = false)
    {depth : Nat} (h : (j, k) ∈ depthZero depth i ts) : BalancedFrom depth (ts.take (j - i)) := by
  induction ts generalizing depth i with
  | nil => cases h
  | cons t ts ih =>
    rw [depthZero_step] at h
    split at h
    · cases h
    · rename_i hpassed
      rcases List.mem_append.mp h with hhere | hbehind
      · split at hhere
        · rename_i hzero
          obtain ⟨rfl, rfl⟩ := Prod.mk.inj (List.mem_singleton.mp hhere)
          rw [levelAt_zero, hc, if_neg Bool.false_ne_true, Int.sub_zero] at hzero
          rw [Nat.sub_self, List.take_zero, balancedFrom_nil]
          omega
        · cases hhere
      · have hlt := (getElem?_of_mem_depthZero hbehind).1
        -- The search has passed the token, so that the depth behind it is not below zero.
        have hnonneg : 0 ≤ (depth : Int) + t.keyword.weight := by
          by_cases hcloser : t.keyword.isCloser = true
          · have hpos : ¬ (depth : Int) ≤ 0 := fun hle => hpassed ⟨hcloser, hle⟩
            rw [Keyword.weight_of_isCloser hcloser]
            omega
          · rw [Keyword.weight, if_neg hcloser]
            split <;> omega
        obtain ⟨inner, hinner⟩ := Int.eq_ofNat_of_zero_le hnonneg
        rw [hinner] at hbehind
        rw [show j - i = j - (i + 1) + 1 by omega, List.take_succ_cons]
        exact (ih hbehind).cons hinner.symm

section indices

theorem mem_indicesFrom_iff : j ∈ indicesFrom k i ts ↔ (j, k) ∈ depthZero 0 i ts := by
  simp only [indicesFrom, List.mem_map, List.mem_filter, beq_iff_eq]
  constructor
  · rintro ⟨⟨j', k'⟩, ⟨hmem, rfl⟩, rfl⟩
    exact hmem
  · intro h
    exact ⟨(j, k), ⟨h, rfl⟩, rfl⟩

theorem indicesFrom_eq_nil_iff : indicesFrom k i ts = [] ↔ k ∉ (depthZero 0 i ts).map (·.2) := by
  rw [List.eq_nil_iff_forall_not_mem]
  constructor
  · intro h hk
    obtain ⟨⟨j, k'⟩, hmem, rfl⟩ := List.mem_map.mp hk
    exact h j (mem_indicesFrom_iff.mpr hmem)
  · intro h j hj
    exact h (List.mem_map.mpr ⟨(j, k), mem_indicesFrom_iff.mp hj, rfl⟩)

/-- Behind the first separator the search goes on at depth zero, and in front of it nothing is found. -/
theorem indicesFrom_eq_cons (ho : k.isOpener = false) (hc : k.isCloser = false)
    (h : indicesFrom k i ts = j :: js) :
    (j, k) ∈ depthZero 0 i ts ∧ indicesFrom k i (ts.take (j - i)) = [] ∧
      indicesFrom k (j + 1) (ts.drop (j + 1 - i)) = js := by
  have hmem : (j, k) ∈ depthZero 0 i ts := by
    rw [← mem_indicesFrom_iff, h]
    exact List.mem_cons_self ..
  obtain ⟨entries, hentries, hlt⟩ := exists_depthZero_eq hmem ho hc
  have hnone : entries.filter (·.2 == k) = [] := by
    cases hfilter : entries.filter (·.2 == k) with
    | nil => rfl
    | cons e es =>
      -- The first index is that of the first entry.
      rw [indicesFrom, hentries, List.filter_append, hfilter, List.cons_append, List.map_cons] at h
      have hbefore := hlt e (List.mem_of_mem_filter (hfilter ▸ List.mem_cons_self ..))
      have hfirst := (List.cons.inj h).1
      omega
  refine ⟨hmem, ?_, ?_⟩
  · rw [List.eq_nil_iff_forall_not_mem]
    intro m hm
    have hfound := mem_indicesFrom_iff.mp hm
    obtain ⟨t, hget, -⟩ := Option.map_eq_some_iff.mp (getElem?_of_mem_depthZero hfound).2
    have hlength := (List.getElem?_eq_some_iff.mp hget).1
    rw [List.length_take] at hlength
    have hwhole := mem_depthZero_append_left (ts.drop (j - i)) hfound
    rw [List.take_append_drop, hentries, List.mem_append, List.mem_cons] at hwhole
    rcases hwhole with hearlier | hsame | hlater
    · exact List.filter_eq_nil_iff.mp hnone _ hearlier (beq_self_eq_true k)
    · have heq : m = j := congrArg Prod.fst hsame
      omega
    · have hle := (getElem?_of_mem_depthZero hlater).1
      omega
  · rw [indicesFrom, hentries, List.filter_append, hnone, List.nil_append, List.filter_cons,
      if_pos (beq_self_eq_true k), List.map_cons] at h
    exact (List.cons.inj h).2

end indices

namespace Slice

variable {s : Slice}

def separators (s : Slice) (k : Keyword) : List Token :=
  (s.allOf k).filterMap (s.tokens[·]?)

/-- Whether the keyword is found does not depend on where the search begins to count. -/
theorem allOf_eq_nil_iff (i : Nat) : s.allOf k = [] ↔ indicesFrom k i s.tokens = [] := by
  rw [indicesFrom_eq_nil_iff, map_snd_depthZero 0 i 0, ← indicesFrom_eq_nil_iff]
  rfl

/-- The tokens of the pieces, and behind each piece the next separator, as long as there is one. -/
def rejoin : List Slice → List Token → List Token
  | [], _ => []
  | piece :: pieces, separators =>
    piece.tokens ++ separators.head?.toList ++ rejoin pieces separators.tail

/-- The pieces with the separators between them are the tokens. No separator is found in a piece, and
only the last one need not be balanced. -/
inductive Separated (k : Keyword) : List Slice → List Token → List Token → Prop
  | last {s : Slice} (hnone : s.allOf k = []) : Separated k [s] [] s.tokens
  | more {s : Slice} {t : Token} {pieces : List Slice} {separators ts : List Token}
      (hnone : s.allOf k = []) (hbalanced : Balanced s.tokens)
      (h : Separated k pieces separators ts) :
      Separated k (s :: pieces) (t :: separators) (s.tokens ++ t :: ts)

theorem separated_cutAt (ho : k.isOpener = false) (hc : k.isCloser = false)
    (h : indicesFrom k i (s.tokens.drop i) = js) :
    Separated k (s.cutAt i js) (js.filterMap (s.tokens[·]?)) (s.tokens.drop i) := by
  induction js generalizing i with
  | nil =>
    exact .last ((allOf_eq_nil_iff i).mpr h)
  | cons j js ih =>
    obtain ⟨hmem, hbefore, hbehind⟩ := indicesFrom_eq_cons ho hc h
    obtain ⟨hij, hj⟩ := getElem?_of_mem_depthZero hmem
    rw [List.getElem?_drop, Nat.add_sub_cancel' hij] at hj
    obtain ⟨t, hget, -⟩ := Option.map_eq_some_iff.mp hj
    have hpiece : (s.extract i j).tokens = (s.tokens.drop i).take (j - i) := by
      rw [tokens_extract, List.drop_take]
    rw [List.drop_drop, show i + (j + 1 - i) = j + 1 by omega] at hbehind
    rw [cutAt, drop_tokens_of_getElem? hij hget, List.filterMap_cons_some hget]
    refine .more ?_ ?_ (ih hbehind)
    · rwa [allOf_eq_nil_iff i, hpiece]
    · rw [hpiece]
      exact balancedFrom_take_of_mem_depthZero ho hc hmem

theorem separated_split (ho : k.isOpener = false) (hc : k.isCloser = false)
    (h : s.isEmpty = false) : Separated k (s.split k) (s.separators k) s.tokens := by
  rw [split_eq, h]
  exact separated_cutAt ho hc rfl

namespace Separated

variable {pieces : List Slice} {separators : List Token}

theorem rejoin_eq (h : Separated k pieces separators ts) : rejoin pieces separators = ts := by
  induction h with
  | last => simp only [rejoin, List.head?_nil, Option.toList_none, List.append_nil]
  | more _ _ _ ih =>
    rw [rejoin, List.head?_cons, Option.toList_some, List.tail_cons, ih, List.append_assoc,
      List.singleton_append]

theorem length_eq (h : Separated k pieces separators ts) :
    pieces.length = separators.length + 1 := by
  induction h with
  | last => rfl
  | more _ _ _ ih => rw [List.length_cons, List.length_cons, ih]

theorem allOf_eq_nil (h : Separated k pieces separators ts) :
    ∀ piece ∈ pieces, piece.allOf k = [] := by
  induction h with
  | last hnone => exact List.forall_mem_singleton.mpr hnone
  | more hnone _ _ ih => exact List.forall_mem_cons.mpr ⟨hnone, ih⟩

theorem ne_nil (h : Separated k pieces separators ts) : pieces ≠ [] := by
  cases h with
  | last => exact List.cons_ne_nil _ _
  | more => exact List.cons_ne_nil _ _

theorem balanced (h : Separated k pieces separators ts) :
    ∀ piece ∈ pieces.dropLast, Balanced piece.tokens := by
  induction h with
  | last => exact List.forall_mem_nil _
  | more _ hbalanced h ih =>
    rw [List.dropLast_cons_of_ne_nil h.ne_nil]
    exact List.forall_mem_cons.mpr ⟨hbalanced, ih⟩

end Separated

/-- Every index that is found is that of a separator. -/
theorem length_separators (s : Slice) (k : Keyword) :
    (s.separators k).length = (s.allOf k).length := by
  rw [separators, List.length_filterMap_eq_countP, List.countP_eq_length]
  intro j hj
  obtain ⟨t, hget, -⟩ := Option.map_eq_some_iff.mp (getElem?_of_mem_allOf hj)
  rw [hget]
  rfl

/-- A slice split at a keyword that is no bracket: with the separators put back between them the pieces
are the slice; there is one piece more than separators, or none of an empty slice; no separator is left
in a piece; and all pieces but the last are balanced. -/
theorem rejoin_split (s : Slice) (ho : k.isOpener = false) (hc : k.isCloser = false) :
    rejoin (s.split k) (s.separators k) = s.tokens ∧
      (s.split k).length = (if s.isEmpty then 0 else (s.allOf k).length + 1) ∧
      (∀ piece ∈ s.split k, piece.allOf k = []) ∧
      ∀ piece ∈ (s.split k).dropLast, Balanced piece.tokens := by
  cases hempty : s.isEmpty with
  | true =>
    have hnone : s.split k = [] := if_pos hempty
    rw [hnone]
    refine ⟨(List.isEmpty_iff.mp hempty).symm, rfl, ?_, ?_⟩
    · exact List.forall_mem_nil _
    · exact List.forall_mem_nil _
  | false =>
    have h := separated_split ho hc hempty
    rw [if_neg Bool.false_ne_true, ← length_separators]
    exact ⟨h.rejoin_eq, h.length_eq, h.allOf_eq_nil, h.balanced⟩

/-- The comma in the parentheses and the one behind the last parenthesis do not split the slice. -/
theorem rejoin_split_overclosedSum :
    Keyword.comma.isOpener = false ∧ Keyword.comma.isCloser = false ∧
      overclosedSum.split .comma = [overclosedSum.extract 0 7, overclosedSum.drop 8] ∧
      rejoin [overclosedSum.extract 0 7, overclosedSum.drop 8] (overclosedSum.separators .comma) =
        overclosedSum.tokens ∧
      (overclosedSum.drop 8).allOf .comma = [] ∧ Balanced (overclosedSum.extract 0 7).tokens := by
  have ho : Keyword.comma.isOpener = false := rfl
  have hc : Keyword.comma.isCloser = false := rfl
  have hsplit : overclosedSum.split .comma = [overclosedSum.extract 0 7, overclosedSum.drop 8] := by
    decide +kernel
  obtain ⟨hrejoin, -, hnone, hbalanced⟩ := rejoin_split overclosedSum ho hc
  rw [hsplit] at hrejoin hnone hbalanced
  refine ⟨ho, hc, hsplit, hrejoin, hnone _ ?_, hbalanced _ ?_⟩
  · exact List.mem_cons_of_mem _ (List.mem_singleton_self _)
  · exact List.mem_singleton_self _

end Slice

end Prose
