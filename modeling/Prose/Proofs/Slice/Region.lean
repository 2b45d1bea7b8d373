import Prose.Proofs.Slice.Braces
import Prose.Proofs.Slice.Cut
import Prose.Proofs.Token.Regular

/-! The region between an opener and the closer that a search finds for it. The search counts both
kinds of brackets together and looks for a closer of one kind, so a closer of the other kind may end
the region without being found, and the region that is found need not be balanced. -/
namespace Prose

def Bracket.other : Bracket → Bracket
  | paren => brace
  | brace => paren

theorem Bracket.closer_of_weight_neg (b : Bracket) {k : Keyword} (h : k.weight < 0) :
    k = b.closer ∨ k = b.other.closer := by
  cases b <;> cases k <;> first | exact .inl rfl | exact .inr rfl | exact absurd h (by decide)

theorem bracketDepth_append (us ts : List Token) :
    bracketDepth (us ++ ts) = bracketDepth us + bracketDepth ts := by
  induction us with
  | nil => rw [List.nil_append, bracketDepth_nil, Int.zero_add]
  | cons u us ih => rw [List.cons_append, bracketDepth_cons, bracketDepth_cons, ih, Int.add_assoc]

/-- The tokens have a closer of the kind that closes a bracket opened in front of them. -/
def Bracket.Overcloses (b : Bracket) (ts : List Token) : Prop :=
  ∃ us t, us ++ [t] <+: ts ∧ t.keyword = b.closer ∧ bracketDepth (us ++ [t]) < 0

/-- With `depth` brackets open, a search for a closer of the kind passes over the tokens and is one
level inside a bracket behind them: it never falls below the starting level, and no closer of the
kind brings it there. -/
structure Bracket.PassesFrom (b : Bracket) (depth : Nat) (ts : List Token) : Prop where
  nonneg : ∀ us, us <+: ts → 0 ≤ depth + bracketDepth us
  inside : ∀ us t, us ++ [t] <+: ts → t.keyword = b.closer → 0 < depth + bracketDepth (us ++ [t])
  one : depth + bracketDepth ts = 1

section passes

variable {b : Bracket} {depth : Nat} {t : Token} {ts : List Token}

theorem Bracket.passesFrom_nil : b.PassesFrom depth [] ↔ depth = 1 := by
  constructor
  · intro h
    have hone := h.one
    rw [bracketDepth_nil] at hone
    omega
  · rintro rfl
    refine ⟨?_, ?_, rfl⟩
    · intro us hus
      rw [List.prefix_nil.mp hus, bracketDepth_nil]
      decide
    · intro us t hprefix
      exact absurd (List.prefix_nil.mp hprefix) (List.append_ne_nil_of_right_ne_nil us (by simp))

/-- The depth behind the first token, from which the search passes over the others. -/
theorem Bracket.passesFrom_cons :
    b.PassesFrom depth (t :: ts) ↔
      ∃ inner : Nat, (inner : Int) = depth + t.keyword.weight ∧
        (t.keyword = b.closer → 0 < inner) ∧ b.PassesFrom inner ts := by
  constructor
  · -- The depth behind the first token is one of the depths that never fall below zero.
    intro h
    have hfirst := h.nonneg [t] (List.prefix_append [t] ts)
    rw [bracketDepth_cons, bracketDepth_nil, Int.add_zero] at hfirst
    obtain ⟨inner, hinner⟩ := Int.eq_ofNat_of_zero_le hfirst
    refine ⟨inner, hinner.symm, ?_, ?_, ?_, ?_⟩
    · intro hcloser
      have hinside := h.inside [] t (List.prefix_append [t] ts) hcloser
      rw [List.nil_append, bracketDepth_cons, bracketDepth_nil, Int.add_zero] at hinside
      omega
    · intro us hus
      have hnonneg := h.nonneg (t :: us) (List.cons_prefix_cons.mpr ⟨rfl, hus⟩)
      rw [bracketDepth_cons] at hnonneg
      omega
    · intro us u hus hcloser
      have hinside := h.inside (t :: us) u (List.cons_prefix_cons.mpr ⟨rfl, hus⟩) hcloser
      rw [List.cons_append, bracketDepth_cons] at hinside
      omega
    · have hone := h.one
      rw [bracketDepth_cons] at hone
      omega
  · -- A prefix is empty or begins with the first token, behind which the depth is `inner`.
    rintro ⟨inner, hinner, hcloser, h⟩
    refine ⟨?_, ?_, ?_⟩
    · intro us hus
      cases us with
      | nil =>
        rw [bracketDepth_nil]
        omega
      | cons u us =>
        obtain ⟨rfl, hprefix⟩ := List.cons_prefix_cons.mp hus
        have hnonneg := h.nonneg us hprefix
        rw [bracketDepth_cons]
        omega
    · intro us v hus hv
      cases us with
      | nil =>
        obtain ⟨rfl, -⟩ := List.cons_prefix_cons.mp hus
        have hpos := hcloser hv
        rw [List.nil_append, bracketDepth_cons, bracketDepth_nil]
        omega
      | cons u us =>
        obtain ⟨rfl, hprefix⟩ := List.cons_prefix_cons.mp hus
        have hinside := h.inside us v hprefix hv
        rw [List.cons_append, bracketDepth_cons]
        omega
    · have hone := h.one
      rw [bracketDepth_cons]
      omega

/-- What a search for a closer does at a token: it ends below the starting level, finds the closer
that returns there, and passes over everything else. -/
theorem find?_depthZero_cons (b : Bracket) (depth : Int) (hdepth : 0 ≤ depth) (i : Nat) (t : Token)
    (ts : List Token) :
    (depthZero depth i (t :: ts)).find? (·.2 == b.closer) =
      if depth + t.keyword.weight < 0 then none
      else if t.keyword = b.closer ∧ depth + t.keyword.weight = 0 then some (i, b.closer)
      else (depthZero (depth + t.keyword.weight) (i + 1) ts).find? (·.2 == b.closer) := by
  by_cases hc : t.keyword.isCloser = true
  -- A closer of either kind ends the search below the starting level; only one of the kind is found.
  · rw [depthZero_closer depth i ts hc, Keyword.weight_of_isCloser hc]
    by_cases hneg : depth ≤ 0
    · rw [if_pos hneg, if_pos (by omega)]
      rfl
    · have hstarting : ¬ depth + -1 < 0 := by omega
      rw [if_neg hneg, if_neg hstarting]
      by_cases hone : depth = 1
      · subst hone
        rw [if_pos rfl]
        by_cases hk : t.keyword = b.closer
        · rw [if_pos ⟨hk, rfl⟩, List.find?_cons_of_pos (by simp [hk]), hk]
        · rw [if_neg (fun h => hk h.1), List.find?_cons_of_neg (by simp [hk])]
          rfl
      · have hzero : ¬ (t.keyword = b.closer ∧ depth + -1 = 0) := by omega
        rw [if_neg hone, if_neg hzero, Int.sub_eq_add_neg]
  -- Any other token is passed over, whether it stands at the starting level or not.
  · have hk : t.keyword ≠ b.closer := fun h => hc (by rw [h, b.isCloser_closer])
    have hfind (rest : List (Nat × Keyword)) :
        (if depth = 0 then (i, t.keyword) :: rest else rest).find? (·.2 == b.closer) =
          rest.find? (·.2 == b.closer) := by
      split
      · exact List.find?_cons_of_neg (by simp [hk])
      · rfl
    have hother : ¬ (t.keyword = b.closer ∧ depth + t.keyword.weight = 0) := fun h => hk h.1
    rw [Bool.not_eq_true] at hc
    rw [if_neg hother]
    by_cases ho : t.keyword.isOpener = true
    · rw [depthZero_opener depth i ts ho hc, hfind, Keyword.weight_of_isOpener ho,
        if_neg (by omega)]
    · rw [Bool.not_eq_true] at ho
      rw [depthZero_plain depth i ts ho hc, hfind, Keyword.weight_of_flat ho hc, Int.add_zero,
        if_neg (by omega)]

/-- The closer `c` stands at the index `j` behind tokens that the search passes over, when the first
token has the index `i`. -/
def Bracket.ClosesAt (b : Bracket) (depth i j : Nat) (ts : List Token) : Prop :=
  ∃ us c vs, ts = us ++ c :: vs ∧ j = i + us.length ∧ c.keyword = b.closer ∧ b.PassesFrom depth us

theorem Bracket.not_closesAt_nil {i j : Nat} : ¬ b.ClosesAt depth i j [] := by
  rintro ⟨us, c, vs, hts, -⟩
  exact List.append_ne_nil_of_right_ne_nil us (List.cons_ne_nil c vs) hts.symm

/-- The closer is the first token, or it stands behind it. -/
theorem Bracket.closesAt_cons {i j : Nat} :
    b.ClosesAt depth i j (t :: ts) ↔
      (t.keyword = b.closer ∧ depth = 1 ∧ j = i) ∨
        ∃ inner : Nat, (inner : Int) = depth + t.keyword.weight ∧
          (t.keyword = b.closer → 0 < inner) ∧ b.ClosesAt inner (i + 1) j ts := by
  constructor
  · rintro ⟨us, c, vs, hts, hj, hc, hpasses⟩
    cases us with
    | nil =>
      cases hts
      exact .inl ⟨hc, passesFrom_nil.mp hpasses, hj⟩
    | cons u us =>
      cases hts
      obtain ⟨inner, hinner, hcloser, hpasses⟩ := passesFrom_cons.mp hpasses
      rw [List.length_cons] at hj
      exact .inr ⟨inner, hinner, hcloser, us, c, vs, rfl, by omega, hc, hpasses⟩
  · rintro (⟨hc, hone, rfl⟩ | ⟨inner, hinner, hcloser, us, c, vs, rfl, hj, hc, hpasses⟩)
    · exact ⟨[], t, ts, rfl, rfl, hc, passesFrom_nil.mpr hone⟩
    · refine ⟨t :: us, c, vs, rfl, ?_, hc, passesFrom_cons.mpr ⟨inner, hinner, hcloser, hpasses⟩⟩
      rw [List.length_cons]
      omega

/-- A search finds the closer behind the tokens that it passes over. -/
theorem find?_depthZero_eq_some_iff {i j : Nat} :
    ((depthZero depth i ts).find? (·.2 == b.closer)).map (·.1) = some j ↔
      b.ClosesAt depth i j ts := by
  induction ts generalizing depth i with
  | nil => exact iff_of_false (fun h => by cases h) Bracket.not_closesAt_nil
  | cons t ts ih =>
    rw [find?_depthZero_cons b depth (Int.natCast_nonneg depth), Bracket.closesAt_cons]
    split
    · -- Below zero the search is over, and no region begins in front of that.
      rename_i hneg
      refine iff_of_false (fun h => by cases h) ?_
      rintro (⟨hc, hone, -⟩ | ⟨inner, hinner, -⟩)
      · rw [hc, Keyword.weight_of_isCloser b.isCloser_closer] at hneg
        omega
      · omega
    · rename_i hneg
      obtain ⟨inner, hinner⟩ := Int.eq_ofNat_of_zero_le (Int.not_lt.mp hneg)
      split
      · -- The first token is the closer itself.
        rename_i hfound
        obtain ⟨hc, hzero⟩ := hfound
        rw [hc, Keyword.weight_of_isCloser b.isCloser_closer] at hzero
        constructor
        · intro h
          exact .inl ⟨hc, by omega, (Option.some.inj h).symm⟩
        · rintro (⟨-, -, rfl⟩ | ⟨inner, hinner, hcloser, -⟩)
          · rfl
          · have hpos := hcloser hc
            rw [hc, Keyword.weight_of_isCloser b.isCloser_closer] at hinner
            omega
      · -- The first token is passed over, and the others are searched at the depth behind it.
        rename_i hpassed
        rw [hinner, ih]
        constructor
        · intro h
          refine .inr ⟨inner, rfl, fun hc => ?_, h⟩
          by_contra hpos
          exact hpassed ⟨hc, by omega⟩
        · rintro (⟨hc, rfl, -⟩ | ⟨other, hother, -, h⟩)
          · refine absurd ⟨hc, ?_⟩ hpassed
            rw [hc, Keyword.weight_of_isCloser b.isCloser_closer]
            rfl
          · rwa [show inner = other by omega]

/-- One level inside a bracket, a search for a closer of the kind passes over balanced tokens; it
passes over others too, but these close the bracket by a closer of the other kind. -/
theorem Bracket.balanced_iff :
    Balanced ts ↔ b.PassesFrom 1 ts ∧ ¬ b.other.Overcloses ts := by
  constructor
  · intro h
    refine ⟨⟨?_, ?_, ?_⟩, ?_⟩
    · intro us hus
      have hnonneg := h.nonneg us hus
      omega
    · intro us u hus _
      have hnonneg := h.nonneg _ hus
      omega
    · have hzero := h.zero
      omega
    · rintro ⟨us, u, hus, -, hneg⟩
      have hnonneg := h.nonneg _ hus
      omega
  · rintro ⟨hpasses, hother⟩
    refine ⟨?_, ?_⟩
    · intro us
      -- The depth falls below zero at a closer, and neither kind of closer makes it fall so far.
      induction us using List.reverseRecOn with
      | nil => exact fun _ => Int.le_refl 0
      | append_singleton us u ih =>
        intro hus
        have hbefore := ih ((List.prefix_append us [u]).trans hus)
        by_contra hneg
        have hweight : u.keyword.weight < 0 := by
          rw [bracketDepth_append, bracketDepth_cons, bracketDepth_nil] at hneg
          omega
        obtain hsame | hswitched := b.closer_of_weight_neg hweight
        · have hinside := hpasses.inside us u hus hsame
          omega
        · exact hother ⟨us, u, hus, hswitched, by omega⟩
    · have hone := hpasses.one
      omega

end passes

namespace Slice

variable {s inner : Slice} {b : Bracket} {i j : Nat}

theorem matchingClose_of_opener (h : (s.tokens[i]?).map (·.keyword) = some b.opener) :
    s.matchingClose i = s.firstFrom b.closer (i + 1) 1 := by
  obtain ⟨t, ht, hk⟩ := Option.map_eq_some_iff.mp h
  rw [matchingClose, ht]
  simp only [hk]
  cases b <;> rfl

/-- The closer that is found for an opener is of its kind, and stands behind tokens that the search
passes over. -/
theorem matchingClose_eq_some_iff (h : (s.tokens[i]?).map (·.keyword) = some b.opener) :
    s.matchingClose i = some j ↔
      i < j ∧ (s.tokens[j]?).map (·.keyword) = some b.closer ∧
        b.PassesFrom 1 (s.extract (i + 1) j).tokens := by
  have hone : depthOfCount 1 = ((1 : Nat) : Int) := by decide
  rw [matchingClose_of_opener h, firstFrom, hone, find?_depthZero_eq_some_iff]
  constructor
  · rintro ⟨us, c, vs, htokens, rfl, hc, hpasses⟩
    have hget : s.tokens[i + 1 + us.length]? = some c := by
      rw [← List.getElem?_drop, htokens, List.getElem?_append_right (Nat.le_refl _), Nat.sub_self]
      rfl
    have hinner : (s.extract (i + 1) (i + 1 + us.length)).tokens = us := by
      rw [tokens_extract, List.drop_take, Nat.add_sub_cancel_left, htokens, List.take_left]
    rw [hget, hinner]
    exact ⟨by omega, congrArg some hc, hpasses⟩
  · rintro ⟨hlt, hcloser, hpasses⟩
    obtain ⟨c, hget, hc⟩ := Option.map_eq_some_iff.mp hcloser
    refine ⟨_, c, _, drop_tokens_of_getElem? hlt hget, ?_, hc, hpasses⟩
    have hlength := (List.getElem?_eq_some_iff.mp hget).1
    rw [tokens_extract, List.length_drop, List.length_take]
    omega

theorem passesFrom_of_enclosed (h : s.enclosed b.opener = some inner) :
    b.PassesFrom 1 inner.tokens := by
  rw [enclosed_eq] at h
  split at h
  · rename_i hstart
    obtain ⟨o, ho, hs⟩ := tokens_of_startsWith hstart
    have hopener : (s.tokens[0]?).map (·.keyword) = some b.opener := by
      rw [hs]
      exact congrArg some ho
    split at h
    · rename_i j hclose
      split at h
      · cases h
        exact ((matchingClose_eq_some_iff hopener).mp hclose).2.2
      · cases h
    · cases h
  · cases h

/-- The closer found for an opener stands behind tokens that the search passes over. These are
balanced unless a closer of the other kind closes the opener first; and the first closer of its kind
behind balanced tokens is found. The same holds of what a bracket around a whole slice encloses. -/
theorem matchingClose_region (s : Slice) (b : Bracket) :
    (∀ i j, (s.tokens[i]?).map (·.keyword) = some b.opener →
      (s.matchingClose i = some j ↔
          i < j ∧ (s.tokens[j]?).map (·.keyword) = some b.closer ∧
            b.PassesFrom 1 (s.extract (i + 1) j).tokens) ∧
        (s.matchingClose i = some j ∧ ¬ b.other.Overcloses (s.extract (i + 1) j).tokens ↔
          i < j ∧ (s.tokens[j]?).map (·.keyword) = some b.closer ∧
            Balanced (s.extract (i + 1) j).tokens)) ∧
      ∀ inner, s.enclosed b.opener = some inner →
        b.PassesFrom 1 inner.tokens ∧
          (Balanced inner.tokens ↔ ¬ b.other.Overcloses inner.tokens) := by
  constructor
  · intro i j hopener
    refine ⟨matchingClose_eq_some_iff hopener, ?_⟩
    rw [matchingClose_eq_some_iff hopener, b.balanced_iff, and_assoc, and_assoc]
  · intro inner henclosed
    have hpasses := passesFrom_of_enclosed henclosed
    refine ⟨hpasses, ?_⟩
    rw [b.balanced_iff]
    exact and_iff_right hpasses

def crossedBrackets : Slice :=
  .ofSource "( \x7b ( \x7d ) )" "t"

/-- The last parenthesis is found, and what stands in front of it is balanced. -/
theorem matchingClose_region_crossedBrackets :
    (crossedBrackets.tokens[0]?).map (·.keyword) = some Bracket.paren.opener ∧
      crossedBrackets.matchingClose 0 = some 5 ∧
        crossedBrackets.enclosed .openParen = some (crossedBrackets.extract 1 5) ∧
          ¬ Bracket.brace.Overcloses (crossedBrackets.extract 1 5).tokens := by
  have hopener : (crossedBrackets.tokens[0]?).map (·.keyword) = some Bracket.paren.opener := by
    decide +kernel
  have hcloser : (crossedBrackets.tokens[5]?).map (·.keyword) = some Bracket.paren.closer := by
    decide +kernel
  have hbalanced : Balanced (crossedBrackets.extract 1 5).tokens := by decide +kernel
  have henclosed : crossedBrackets.enclosed .openParen = some (crossedBrackets.extract 1 5) := by
    decide +kernel
  obtain ⟨hclose, hregion⟩ := matchingClose_region crossedBrackets .paren
  exact ⟨hopener, ((hclose 0 5 hopener).2.mpr ⟨by decide, hcloser, hbalanced⟩).1, henclosed,
    (hregion _ henclosed).2.mp hbalanced⟩

/-- A parenthesis that a block end closes, and another pair behind it. -/
def overclosedParen : Slice :=
  .ofSource "( \x7d ( )" "t"

/-- The last parenthesis is found for the first one as well as for the second, and what the two
ends of the slice enclose is not balanced. -/
theorem not_balanced_overclosedParen :
    (overclosedParen.tokens[0]?).map (·.keyword) = some Bracket.paren.opener ∧
      overclosedParen.matchingClose 0 = some 3 ∧ overclosedParen.matchingClose 2 = some 3 ∧
        overclosedParen.enclosed .openParen = some (overclosedParen.extract 1 3) ∧
          ¬ Balanced (overclosedParen.extract 1 3).tokens := by
  decide +kernel

end Slice

end Prose
