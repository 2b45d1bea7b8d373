import Prose.Proofs.Segment.Body

/-! The course of a division through one segment. It is a run of moves, and it ends in one of three
ways. A division is the course of its first segment and the division of what stands behind it, so
what holds of a division is proved segment by segment. -/
namespace Prose

/-- The first token decides about the depth from which the others are balanced. -/
theorem BalancedFrom.cons_iff {depth inner : Nat} {t : Token} {ts : List Token}
    (hinner : (inner : Int) = depth + t.keyword.weight) :
    BalancedFrom depth (t :: ts) ↔ BalancedFrom inner ts := by
  constructor
  · intro h
    obtain ⟨inner', hinner', hts⟩ := h.exists_of_cons
    rwa [show inner = inner' by omega]
  · exact fun h => h.cons hinner

/-- What stands behind balanced tokens is balanced on its own if the whole is. -/
theorem BalancedFrom.append_iff {depth : Nat} {us ts : List Token} (h : BalancedFrom depth us) :
    BalancedFrom depth (us ++ ts) ↔ Balanced ts := by
  induction us generalizing depth with
  | nil =>
    cases balancedFrom_nil.mp h
    exact Iff.rfl
  | cons u us ih =>
    obtain ⟨inner, hinner, hus⟩ := h.exists_of_cons
    rw [List.cons_append, cons_iff hinner]
    exact ih hus

namespace Segment

/-- How a segment ends: a division cuts behind its last token, this is a closer without an opener,
or there are no more tokens and `depth` openers are still open. -/
inductive Ending where
  | cut
  | stray (t : Token)
  | openEnd (depth : Nat)

/-- The segment `s` with its ending, in front of the division of what stands behind it. -/
def Ending.close (strict : Bool) (s : Slice) (d : Division) : Ending → Division
  | cut => push s d
  | stray t => strayed s t d
  | openEnd depth => rest strict s depth

/-- The brackets of a segment with this ending and of the tokens behind it match, if they do so up
to the end of the segment. -/
def Ending.Balances (later : List Token) : Ending → Prop
  | cut => Balanced later
  | stray _ => False
  | openEnd depth => depth = 0

/-- The moves of a division lead through the tokens of a segment, behind which others may stand, to
its ending. -/
inductive Course : Bool → Nat → List Token → List Token → Ending → Prop
  | openEnd {inDo depth} : Course inDo depth [] [] (.openEnd depth)
  | cut {inDo depth t later} (h : move inDo depth t.keyword (next later) = .cut) :
      Course inDo depth [t] later .cut
  | stray {inDo t later} (h : t.keyword.isCloser = true) : Course inDo 0 [t] later (.stray t)
  | pass {inDo depth inner t ts later e}
      (h : move inDo depth t.keyword (next (ts ++ later)) = .pass 0 inner inDo)
      (hrest : Course inDo inner ts later e) : Course inDo depth (t :: ts) later e
  | tail {t u ts later e} (ht : t.keyword = .blockEnd) (hu : u.keyword.isLoopTail = true)
      (hrest : Course false 0 ts later e) : Course true 1 (t :: u :: ts) later e

/-- The slice is the first segment of the tokens that begin with it, and this is how it ends. -/
def EndsBy (s : Slice) (later : List Token) (e : Ending) : Prop :=
  Course (s.startsWith .doWord) 0 s.tokens later e

variable {strict inDo : Bool} {s : Slice} {size depth : Nat} {t : Token} {ts later : List Token}
  {e : Ending}

section moves

theorem stray_iff {k : Keyword} {next : Option Keyword} :
    move inDo depth k next = .stray ↔ k.isCloser = true ∧ depth = 0 := by
  constructor
  · intro h
    unfold move at h
    split_ifs at h with hopener hcloser hzero hend hdot
    · exact ⟨hcloser, hzero⟩
    · cases next with
      | none => cases h
      | some u =>
        simp only at h
        split_ifs at h
  · rintro ⟨hcloser, rfl⟩
    rw [move.eq_def, Keyword.isOpener_eq_false_of_isCloser hcloser, hcloser]
    rfl

/-- Where a segment is cut, it is cut as well if nothing stands behind it. -/
theorem move_none_of_cut {k : Keyword} {next : Option Keyword}
    (h : move inDo depth k next = .cut) : move inDo depth k none = .cut := by
  unfold move at h ⊢
  split_ifs at h ⊢ <;> rfl

/-- A `.` that is passed over stands inside of brackets. -/
theorem pos_of_pass_dot {next : Option Keyword} {extra inner : Nat} {inDo' : Bool}
    (ht : t.keyword = .endOfStatement)
    (h : move inDo depth t.keyword next = .pass extra inner inDo') : 0 < depth := by
  apply Nat.pos_of_ne_zero
  rintro rfl
  rw [move_dot ht] at h
  cases h

end moves

section existence

/-- From wherever it is, a division comes to an ending. -/
theorem exists_course (inDo : Bool) (depth : Nat) (us : List Token) :
    ∃ ts later e, us = ts ++ later ∧ Course inDo depth ts later e ∧ (us ≠ [] → ts ≠ []) := by
  induction us using drop_induction generalizing inDo depth with
  | nil => exact ⟨[], [], .openEnd depth, rfl, .openEnd, id⟩
  | cons t us ih =>
    match hmove : move inDo depth t.keyword (next us) with
    | .pass extra inner inDo' =>
      -- It passes one token, or a block end together with the word behind it.
      obtain ⟨ts, later, e, hus, hcourse, -⟩ := ih extra inDo' inner
      obtain ⟨rfl, rfl⟩ | ⟨rfl, rfl, rfl, rfl, rfl, ht, k, hnext, hk⟩ := pass_cases hmove
      · rw [List.drop_zero] at hus
        subst hus
        exact ⟨t :: ts, later, e, rfl, .pass hmove hcourse, fun _ => List.cons_ne_nil _ _⟩
      · cases us with
        | nil => cases hnext
        | cons u us =>
          cases hnext
          rw [List.drop_succ_cons, List.drop_zero] at hus
          subst hus
          exact ⟨t :: u :: ts, later, e, rfl, .tail ht hk hcourse, fun _ => List.cons_ne_nil _ _⟩
    | .cut => exact ⟨[t], us, .cut, rfl, .cut hmove, fun _ => List.cons_ne_nil _ _⟩
    | .stray =>
      obtain ⟨hcloser, rfl⟩ := stray_iff.mp hmove
      exact ⟨[t], us, .stray t, rfl, .stray hcloser, fun _ => List.cons_ne_nil _ _⟩

/-- Every block is a segment and what stands behind it. -/
theorem exists_endsBy (s : Slice) :
    ∃ r later e, s = extended r later ∧ EndsBy r later e ∧ (s.tokens ≠ [] → r.tokens ≠ []) := by
  obtain ⟨i, us⟩ := s
  obtain ⟨ts, later, e, hus, hcourse, hts⟩ :=
    exists_course ((⟨i, us⟩ : Slice).startsWith .doWord) 0 us
  refine ⟨⟨i, ts⟩, later, e, congrArg (Slice.mk i) hus, ?_, hts⟩
  -- The segment begins with the same token as the block, unless there is none.
  have hstart : (⟨i, us⟩ : Slice).startsWith .doWord = (⟨i, ts⟩ : Slice).startsWith .doWord := by
    cases ts with
    | nil =>
      cases us with
      | nil => rfl
      | cons u us => exact absurd rfl (hts (List.cons_ne_nil u us))
    | cons t ts =>
      rw [hus]
      rfl
  rwa [hstart] at hcourse

end existence

section division

/-- Nothing stands behind a segment that has no closer. -/
theorem Course.later_eq_nil {d : Nat} (h : Course inDo depth ts later (.openEnd d)) :
    later = [] := by
  generalize he : Ending.openEnd d = e at h
  induction h with
  | openEnd => rfl
  | cut | stray => cases he
  | pass _ _ ih => exact ih he
  | tail _ _ _ ih => exact ih he

/-- Only a segment that has no closer may be empty. -/
theorem Course.ne_nil (h : Course inDo depth ts later e) (he : ∀ d, e ≠ .openEnd d) : ts ≠ [] := by
  rintro rfl
  cases h
  exact he _ rfl

/-- Behind the course of its first segment a division begins anew. -/
theorem Course.divideFrom_eq (h : Course inDo depth ts later e) {inDo' : Bool}
    (hdo : (if size = 0 then ts.head?.any (·.keyword == .doWord) else inDo') = inDo)
    (hs : s.tokens.drop size = ts ++ later) (strict : Bool) :
    divideFrom strict s size depth inDo' (ts ++ later) =
      e.close strict (s.take (size + ts.length)) (divide strict (s.drop (size + ts.length))) := by
  -- At the first token of a segment `hdo` takes the flag from it, later from the course so far.
  induction h generalizing size inDo' with
  | openEnd =>
    have htake : s.take size = s := by
      rw [Slice.take, List.take_of_length_le (List.drop_eq_nil_iff.mp hs)]
    rw [List.append_nil, divideFrom, Ending.close, List.length_nil, Nat.add_zero, htake]
  | @cut inDo depth t later h =>
    have hlater : (s.drop (size + 1)).tokens = later := by
      rw [Slice.tokens_drop, ← List.drop_drop, hs]
      rfl
    rw [List.head?_cons, Option.any_some] at hdo
    rw [List.singleton_append, divideFrom_cons, hdo, h, Ending.close, List.length_singleton, divide_eq,
      hlater]
  | @stray inDo t later h =>
    have hlater : (s.drop (size + 1)).tokens = later := by
      rw [Slice.tokens_drop, ← List.drop_drop, hs]
      rfl
    rw [List.head?_cons, Option.any_some] at hdo
    rw [List.singleton_append, divideFrom_cons, hdo, stray_iff.mpr ⟨h, rfl⟩, Ending.close,
      List.length_singleton, divide_eq, hlater]
  | @pass inDo depth inner t ts later e h _ ih =>
    rw [List.head?_cons, Option.any_some] at hdo
    have hrest : s.tokens.drop (size + 1) = ts ++ later := by
      rw [← List.drop_drop, hs]
      rfl
    rw [List.cons_append, divideFrom_cons, hdo, h, List.length_cons, ← Nat.add_assoc,
      Nat.add_right_comm]
    exact ih (if_neg (Nat.succ_ne_zero size)) hrest
  | @tail t u ts later e ht hu _ ih =>
    rw [List.head?_cons, Option.any_some] at hdo
    have hrest : s.tokens.drop (size + 2) = ts ++ later := by
      rw [← List.drop_drop, hs]
      rfl
    rw [List.cons_append, List.cons_append, divideFrom_cons, hdo, ht, move_tail hu,
      List.length_cons, List.length_cons, show size + (ts.length + 1 + 1) = size + 2 + ts.length by
        omega]
    exact ih (if_neg (Nat.succ_ne_zero _)) hrest

/-- A block is divided into its first segment and what the tokens behind it are divided into. -/
theorem EndsBy.divide_eq (h : EndsBy s later e) (strict : Bool) :
    divide strict (extended s later) = e.close strict s (divide strict (behind s later)) := by
  have hfrom : divideFrom strict (extended s later) 0 0 false (s.tokens ++ later) =
      e.close strict ((extended s later).take (0 + s.tokens.length))
        (divide strict ((extended s later).drop (0 + s.tokens.length))) :=
    h.divideFrom_eq rfl rfl strict
  have htake : (extended s later).take s.tokens.length = s := by
    rw [extended, Slice.take, List.take_left]
  have hdrop : (extended s later).drop s.tokens.length = behind s later := by
    rw [extended, Slice.drop, List.drop_left]
    rfl
  rw [Nat.zero_add, htake, hdrop] at hfrom
  rw [Segment.divide_eq]
  exact hfrom

theorem divide_empty (i : Nat) : divide strict ⟨i, []⟩ = ⟨[], none⟩ := rfl

/-- What holds of a segment without its closer, and of a segment in front of what it holds of, holds
of every block. -/
theorem segment_induction {motive : Slice → Prop}
    (openEnd : ∀ s depth, EndsBy s [] (.openEnd depth) → motive s)
    (cut : ∀ r later, EndsBy r later .cut → motive (behind r later) → motive (extended r later))
    (stray : ∀ r later t, EndsBy r later (.stray t) → motive (behind r later) →
      motive (extended r later)) (s : Slice) : motive s := by
  induction hn : s.length using Nat.strongRecOn generalizing s with
  | ind n ih =>
    obtain ⟨r, later, e, rfl, hends, hne⟩ := exists_endsBy s
    -- A segment with a closer is not empty, so that less is left behind it.
    have hbehind (hpos : r.tokens ≠ []) : motive (behind r later) := by
      refine ih _ ?_ (behind r later) rfl
      have hlength : (extended r later).length = r.tokens.length + later.length :=
        List.length_append
      have hr := List.length_pos_iff.mpr hpos
      have hlater : (behind r later).length = later.length := rfl
      omega
    cases e with
    | openEnd depth =>
      obtain rfl := hends.later_eq_nil
      rw [extended, List.append_nil]
      exact openEnd r depth hends
    | cut => exact cut r later hends (hbehind (hends.ne_nil fun _ h => by cases h))
    | stray t => exact stray r later t hends (hbehind (hends.ne_nil fun _ h => by cases h))

end division

section context

/-- A segment ends in the same way if nothing stands behind it. -/
theorem Course.alone (h : Course inDo depth ts later e) : Course inDo depth ts [] e := by
  induction h with
  | openEnd => exact .openEnd
  | cut h => exact .cut (move_none_of_cut h)
  | stray h => exact .stray h
  | @pass inDo depth inner t ts later e h hrest ih =>
    -- The next token is in the segment, or there is none in the block either.
    refine .pass ?_ ih
    cases ts with
    | nil =>
      cases hrest
      exact h
    | cons u us => exact h
  | tail ht hu _ ih => exact .tail ht hu ih

/-- A segment without what stood behind it is divided as it is there. -/
theorem EndsBy.divide_alone (h : EndsBy s later e) (strict : Bool) :
    divide strict s = e.close strict s ⟨[], none⟩ := by
  have halone : EndsBy s [] e := h.alone
  have hdivide := halone.divide_eq strict
  rwa [extended, List.append_nil, behind, divide_empty] at hdivide

end context

section brackets

/-- The brackets match up to the end of a segment that is cut or has no closer, not behind a closer
without an opener. -/
theorem Course.balancedFrom_iff (h : Course inDo depth ts later e) :
    BalancedFrom depth (ts ++ later) ↔ e.Balances later := by
  induction h with
  | openEnd => exact balancedFrom_nil
  | cut h => exact BalancedFrom.cons_iff (weight_of_cut h)
  | stray h =>
    constructor
    · intro hbalanced
      exact absurd (hbalanced.closer h).1 (Nat.lt_irrefl 0)
    · exact False.elim
  | pass h _ ih => exact (BalancedFrom.cons_iff (weight_of_pass h)).trans ih
  | @tail t u ts later e ht hu _ ih =>
    -- The block end returns to depth zero, and the word behind it is no bracket.
    have htail : ((0 : Nat) : Int) = ((0 : Nat) : Int) + u.keyword.weight := by
      rw [weight_of_isLoopTail hu]
      rfl
    calc BalancedFrom 1 (t :: u :: (ts ++ later))
        ↔ BalancedFrom 0 (u :: (ts ++ later)) := BalancedFrom.cons_iff (weight_of_tail ht)
      _ ↔ BalancedFrom 0 (ts ++ later) := BalancedFrom.cons_iff htail
      _ ↔ e.Balances later := ih

/-- A `.` outside of brackets is the last token of a segment that is cut. -/
theorem Course.eq_of_dot (h : Course inDo depth ts later e) {us vs : List Token}
    (hts : ts = us ++ t :: vs) (ht : t.keyword = .endOfStatement)
    (hdepth : depth + bracketDepth us = 0) : e = .cut ∧ vs = [] := by
  induction h generalizing us with
  | openEnd => exact absurd hts.symm (by simp)
  | cut =>
    cases us with
    | nil =>
      cases hts
      exact ⟨rfl, rfl⟩
    | cons u us => exact absurd (List.cons.inj hts).2.symm (by simp)
  | stray h =>
    cases us with
    | nil =>
      cases hts
      rw [ht] at h
      cases h
    | cons u us => exact absurd (List.cons.inj hts).2.symm (by simp)
  | @pass inDo depth inner u ts later e h _ ih =>
    cases us with
    | nil =>
      cases hts
      rw [bracketDepth_nil] at hdepth
      have hpos := pos_of_pass_dot ht h
      omega
    | cons u us =>
      cases hts
      rw [bracketDepth_cons] at hdepth
      have hinner := weight_of_pass h
      exact ih rfl (by omega)
  | @tail c u ts later e hc hu _ ih =>
    -- Neither the block end nor the word behind it is a `.`
    cases us with
    | nil =>
      cases hts
      rw [ht] at hc
      cases hc
    | cons c us =>
      cases us with
      | nil =>
        cases hts
        rw [ht] at hu
        cases hu
      | cons u us =>
        cases hts
        rw [bracketDepth_cons, bracketDepth_cons, weight_of_isLoopTail hu] at hdepth
        have hinner := weight_of_tail hc
        exact ih rfl (by omega)

/-- A segment without a closer ends in no `.` and no block end outside of brackets. -/
theorem Course.not_endsBody (h : Course inDo depth ts later (.openEnd 0)) : ¬EndsBody ts := by
  rintro ⟨t, ht, hk⟩
  generalize he : Ending.openEnd 0 = e at h
  induction h with
  | openEnd => cases ht
  | cut | stray => cases he
  | @pass inDo depth inner u ts later e h hrest ih =>
    cases ts with
    | nil =>
      cases hrest
      cases he
      cases ht
      have hpos := pos_of_pass hk h
      omega
    | cons v ts => exact ih ht he
  | @tail c u ts later e hc hu hrest ih =>
    cases ts with
    | nil => exact ne_nil_of_isLoopTail ⟨t, ht, hk⟩ hu rfl
    | cons v ts => exact ih ht he

end brackets

end Segment
end Prose
