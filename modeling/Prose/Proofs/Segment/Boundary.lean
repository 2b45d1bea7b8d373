import Prose.Proofs.Segment.Relocation
import Prose.Proofs.Slice.Braces

/-! Boundaries between statements. Behind balanced tokens that end in `.` a division begins anew: what
stands in front has no influence on how the tokens behind are divided, and the other way round. -/
namespace Prose

def Keyword.isLoopTail (k : Keyword) : Bool :=
  k == whileWord || k == untilWord

namespace Segment

def Division.append (d d' : Division) : Division :=
  ⟨d.segments ++ d'.segments, d'.openEnd⟩

def EndsInDot (ts : List Token) : Prop :=
  ∀ t ∈ ts.getLast?, t.keyword = .endOfStatement

variable {strict inDo : Bool} {s : Slice} {size depth : Nat} {t : Token} {ts us : List Token}
  {d d' : Division}

theorem push_append : push s (d.append d') = (push s d).append d' := by
  unfold push
  split <;> rfl

theorem EndsInDot.of_cons (h : EndsInDot (t :: ts)) : EndsInDot ts := by
  cases ts with
  | nil => exact fun u hu => by cases hu
  | cons u us => exact h

theorem EndsInDot.keyword_eq (h : EndsInDot [t]) : t.keyword = .endOfStatement :=
  h t rfl

section move

/-- A `.` where no bracket is open ends a segment, whatever follows. -/
theorem move_dot (ht : t.keyword = .endOfStatement) (next : Option Keyword) :
    move inDo 0 t.keyword next = .cut := by
  rw [ht]
  rfl

/-- The tokens behind a move are balanced from the depth that it leads to. No closer is stray. -/
theorem balancedFrom_of_move (inDo : Bool) (h : BalancedFrom depth (t :: ts)) :
    match move inDo depth t.keyword (next ts) with
    | .pass extra depth _ => BalancedFrom depth (ts.drop extra)
    | .cut => Balanced ts
    | .stray => False := by
  by_cases hopener : t.keyword.isOpener = true
  · rw [move.eq_def, if_pos hopener]
    exact h.opener hopener
  by_cases hcloser : t.keyword.isCloser = true
  · obtain ⟨hpos, hts⟩ := h.closer hcloser
    rw [move.eq_def, if_neg hopener, if_pos hcloser, if_neg (Nat.ne_of_gt hpos)]
    split_ifs with hend
    · rw [hend.1] at hts
      cases ts with
      | nil => exact hts
      | cons u us =>
        simp only [next, List.head?_cons, Option.map_some]
        split_ifs with hdo hcontinues
        -- A `while` or `until` behind a block is no bracket.
        · have hu : u.IsFlat := by
            simp only [Bool.and_eq_true, Bool.or_eq_true, beq_iff_eq] at hdo
            rcases hdo.2 with hu | hu <;> exact ⟨by rw [hu]; rfl, by rw [hu]; rfl⟩
          exact BalancedFrom.flat hts hu
        · exact hts
        · exact hts
    · exact hts
  · rw [Bool.not_eq_true] at hopener hcloser
    have hts := h.flat ⟨hopener, hcloser⟩
    rw [move.eq_def, hopener, hcloser]
    simp only [Bool.false_eq_true, if_false]
    split_ifs with hdot
    · rw [hdot.2] at hts
      exact hts
    · exact hts

/-- A move looks no further than to the end of the statement. -/
theorem move_append (h : BalancedFrom depth (t :: ts)) (hlast : EndsInDot (t :: ts))
    (us : List Token) :
    move inDo depth t.keyword (next (ts ++ us)) = move inDo depth t.keyword (next ts) := by
  cases ts with
  | cons u rest => rfl
  | nil =>
    have ht := hlast.keyword_eq
    have hflat : t.IsFlat := ⟨by rw [ht]; rfl, by rw [ht]; rfl⟩
    have hdepth : depth = 0 := balancedFrom_nil.mp (h.flat hflat)
    rw [hdepth, move_dot ht, move_dot ht]

/-- A move passes one token, or the end of a block and the word behind it. -/
theorem pass_cases {k : Keyword} {next : Option Keyword} {extra inner : Nat} {inDo' : Bool}
    (h : move inDo depth k next = .pass extra inner inDo') :
    extra = 0 ∧ inDo' = inDo ∨ extra = 1 ∧ inner = 0 ∧ inDo' = false ∧ inDo = true ∧ depth = 1 ∧
      k = .blockEnd ∧ ∃ u, next = some u ∧ u.isLoopTail = true := by
  unfold move at h
  split_ifs at h with hopener hcloser hzero hend hdot
  · cases h
    exact .inl ⟨rfl, rfl⟩
  · cases next with
    | none => cases h
    | some u =>
      simp only at h
      split_ifs at h with hdo hcontinues
      · cases h
        obtain ⟨hdo, hu⟩ := Bool.and_eq_true_iff.mp hdo
        exact .inr ⟨rfl, rfl, rfl, hdo, hend.1, hend.2, u, rfl, hu⟩
      · cases h
        exact .inl ⟨rfl, rfl⟩
  · cases h
    exact .inl ⟨rfl, rfl⟩
  · cases h
    exact .inl ⟨rfl, rfl⟩

/-- A move that passes tokens does not come to the end of the tokens, for there is a `.` -/
theorem drop_ne_nil_of_pass (h : BalancedFrom depth (t :: ts)) (hlast : EndsInDot (t :: ts))
    {extra inner : Nat} {inDo' : Bool}
    (hmove : move inDo depth t.keyword (next ts) = .pass extra inner inDo') :
    ts.drop extra ≠ [] := by
  cases ts with
  | nil =>
    have ht := hlast.keyword_eq
    have hflat : t.IsFlat := ⟨by rw [ht]; rfl, by rw [ht]; rfl⟩
    have hdepth : depth = 0 := balancedFrom_nil.mp (h.flat hflat)
    rw [hdepth, move_dot ht] at hmove
    cases hmove
  | cons u us =>
    obtain ⟨rfl, -⟩ | ⟨rfl, -, -, -, -, -, k, hnext, htail⟩ := pass_cases hmove
    · exact List.cons_ne_nil u us
    · intro hus
      rw [List.drop_succ_cons, List.drop_zero] at hus
      subst hus
      cases hnext
      have htail : u.keyword.isLoopTail = true := htail
      rw [hlast.of_cons.keyword_eq] at htail
      cases htail

end move

section append

theorem EndsInDot.drop (h : EndsInDot ts) (n : Nat) : EndsInDot (ts.drop n) := by
  induction n generalizing ts with
  | zero => exact h
  | succ n ih =>
    cases ts with
    | nil => exact h
    | cons t ts => exact ih h.of_cons

def extended (s : Slice) (us : List Token) : Slice :=
  ⟨s.start, s.tokens ++ us⟩

theorem take_extended {n : Nat} (hn : n ≤ s.length) : (extended s us).take n = s.take n := by
  simp only [extended, Slice.take, List.take_append_of_le_length hn]

theorem drop_extended {n : Nat} (hn : n ≤ s.length) :
    (extended s us).drop n = extended (s.drop n) us := by
  simp only [extended, Slice.drop, List.drop_append_of_le_length hn]

def behind (s : Slice) (us : List Token) : Slice :=
  ⟨s.start + s.length, us⟩

theorem behind_drop {n : Nat} (hn : n ≤ s.length) : behind (s.drop n) us = behind s us := by
  simp only [behind, Slice.length_drop]
  congr 1
  simp only [Slice.drop]
  omega

/-- Balanced tokens that end in `.` are divided as if nothing stood behind them, and what stands
behind them is divided as if they were not there. -/
theorem divideFrom_append (strict inDo : Bool) (us : List Token)
    (hbalanced : BalancedFrom depth ts) (hlast : EndsInDot ts) (hstart : ts = [] → size = 0)
    (hlength : s.length = size + ts.length) :
    divideFrom strict (extended s us) size depth inDo (ts ++ us) =
      (divideFrom strict s size depth inDo ts).append (divide strict (behind s us)) := by
  induction ts using drop_induction generalizing s size depth inDo with
  | nil =>
    have hdepth : depth = 0 := balancedFrom_nil.mp hbalanced
    have hsize := hstart rfl
    subst hdepth hsize
    obtain ⟨a, rest⟩ := s
    cases List.eq_nil_of_length_eq_zero hlength
    rw [divide_eq]
    exact divideFrom_start _ _
  | cons t ts ih =>
    have hsize : size + 1 ≤ s.length := by
      rw [hlength, List.length_cons]
      omega
    rw [List.cons_append, divideFrom_cons, divideFrom_cons, move_append hbalanced hlast]
    generalize hdo : (if size = 0 then t.keyword == .doWord else inDo) = inDo
    have hrest := balancedFrom_of_move inDo hbalanced
    match hmove : move inDo depth t.keyword (next ts) with
    | .pass extra inner inDo =>
      rw [hmove] at hrest
      simp only at hrest ⊢
      -- The statement goes on, so there is something left to read.
      have hne := drop_ne_nil_of_pass hbalanced hlast hmove
      have hextra : extra < ts.length := by
        rw [ne_eq, List.drop_eq_nil_iff] at hne
        omega
      rw [List.drop_append_of_le_length (Nat.le_of_lt hextra)]
      apply ih extra inDo hrest (hlast.of_cons.drop extra)
      · exact fun hnil => absurd hnil hne
      · rw [hlength, List.length_cons, List.length_drop]
        omega
    | .cut =>
      rw [hmove] at hrest
      simp only at hrest ⊢
      have hafter : divideFrom strict (extended (s.drop (size + 1)) us) 0 0 false (ts ++ us) =
          (divideFrom strict (s.drop (size + 1)) 0 0 false ts).append
            (divide strict (behind (s.drop (size + 1)) us)) := by
        apply ih 0 false hrest hlast.of_cons (fun _ => rfl)
        rw [Slice.length_drop, hlength, List.length_cons, List.drop_zero]
        omega
      rw [behind_drop hsize] at hafter
      rw [take_extended hsize, drop_extended hsize, hafter, push_append]
    | .stray =>
      rw [hmove] at hrest
      exact hrest.elim

/-- A block of balanced tokens that end in `.` does not end openly. -/
theorem openEnd_divideFrom (hbalanced : BalancedFrom depth ts) (hlast : EndsInDot ts)
    (hstart : ts = [] → size = 0) (hlength : s.length = size + ts.length) :
    (divideFrom strict s size depth inDo ts).openEnd = none := by
  have happend := divideFrom_append strict inDo [] hbalanced hlast hstart hlength
  have hextended : extended s [] = s := by
    rw [extended, List.append_nil]
  rw [hextended, List.append_nil] at happend
  rw [happend]
  rfl

/-- The segments of two runs of statements are those of the first and, further on in the stream,
those of the second. -/
theorem divide_append (hbalanced : Balanced ts) (hlast : EndsInDot ts) (strict : Bool)
    (us : List Token) :
    divide strict (.ofTokens (ts ++ us)) =
      (divide strict (.ofTokens ts)).append (divide strict ⟨ts.length, us⟩) := by
  have happend := divideFrom_append (s := .ofTokens ts) strict false us hbalanced hlast
    (fun _ => rfl) (Nat.zero_add _).symm
  have hbehind : behind (.ofTokens ts) us = ⟨ts.length, us⟩ :=
    congrArg (Slice.mk · us) (Nat.zero_add _)
  rw [hbehind] at happend
  rw [divide_eq, divide_eq strict (.ofTokens ts)]
  exact happend

/-- A closer where no bracket is open is a broken segment of its own. -/
theorem divide_stray {c : Token} (hc : c.keyword.isCloser = true) (strict : Bool) (i : Nat)
    (us : List Token) :
    divide strict ⟨i, c :: us⟩ = strayed ⟨i, [c]⟩ c (divide strict ⟨i + 1, us⟩) := by
  have hmove (next : Option Keyword) (inDo : Bool) : move inDo 0 c.keyword next = .stray := by
    rw [move.eq_def, Keyword.isOpener_eq_false_of_isCloser hc, hc]
    rfl
  rw [divide_eq, divide_eq, divideFrom_cons, hmove]
  rfl

end append

section head

/-- A statement begins with a token that is no `.` -/
theorem exists_of_statement_mem {r : Slice} (hs : s.tokens.drop size = ts)
    (hhead : 0 < size → ∃ u us, s.tokens = u :: us ∧ u.keyword ≠ .endOfStatement)
    (hstart : size = 0 → depth = 0)
    (hr : statement r ∈ (divideFrom strict s size depth inDo ts).segments) :
    ∃ u us, r.tokens = u :: us ∧ u.keyword ≠ .endOfStatement := by
  induction ts using drop_induction generalizing s size depth inDo with
  | nil =>
    have hlen : s.length ≤ size := List.drop_eq_nil_iff.mp hs
    rw [divideFrom] at hr
    rw [rest_eq] at hr
    split_ifs at hr with hdepth hdots hstrict
    · cases List.mem_singleton.mp hr
    · cases hr
    · cases List.mem_singleton.mp hr
    · obtain rfl : r = s := Segment.statement.inj (List.mem_singleton.mp hr)
      by_cases hsize : size = 0
      · have hnil : r.tokens = [] := List.eq_nil_of_length_eq_zero (Nat.le_zero.mp (hsize ▸ hlen))
        exact absurd (Slice.isOnlyTerminators_iff.mpr (by rw [hnil]; simp)) hdots
      · exact hhead (Nat.pos_of_ne_zero hsize)
  | cons t ts ih =>
    have hafter : (s.drop (size + 1)).tokens = ts := by
      rw [Slice.tokens_drop, ← List.drop_drop, hs]
      rfl
    have hlater (hr : statement r ∈
        (divideFrom strict (s.drop (size + 1)) 0 0 false ts).segments) :
        ∃ u us, r.tokens = u :: us ∧ u.keyword ≠ .endOfStatement := by
      refine ih 0 ?_ ?_ ?_ hr
      · exact hafter
      · intro hpos
        exact absurd hpos (Nat.lt_irrefl 0)
      · intro _
        rfl
    -- The statement that is being read begins with the token in front of which nothing was read.
    have hfirst (hcut : size = 0 → t.keyword ≠ .endOfStatement) :
        ∃ u us, s.tokens = u :: us ∧ u.keyword ≠ .endOfStatement := by
      by_cases hsize : size = 0
      · rw [hsize, List.drop_zero] at hs
        exact ⟨t, ts, hs, hcut hsize⟩
      · exact hhead (Nat.pos_of_ne_zero hsize)
    rw [divideFrom_cons] at hr
    generalize (if size = 0 then t.keyword == .doWord else inDo) = inDo at hr
    cases hmove : move inDo depth t.keyword (next ts) with
    | pass extra inner inDo =>
      rw [hmove] at hr
      refine ih extra ?_ ?_ ?_ hr
      · rw [← List.drop_drop, ← hafter]
        rfl
      · intro _
        apply hfirst
        intro hsize ht
        rw [hstart hsize, move_dot ht] at hmove
        cases hmove
      · intro hsize
        omega
    | cut =>
      rw [hmove] at hr
      simp only [push] at hr
      split_ifs at hr with hdots
      · exact hlater hr
      · rcases List.mem_cons.mp hr with hr | hr
        · have hcut : size = 0 → t.keyword ≠ .endOfStatement := by
            intro hsize ht
            apply hdots
            rw [hsize, List.drop_zero] at hs
            rw [Slice.isOnlyTerminators_iff, Slice.tokens_take, hsize, hs]
            intro u hu
            rw [List.mem_singleton.mp hu]
            exact ht
          obtain ⟨u, us, hu, hdot⟩ := hfirst hcut
          rw [Segment.statement.inj hr, Slice.tokens_take, hu]
          exact ⟨u, us.take size, rfl, hdot⟩
        · exact hlater hr
    | stray =>
      rw [hmove] at hr
      rcases List.mem_cons.mp hr with hr | hr
      · cases hr
      · exact hlater hr

theorem exists_of_statement_mem_divide {r : Slice}
    (hr : statement r ∈ (divide strict s).segments) :
    ∃ u us, r.tokens = u :: us ∧ u.keyword ≠ .endOfStatement := by
  rw [divide_eq] at hr
  refine exists_of_statement_mem (s := s) ?_ ?_ ?_ hr
  · exact List.drop_zero
  · intro hpos
    exact absurd hpos (Nat.lt_irrefl 0)
  · intro _
    rfl

/-- The first statement of a block begins with the first token that is no `.` -/
theorem find?_eq_of_head? {r : Slice}
    (hr : (divide strict s).segments.head? = some (statement r)) :
    s.tokens.find? (·.keyword != .endOfStatement) = r.tokens.head? := by
  obtain ⟨rest, hsegments⟩ := List.head?_eq_some_iff.mp hr
  have htiled := tiled_divide strict s
  rw [Division.slices, hsegments, List.map_cons] at htiled
  obtain ⟨ds, us, htokens, hds, -, -⟩ := htiled.exists_cons
  have hmem : statement r ∈ (divide strict s).segments := by
    rw [hsegments]
    exact List.mem_cons_self ..
  obtain ⟨u, rs, hrs, hu⟩ := exists_of_statement_mem_divide hmem
  have hdots : ds.find? (·.keyword != .endOfStatement) = none := by
    rw [List.find?_eq_none]
    intro d hd
    simp [hds d hd]
  rw [htokens, List.find?_append, hdots, Option.none_or, slice, hrs, List.cons_append,
    List.find?_cons_of_pos (by simpa using hu), List.head?_cons]

end head

end Segment

end Prose
