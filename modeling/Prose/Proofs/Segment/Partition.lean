import Prose.Proofs.Segment
import Prose.Proofs.Slice.Part

namespace Prose

/-- The tokens from index `i` of a stream on are those of the slices, each in its place, with
nothing but `.` before, between and behind them. -/
inductive TiledFrom : Nat → List Slice → List Token → Prop
  | nil {i} : TiledFrom i [] []
  | dot {i slices d ts} (hd : d.keyword = .endOfStatement) (h : TiledFrom (i + 1) slices ts) :
      TiledFrom i slices (d :: ts)
  | cons {slices ts} (s : Slice) (h : TiledFrom (s.start + s.length) slices ts) :
      TiledFrom s.start (s :: slices) (s.tokens ++ ts)

namespace TiledFrom

variable {i : Nat} {slices rest : List Slice} {s : Slice} {ts us : List Token}

/-- Tokens that are all `.` may stand in front. -/
theorem dots (hts : ∀ t ∈ ts, t.keyword = .endOfStatement)
    (h : TiledFrom (i + ts.length) slices us) : TiledFrom i slices (ts ++ us) := by
  induction ts generalizing i with
  | nil => exact h
  | cons t ts ih =>
    rw [List.length_cons, ← Nat.add_assoc, Nat.add_right_comm] at h
    obtain ⟨ht, hts⟩ := List.forall_mem_cons.mp hts
    exact .dot ht (ih hts h)

theorem singleton (s : Slice) : TiledFrom s.start [s] s.tokens := by
  have h := TiledFrom.cons s .nil
  rwa [List.append_nil] at h

theorem append (h : TiledFrom i slices ts) (h' : TiledFrom (i + ts.length) rest us) :
    TiledFrom i (slices ++ rest) (ts ++ us) := by
  induction h with
  | nil => exact h'
  | dot hd _ ih =>
    rw [List.length_cons, ← Nat.add_assoc, Nat.add_right_comm] at h'
    exact .dot hd (ih h')
  | cons s _ ih =>
    rw [List.length_append, ← Nat.add_assoc] at h'
    rw [List.cons_append, List.append_assoc]
    exact .cons s (ih h')

/-- Without slices there is nothing but `.` -/
theorem keyword_of_nil (h : TiledFrom i [] ts) : ∀ t ∈ ts, t.keyword = .endOfStatement := by
  generalize hnil : ([] : List Slice) = slices at h
  induction h with
  | nil => simp
  | dot hd _ ih => exact List.forall_mem_cons.mpr ⟨hd, ih hnil⟩
  | cons s _ _ => cases hnil

/-- The first slice stands behind nothing but `.` -/
theorem exists_cons (h : TiledFrom i (s :: slices) ts) :
    ∃ ds us, ts = ds ++ (s.tokens ++ us) ∧ (∀ d ∈ ds, d.keyword = .endOfStatement) ∧
      s.start = i + ds.length ∧ TiledFrom (s.start + s.length) slices us := by
  generalize hcons : s :: slices = all at h
  induction h with
  | nil => cases hcons
  | @dot _ _ d ts hd _ ih =>
    obtain ⟨ds, us, rfl, hds, hstart, hus⟩ := ih hcons
    refine ⟨d :: ds, us, rfl, List.forall_mem_cons.mpr ⟨hd, hds⟩, ?_, hus⟩
    rw [hstart, List.length_cons, Nat.add_assoc, Nat.add_comm 1]
  | @cons _ ts r hts _ =>
    cases hcons
    exact ⟨[], ts, rfl, List.forall_mem_nil _, rfl, hts⟩

/-- The tokens of some first slices come first. -/
theorem exists_append (h : TiledFrom i (slices ++ rest) ts) :
    ∃ us vs, ts = us ++ vs ∧ TiledFrom i slices us ∧ TiledFrom (i + us.length) rest vs := by
  induction slices generalizing i ts with
  | nil => exact ⟨[], ts, rfl, .nil, h⟩
  | cons s slices ih =>
    obtain ⟨ds, ws, rfl, hds, hstart, hws⟩ := h.exists_cons
    obtain ⟨us, vs, rfl, hus, hvs⟩ := ih hws
    refine ⟨ds ++ (s.tokens ++ us), vs, by simp only [List.append_assoc], dots hds ?_, ?_⟩
    · rw [← hstart]
      exact .cons s hus
    · rw [List.length_append, List.length_append, ← Nat.add_assoc, ← Nat.add_assoc, ← hstart]
      exact hvs

/-- Slices may be cut further. -/
theorem flatMap {f : Slice → List Slice} (hf : ∀ s ∈ slices, TiledFrom s.start (f s) s.tokens)
    (h : TiledFrom i slices ts) : TiledFrom i (slices.flatMap f) ts := by
  induction h with
  | nil => exact .nil
  | dot hd _ ih => exact .dot hd (ih hf)
  | cons s _ ih =>
    rw [List.flatMap_cons]
    exact (hf s (List.mem_cons_self ..)).append (ih fun r hr => hf r (List.mem_cons_of_mem _ hr))

end TiledFrom

theorem Slice.isOnlyTerminators_iff {s : Slice} :
    s.isOnlyTerminators = true ↔ ∀ t ∈ s.tokens, t.keyword = .endOfStatement := by
  simp only [isOnlyTerminators, List.all_eq_true, beq_iff_eq]

namespace Segment

variable {strict inDo : Bool} {s : Slice} {size depth : Nat} {ts : List Token}

def Division.slices (d : Division) : List Slice :=
  d.segments.map slice

/-- The first tokens of a slice stand in front of what the others are cut into. -/
theorem tiled_cut {slices : List Slice} {n : Nat} (hn : n ≤ s.length)
    (h : TiledFrom (s.start + n) slices (s.drop n).tokens) :
    TiledFrom s.start (s.take n :: slices) s.tokens := by
  have hs : s.tokens = (s.take n).tokens ++ (s.drop n).tokens := (List.take_append_drop n _).symm
  rw [hs]
  apply TiledFrom.cons (s.take n)
  rwa [Slice.length_take, Nat.min_eq_left hn]

theorem tiled_push {d : Division} {n : Nat} (hn : n ≤ s.length)
    (h : TiledFrom (s.start + n) d.slices (s.drop n).tokens) :
    TiledFrom s.start (push (s.take n) d).slices s.tokens := by
  unfold push
  split
  · rename_i honly
    have hs : s.tokens = (s.take n).tokens ++ (s.drop n).tokens :=
      (List.take_append_drop n _).symm
    rw [hs]
    apply TiledFrom.dots (Slice.isOnlyTerminators_iff.mp honly)
    change TiledFrom (s.start + (s.take n).length) _ _
    rwa [Slice.length_take, Nat.min_eq_left hn]
  · exact tiled_cut hn h

theorem tiled_rest : TiledFrom s.start (rest strict s depth).slices s.tokens := by
  rw [rest_eq]
  split
  · exact .singleton s
  · split
    · rename_i honly
      have h := TiledFrom.dots (i := s.start) (Slice.isOnlyTerminators_iff.mp honly) .nil
      rwa [List.append_nil] at h
    · split
      · exact .singleton s
      · exact .singleton s

/-- The segments of a block are all its tokens but some `.` -/
theorem tiled_divideFrom (h : size + ts.length = s.length) :
    TiledFrom s.start (divideFrom strict s size depth inDo ts).slices s.tokens := by
  fun_induction divideFrom strict s size depth inDo ts with
  | case1 => exact tiled_rest
  -- The token after which a segment ends belongs to it.
  | case3 _ _ _ _ _ _ _ _ _ _ ih => exact tiled_cut (by grind) (ih (by grind))
  | case4 _ _ _ _ _ _ _ _ _ _ ih => exact tiled_push (by grind) (ih (by grind))
  | case7 _ _ _ _ _ _ _ _ _ _ _ _ _ _ ih => exact tiled_push (by grind) (ih (by grind))
  | case9 _ _ _ _ _ _ _ _ _ _ ih => exact tiled_push (by grind) (ih (by grind))
  | case2 _ _ _ _ _ _ _ _ ih => exact ih (by grind)
  | case5 _ _ _ _ _ _ _ _ _ _ _ _ _ ih => exact ih (by grind)
  | case6 _ _ _ _ _ _ _ _ _ _ _ _ _ _ ih => exact ih (by grind)
  | case8 _ _ _ _ _ _ _ _ _ _ _ ih => exact ih (by grind)
  | case10 _ _ _ _ _ _ _ _ _ _ ih => exact ih (by grind)

theorem tiled_divide (strict : Bool) (s : Slice) :
    TiledFrom s.start (divide strict s).slices s.tokens := by
  rw [divide_eq]
  exact tiled_divideFrom (Nat.zero_add _)

theorem mem_slices_push {d : Division} {r : Slice} (h : r ∈ (push s d).slices) :
    r = s ∨ r ∈ d.slices := by
  unfold push at h
  split at h
  · exact .inr h
  · exact List.mem_cons.mp h

theorem isPartOf_of_mem_rest {r : Slice} (h : r ∈ (rest strict s depth).slices) :
    r.IsPartOf s := by
  have hs : r = s := by
    rw [rest_eq] at h
    split at h
    · exact List.mem_singleton.mp h
    · split at h
      · cases h
      · split at h <;> exact List.mem_singleton.mp h
  exact hs ▸ .refl s

/-- What stands in front of the other segments is a part, and so are these. -/
theorem isPartOf_of_mem_push {d : Division} {r : Slice} {n : Nat}
    (ih : r ∈ d.slices → r.IsPartOf (s.drop n)) (h : r ∈ (push (s.take n) d).slices) :
    r.IsPartOf s := by
  rcases mem_slices_push h with rfl | h
  · exact Slice.isPartOf_take s n
  · exact (ih h).trans (Slice.isPartOf_drop s n)

theorem isPartOf_of_mem_divideFrom {r : Slice}
    (h : r ∈ (divideFrom strict s size depth inDo ts).slices) : r.IsPartOf s := by
  fun_induction divideFrom strict s size depth inDo ts with
  | case1 => exact isPartOf_of_mem_rest h
  | case3 s size _ t ts _ _ _ _ _ ih =>
    rcases List.mem_cons.mp h with rfl | h
    · exact Slice.isPartOf_take s _
    · exact (ih h).trans (Slice.isPartOf_drop s _)
  | case4 _ _ _ _ _ _ _ _ _ _ ih => exact isPartOf_of_mem_push ih h
  | case7 _ _ _ _ _ _ _ _ _ _ _ _ _ _ ih => exact isPartOf_of_mem_push ih h
  | case9 _ _ _ _ _ _ _ _ _ _ ih => exact isPartOf_of_mem_push ih h
  | case2 _ _ _ _ _ _ _ _ ih => exact ih h
  | case5 _ _ _ _ _ _ _ _ _ _ _ _ _ ih => exact ih h
  | case6 _ _ _ _ _ _ _ _ _ _ _ _ _ _ ih => exact ih h
  | case8 _ _ _ _ _ _ _ _ _ _ _ ih => exact ih h
  | case10 _ _ _ _ _ _ _ _ _ _ ih => exact ih h

end Segment

namespace Sentence

open Segment

def slices : Sentence → List Slice
  | chain ss => ss
  | orphan s | plain s | broken s _ => [s]

/-- The clauses that continue a conditional are the first slices behind it. -/
theorem isPrefix_clauses (ss : List Slice) : clauses ss <+: ss := by
  obtain ⟨rest, hrest⟩ := List.takeWhile_prefix (l := ss) (Slice.startsWith · .otherwiseIf)
  unfold clauses
  generalize ss.takeWhile (·.startsWith .otherwiseIf) = further at hrest
  subst hrest
  simp only [List.drop_left]
  cases rest with
  | nil => exact List.prefix_append _ _
  | cons s rest =>
    simp only
    split
    · exact ⟨rest, by simp⟩
    · exact List.prefix_append _ _

theorem clauses_append_drop (ss : List Slice) : clauses ss ++ ss.drop (clauses ss).length = ss :=
  (List.prefix_iff_eq_append.mp (isPrefix_clauses ss))

/-- The sentences take up all slices, in order. -/
theorem flatMap_ofSlices {n : Nat} {ss : List Slice} (h : ss.length ≤ n) :
    (ofSlices n ss).flatMap slices = ss := by
  induction n generalizing ss with
  | zero =>
    rw [List.eq_nil_of_length_eq_zero (Nat.le_zero.mp h)]
    rfl
  | succ n ih =>
    cases ss with
    | nil => rfl
    | cons s rest =>
      -- A chain takes up its clauses, any other sentence one slice.
      have hrest : rest.length ≤ n := Nat.le_of_succ_le_succ h
      rw [ofSlices]
      split
      · have hdrop : (rest.drop (clauses rest).length).length ≤ n :=
          Nat.le_trans (by rw [List.length_drop]; omega) hrest
        rw [List.flatMap_cons, ih hdrop, slices, List.cons_append, clauses_append_drop]
      · split
        · rw [List.flatMap_cons, ih hrest]
          rfl
        · rw [List.flatMap_cons, ih hrest]
          rfl

theorem flatMap_ofSegments (run : List Slice) (segments : List Segment) :
    (ofSegments run segments).flatMap slices = run ++ segments.map Segment.slice := by
  induction segments generalizing run with
  | nil => rw [ofSegments, flatMap_ofSlices (Nat.le_refl _), List.map_nil, List.append_nil]
  | cons segment segments ih =>
    cases segment with
    | statement s =>
      rw [ofSegments, ih, List.append_assoc]
      rfl
    | broken s p =>
      rw [ofSegments, List.flatMap_append, flatMap_ofSlices (Nat.le_refl _), List.flatMap_cons, ih]
      rfl

def ofBlock (strict : Bool) (s : Slice) : List Sentence :=
  ofSegments [] (divide strict s).segments

/-- The slices of its sentences are all tokens of a block but some `.` -/
theorem tiled_ofBlock (strict : Bool) (s : Slice) :
    TiledFrom s.start ((ofBlock strict s).flatMap slices) s.tokens := by
  rw [ofBlock, flatMap_ofSegments, List.nil_append]
  exact tiled_divide strict s

theorem isPartOf_of_mem_ofBlock {strict : Bool} {s r : Slice} {x : Sentence}
    (hx : x ∈ ofBlock strict s) (hr : r ∈ x.slices) : r.IsPartOf s := by
  have hmem : r ∈ (ofBlock strict s).flatMap slices := List.mem_flatMap.mpr ⟨x, hx, hr⟩
  rw [ofBlock, flatMap_ofSegments, List.nil_append, divide_eq] at hmem
  exact isPartOf_of_mem_divideFrom hmem

end Sentence

end Prose

/-! The single moves of a division. At each token it passes on, cuts behind the token, or finds a
closer without an opener; which of the three depends on the keywords of this token and the next. -/
namespace Prose.Segment

/-- What a division does at a token: it passes over this one and `extra` more, it ends a segment
behind the token, or it ends a broken one there. -/
inductive Move where
  | pass (extra depth : Nat) (inDo : Bool)
  | cut
  | stray

/-- The move at a token with the keyword `k` in front of one with the keyword `next`, where `depth`
openers are open. -/
def move (inDo : Bool) (depth : Nat) (k : Keyword) (next : Option Keyword) : Move :=
  if k.isOpener then .pass 0 (depth + 1) inDo
  else if k.isCloser then
    if depth = 0 then .stray
    else if depth = 1 ∧ k = .blockEnd then
      match next with
      | none => .cut
      | some u =>
        if inDo && (u == .whileWord || u == .untilWord) then .pass 1 0 false
        else if continuesStatement u then .pass 0 0 inDo
        else .cut
    else .pass 0 (depth - 1) inDo
  else if k = .endOfStatement ∧ depth = 0 then .cut
  else .pass 0 depth inDo

def next (ts : List Token) : Option Keyword :=
  ts.head?.map (·.keyword)

variable {strict : Bool} {s : Slice} {size depth : Nat} {inDo : Bool} {t : Token} {ts : List Token}

def strayed (s : Slice) (t : Token) (d : Division) : Division :=
  { d with segments := broken s (problem (.neverOpened t.text) [t]) :: d.segments }

/-- Induction on the tokens that are left, any number of which a move may pass. -/
theorem drop_induction {motive : List Token → Prop} (nil : motive [])
    (cons : ∀ t ts, (∀ i, motive (ts.drop i)) → motive (t :: ts)) (ts : List Token) : motive ts := by
  induction hn : ts.length using Nat.strongRecOn generalizing ts with
  | ind n ih =>
    cases ts with
    | nil => exact nil
    | cons t ts =>
      apply cons
      intro i
      refine ih _ ?_ (ts.drop i) rfl
      rw [← hn, List.length_drop, List.length_cons]
      omega

/-- A division goes on from move to move. -/
theorem divideFrom_cons :
    divideFrom strict s size depth inDo (t :: ts) =
      match move (if size = 0 then t.keyword == .doWord else inDo) depth t.keyword (next ts) with
      | .pass extra depth inDo =>
        divideFrom strict s (size + 1 + extra) depth inDo (ts.drop extra)
      | .cut => push (s.take (size + 1)) (divideFrom strict (s.drop (size + 1)) 0 0 false ts)
      | .stray =>
        strayed (s.take (size + 1)) t (divideFrom strict (s.drop (size + 1)) 0 0 false ts) := by
  -- Whether the segment begins with `do` is settled at its first token.
  generalize hdo : (if size = 0 then t.keyword == .doWord else inDo) = inDo'
  rw [divideFrom.eq_def, move.eq_def]
  simp only [hdo]
  split
  · rfl
  · split
    · split
      · rw [divideFrom_start]
        rfl
      · split
        · cases ts with
          | nil =>
          simp only [next, List.head?_nil, Option.map_none]
          rw [divideFrom_start]
          | cons u us =>
            simp only [next, List.head?_cons, Option.map_some]
            split
            · rfl
            · split
              · rfl
              · rw [divideFrom_start]
        · rfl
    · split
      · rw [divideFrom_start]
      · rfl

end Prose.Segment
