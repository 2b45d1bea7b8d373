import Prose.Proofs.Block.Composition
import Prose.Proofs.Segment.Course

namespace Prose

namespace Segment

/-- Tokens that are a statement: one of them is no `.`, their brackets match, and none but the last
is a `.` outside of brackets. -/
structure IsWhole (ts : List Token) : Prop where
  speaks : ∃ t ∈ ts, t.keyword ≠ .endOfStatement
  balanced : Balanced ts
  dot_last : ∀ us t vs, ts = us ++ t :: vs → bracketDepth us = 0 → t.keyword = .endOfStatement →
    vs = []

/-- Tokens whose statement has not come to its end: none of them is a `.` outside of brackets, and
the last is no block end either. -/
structure IsUnterminated (ts : List Token) : Prop where
  no_dot : ∀ us t vs, ts = us ++ t :: vs → bracketDepth us = 0 → t.keyword ≠ .endOfStatement
  not_endsBody : ¬EndsBody ts

/-- What the segments of a block are. With `strict` a last statement without its closing `.` is
broken as well. -/
structure AreSegmentsOf (strict : Bool) (s : Slice) (segments : List Segment) : Prop where
  tiled : TiledFrom s.start (segments.map slice) s.tokens
  whole : ∀ r, statement r ∈ segments → IsWhole r.tokens
  faulty : ∀ r p, broken r p ∈ segments → ¬Balanced r.tokens ∨
    strict = true ∧ segments.getLast? = some (broken r p) ∧ IsUnterminated r.tokens
  unbalanced : strict = false → ((∃ r p, broken r p ∈ segments) ↔ ¬Balanced s.tokens)

variable {strict : Bool} {s r : Slice} {later : List Token} {e : Ending} {d : Division}
  {segments : List Segment}

section endings

/-- The brackets of a segment match only if it is cut or ends openly where none is open. -/
theorem EndsBy.balanced_iff (h : EndsBy r later e) : Balanced r.tokens ↔ e.Balances [] := by
  have halone := h.alone.balancedFrom_iff
  rwa [List.append_nil] at halone

theorem EndsBy.balanced_of_cut (h : EndsBy r later .cut) : Balanced r.tokens :=
  h.balanced_iff.mpr (balancedFrom_nil.mpr rfl)

theorem EndsBy.isWhole (h : EndsBy r later e) (hbalanced : Balanced r.tokens)
    (hdots : r.isOnlyTerminators = false) : IsWhole r.tokens := by
  refine ⟨?_, hbalanced, fun us t vs hr hdepth ht => ?_⟩
  · by_contra hnone
    have honly : r.isOnlyTerminators = true :=
      Slice.isOnlyTerminators_iff.mpr fun t ht => by
        by_contra hdot
        exact hnone ⟨t, ht, hdot⟩
    rw [hdots] at honly
    cases honly
  · rw [← Int.zero_add (bracketDepth us)] at hdepth
    exact (h.eq_of_dot hr ht hdepth).2

theorem EndsBy.isUnterminated (h : EndsBy r later (.openEnd 0)) : IsUnterminated r.tokens := by
  refine ⟨fun us t vs hr hdepth ht => ?_, h.not_endsBody⟩
  rw [← Int.zero_add (bracketDepth us)] at hdepth
  cases (h.eq_of_dot hr ht hdepth).1

end endings

section steps

theorem areSegmentsOf_nil (hdots : ∀ t ∈ s.tokens, t.keyword = .endOfStatement)
    (hbalanced : Balanced s.tokens) : AreSegmentsOf strict s [] := by
  refine ⟨?_, nofun, nofun, ?_⟩
  · have htiled := TiledFrom.dots (i := s.start) hdots .nil
    rwa [List.append_nil] at htiled
  · intro _
    exact iff_of_false (fun ⟨r, p, hr⟩ => by cases hr) (not_not_intro hbalanced)

/-- A block that is one statement. -/
theorem areSegmentsOf_statement (h : IsWhole s.tokens) :
    AreSegmentsOf strict s [statement s] := by
  refine ⟨.singleton s, ?_, ?_, ?_⟩
  · intro r hr
    obtain rfl := statement.inj (List.mem_singleton.mp hr)
    exact h
  · intro r p hr
    cases List.mem_singleton.mp hr
  · intro _
    apply iff_of_false _ (not_not_intro h.balanced)
    rintro ⟨r, p, hr⟩
    cases List.mem_singleton.mp hr

/-- A block that is one broken segment. -/
theorem areSegmentsOf_broken (p : Problem)
    (h : ¬Balanced s.tokens ∨ strict = true ∧ IsUnterminated s.tokens) :
    AreSegmentsOf strict s [broken s p] := by
  refine ⟨.singleton s, ?_, ?_, ?_⟩
  · intro r hr
    cases List.mem_singleton.mp hr
  · intro r q hr
    obtain ⟨rfl, rfl⟩ := broken.inj (List.mem_singleton.mp hr)
    exact h.imp_right fun ⟨hstrict, hopen⟩ => ⟨hstrict, rfl, hopen⟩
  · intro hlenient
    -- Only brackets that do not match break a segment if the closing `.` is not asked for.
    have hbrackets : ¬Balanced s.tokens := by
      apply h.resolve_right
      rintro ⟨hstrict, -⟩
      exact absurd (hstrict.symm.trans hlenient) (by decide)
    exact iff_of_true ⟨s, p, List.mem_singleton_self _⟩ hbrackets

/-- A segment that has no closer is what the whole block is. -/
theorem areSegmentsOf_rest {depth : Nat} (h : EndsBy s [] (.openEnd depth)) :
    AreSegmentsOf strict s (rest strict s depth).segments := by
  have hbalanced : Balanced s.tokens ↔ depth = 0 := h.balanced_iff
  rw [rest_eq]
  split_ifs with hdepth hdots hstrict
  · apply areSegmentsOf_broken
    rw [hbalanced]
    exact .inl (Nat.ne_of_gt hdepth)
  all_goals obtain rfl : depth = 0 := Nat.eq_zero_of_not_pos hdepth
  · exact areSegmentsOf_nil (Slice.isOnlyTerminators_iff.mp hdots) (hbalanced.mpr rfl)
  · exact areSegmentsOf_broken _ (.inr ⟨hstrict, h.isUnterminated⟩)
  · exact areSegmentsOf_statement (h.isWhole (hbalanced.mpr rfl) (Bool.not_eq_true _ ▸ hdots))

/-- One more segment in front says nothing about which is the last. -/
theorem getLast?_cons_of_eq {x y : Segment} (h : segments.getLast? = some x) :
    (y :: segments).getLast? = some x := by
  rw [List.getLast?_cons, h]
  rfl

/-- Broken segments are what they are to be behind another segment too. -/
theorem AreSegmentsOf.faulty_cons (h : AreSegmentsOf strict s segments) (x : Segment) {q : Slice}
    {p : Problem} (hq : broken q p ∈ segments) :
    ¬Balanced q.tokens ∨
      strict = true ∧ (x :: segments).getLast? = some (broken q p) ∧ IsUnterminated q.tokens := by
  apply (h.faulty q p hq).imp_right
  rintro ⟨hstrict, hlast, hopen⟩
  exact ⟨hstrict, getLast?_cons_of_eq hlast, hopen⟩

/-- A segment that is cut stands in front of others, or nothing does if it is only `.` -/
theorem areSegmentsOf_push (hends : EndsBy r later .cut)
    (h : AreSegmentsOf strict (behind r later) d.segments) :
    AreSegmentsOf strict (extended r later) (push r d).segments := by
  have hr := hends.balanced_of_cut
  have hbalanced : Balanced (extended r later).tokens ↔ Balanced (behind r later).tokens :=
    hr.append_iff
  unfold push
  split_ifs with hdots
  · refine ⟨?_, h.whole, h.faulty, ?_⟩
    · exact .dots (Slice.isOnlyTerminators_iff.mp hdots) h.tiled
    · rw [hbalanced]
      exact h.unbalanced
  · refine ⟨.cons r h.tiled, ?_, ?_, ?_⟩
    · intro q hq
      rcases List.mem_cons.mp hq with heq | hlater
      · obtain rfl := statement.inj heq
        exact hends.isWhole hr (Bool.not_eq_true _ ▸ hdots)
      · exact h.whole q hlater
    · intro q p hq
      rcases List.mem_cons.mp hq with heq | hlater
      · cases heq
      · exact h.faulty_cons _ hlater
    · intro hlenient
      rw [hbalanced, ← h.unbalanced hlenient]
      simp

/-- A segment with a closer too many stands in front of others. -/
theorem areSegmentsOf_strayed {t : Token} (hends : EndsBy r later (.stray t))
    (h : AreSegmentsOf strict (behind r later) d.segments) :
    AreSegmentsOf strict (extended r later) (strayed r t d).segments := by
  have hr : ¬Balanced r.tokens := hends.balanced_iff.mp
  have hall : ¬Balanced (extended r later).tokens := hends.balancedFrom_iff.mp
  refine ⟨.cons r h.tiled, ?_, ?_, ?_⟩
  · intro q hq
    rcases List.mem_cons.mp hq with heq | hlater
    · cases heq
    · exact h.whole q hlater
  · intro q p hq
    rcases List.mem_cons.mp hq with heq | hlater
    · obtain ⟨rfl, rfl⟩ := broken.inj heq
      exact .inl hr
    · exact h.faulty_cons _ hlater
  · intro _
    exact iff_of_true ⟨r, _, List.mem_cons_self ..⟩ hall

/-- The segments of every block are what segments are to be. -/
theorem areSegmentsOf_divide (strict : Bool) (s : Slice) :
    AreSegmentsOf strict s (divide strict s).segments := by
  induction s using segment_induction with
  | openEnd s depth h =>
    rw [h.divide_alone strict]
    exact areSegmentsOf_rest h
  | cut r later h ih =>
    rw [h.divide_eq strict]
    exact areSegmentsOf_push h ih
  | stray r later t h ih =>
    rw [h.divide_eq strict]
    exact areSegmentsOf_strayed h ih

end steps

section stability

/-- What is left at the end of a block is one segment at most. -/
theorem rest_of_mem {x : Segment} {depth : Nat} (h : x ∈ (rest strict s depth).segments) :
    x.slice = s ∧ (rest strict s depth).segments = [x] := by
  rw [rest_eq] at h ⊢
  split_ifs at h ⊢
  · cases List.mem_singleton.mp h
    exact ⟨rfl, rfl⟩
  · cases h
  · cases List.mem_singleton.mp h
    exact ⟨rfl, rfl⟩
  · cases List.mem_singleton.mp h
    exact ⟨rfl, rfl⟩

/-- A statement that is cut would be cut in front of other segments as well. -/
theorem push_of_mem_push {x : Segment} (h : x ∈ (push r d).segments) :
    x ∈ d.segments ∨ x.slice = r ∧ (push r ⟨[], none⟩).segments = [x] := by
  unfold push at h ⊢
  split_ifs at h ⊢
  · exact .inl h
  · rcases List.mem_cons.mp h with rfl | hlater
    · exact .inr ⟨rfl, rfl⟩
    · exact .inl hlater

/-- A segment is divided into itself. -/
theorem divide_slice_of_mem {x : Segment} (hx : x ∈ (divide strict s).segments) :
    (divide strict x.slice).segments = [x] := by
  -- Each segment is the one that its own tokens begin with, and it ends there as it does here.
  induction s using segment_induction with
  | openEnd s depth h =>
    rw [h.divide_alone strict] at hx
    obtain ⟨rfl, hrest⟩ := rest_of_mem hx
    rw [h.divide_alone strict]
    exact hrest
  | cut r later h ih =>
    rw [h.divide_eq strict] at hx
    rcases push_of_mem_push hx with hlater | ⟨rfl, hpush⟩
    · exact ih hlater
    · rw [h.divide_alone strict]
      exact hpush
  | stray r later t h ih =>
    rw [h.divide_eq strict] at hx
    rcases List.mem_cons.mp hx with rfl | hlater
    · exact congrArg Division.segments (h.divide_alone strict)
    · exact ih hlater

end stability

end Segment

namespace Parse

open Segment

variable {s : Slice} {σ τ : Session}

/-- A block is divided into the same segments in every session with the same option. -/
theorem divide_run_fst (s : Slice) (σ : Session) :
    ((divide s).run σ).1 = (Segment.divide σ.options.requireTerminators s).segments := by
  rw [divide_run]

/-- The segments of a block are all its tokens but some `.`, in order. Every statement is whole; a
broken segment has brackets that do not match, unless the options ask for the closing `.` and it is
the last one without. If they do not ask for it, there is a broken segment exactly if the brackets
of the block do not match. -/
theorem areSegmentsOf_run (s : Slice) (σ : Session) :
    AreSegmentsOf σ.options.requireTerminators s ((divide s).run σ).1 := by
  rw [divide_run_fst]
  exact areSegmentsOf_divide _ s

def brokenBlock : List Token :=
  (Slice.ofSource "do \x7b if $a then print 1 . \x7d while $b . ) . print $c" "t").tokens

example : ((divide (.ofTokens brokenBlock)).run (.start {} 0)).1.map (·.isStatement) =
    [true, false, true] := by
  decide +kernel

/-- A segment is divided into itself, alone and in any other session with the same options. -/
theorem divide_run_slice {x : Segment} (hx : x ∈ ((divide s).run σ).1)
    (hoptions : τ.options = σ.options) : ((divide x.slice).run τ).1 = [x] := by
  rw [divide_run_fst] at hx ⊢
  rw [hoptions]
  exact divide_slice_of_mem hx

/-- The loop keeps the `while` behind its block, and the last statement misses its `.` alone too. -/
theorem divide_run_slice_brokenBlock :
    let σ : Session := .start { requireTerminators := true } 0
    let loop : Segment := .statement ⟨0, brokenBlock.take 12⟩
    let last : Segment := .broken ⟨14, brokenBlock.drop 14⟩
      (Segment.problem .withoutTerminator (brokenBlock.drop 14))
    (loop ∈ ((divide (.ofTokens brokenBlock)).run σ).1 ∧
        ((divide loop.slice).run (σ.log .info "alone")).1 = [loop]) ∧
      (last ∈ ((divide (.ofTokens brokenBlock)).run σ).1 ∧
        ((divide last.slice).run (σ.log .info "alone")).1 = [last]) := by
  intro σ loop last
  have hloop : loop ∈ ((divide (.ofTokens brokenBlock)).run σ).1 := by decide +kernel
  have hlast : last ∈ ((divide (.ofTokens brokenBlock)).run σ).1 := by decide +kernel
  exact ⟨⟨hloop, divide_run_slice hloop rfl⟩, ⟨hlast, divide_run_slice hlast rfl⟩⟩

end Parse
end Prose
