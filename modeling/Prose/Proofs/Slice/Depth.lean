import Prose.Slice.Depth
import Prose.Proofs.Slice.Part

namespace Prose

/-- Which keywords a search shows does not depend on where it begins to count. -/
theorem map_snd_depthZero (depth : Int) (i j : Nat) (ts : List Token) :
    (depthZero depth i ts).map (·.2) = (depthZero depth j ts).map (·.2) := by
  induction ts generalizing depth i j with
  | nil => rfl
  | cons t ts ih =>
    obtain hstep | ⟨d, hstep | ⟨-, hstep⟩⟩ := depthZero_cons depth t
    · rw [hstep, hstep]
    · rw [hstep, hstep]
      exact ih d (i + 1) (j + 1)
    · rw [hstep, hstep, List.map_cons, List.map_cons, ih d (i + 1) (j + 1)]

/-- A search shows keywords of the tokens. -/
theorem mem_of_mem_depthZero {depth : Int} {i : Nat} {ts : List Token} {k : Keyword}
    (h : k ∈ (depthZero depth i ts).map (·.2)) : ∃ t ∈ ts, t.keyword = k := by
  obtain ⟨⟨j, k'⟩, hmem, rfl⟩ := List.mem_map.mp h
  obtain ⟨t, ht, hk⟩ := Option.map_eq_some_iff.mp (getElem?_of_mem_depthZero hmem).2
  exact ⟨t, List.mem_of_getElem? ht, hk⟩

namespace Slice

variable {s : Slice} {k : Keyword} {i j : Nat}

theorem getElem?_of_mem_allOf (h : j ∈ s.allOf k) :
    (s.tokens[j]?).map (·.keyword) = some k := by
  simp only [allOf, List.mem_map, List.mem_filter] at h
  obtain ⟨⟨j', k'⟩, ⟨hmem, hk⟩, rfl⟩ := h
  have hkk : k' = k := by simpa using hk
  rw [← hkk]
  exact (getElem?_of_mem_depthZero hmem).2

theorem mem_allOf_iff : j ∈ s.allOf k ↔ (j, k) ∈ depthZero 0 0 s.tokens := by
  constructor
  · exact mem_depthZero_of_mem_allOf
  · intro h
    exact List.mem_map.mpr ⟨(j, k), List.mem_filter.mpr ⟨h, by simp⟩, rfl⟩

theorem le_of_getLast?_allOf (h : (s.allOf k).getLast? = some j) (hi : i ∈ s.allOf k) : i ≤ j := by
  have hordered := s.pairwise_allOf k
  obtain ⟨is, his⟩ := List.getLast?_eq_some_iff.mp h
  rw [his] at hi hordered
  rcases List.mem_append.mp hi with hi | hi
  · exact Nat.le_of_lt ((List.pairwise_append.mp hordered).2.2 i hi j (List.mem_singleton_self j))
  · exact Nat.le_of_eq (List.mem_singleton.mp hi)

theorem le_of_first {m : Nat} (h : s.first k i = some j)
    (hm : (m, k) ∈ depthZero 0 i (s.tokens.drop i)) : j ≤ m := by
  have hzero : depthOfCount 0 = 0 := by decide
  rw [first, firstFrom, hzero] at h
  obtain ⟨e, hfind, rfl⟩ := Option.map_eq_some_iff.mp h
  obtain ⟨-, before, behind, hentries, hnot⟩ := List.find?_eq_some_iff_append.mp hfind
  have hordered := pairwise_depthZero 0 i (s.tokens.drop i)
  rw [hentries] at hm hordered
  rcases List.mem_append.mp hm with hm | hm
  · have hne := hnot _ hm
    simp at hne
  · rcases List.mem_cons.mp hm with rfl | hm
    · exact Nat.le_refl _
    · have hbehind := (List.pairwise_cons.mp (List.pairwise_append.mp hordered).2.1).1
      exact Nat.le_of_lt (hbehind _ hm)

/-! A search that carries its bounds finds what the search without them finds. -/

section access

variable (s : Slice)

theorem first_eq_map_seek (k : Keyword) (i : Nat) : s.first k i = (s.seek k i).map (·.1) := by
  simp [seek]

theorem first_eq_map_seekBehind (lead k : Keyword) :
    (if s.startsWith lead = true then s.first k 1 else none) =
      (s.seekBehind lead k).map (·.1) := by
  rw [seekBehind, first_eq_map_seek]
  split <;> rfl

/-- A choice by the index behind a leading word, with its bounds and without. -/
theorem match_seekBehind {α : Type} (lead k : Keyword) (a : α) {f : s.Index 1 → α} {g : Nat → α}
    (h : ∀ j, f j = g j.1) :
    (match s.seekBehind lead k with
      | none => a
      | some j => f j) =
      match if s.startsWith lead = true then s.first k 1 else none with
      | none => a
      | some j => g j := by
  rw [first_eq_map_seekBehind]
  cases s.seekBehind lead k with
  | none => rfl
  | some j => exact h j

theorem firstOf_eq_map_seekOf (ks : List Keyword) :
    s.firstOf ks = (s.seekOf ks).map fun e => (e.1.1, e.2) := by
  simp [seekOf, Option.map_pmap]

theorem allOf_eq_map_seekAll (k : Keyword) : s.allOf k = (s.seekAll k).map (·.1) := by
  simp [seekAll]

theorem positionsOf_eq_map_seekAny (ks : List Keyword) :
    s.positionsOf ks = (s.seekAny ks).map (·.1) := by
  simp [seekAny]

theorem matchingClose_eq_map_seekClose (i : Nat) :
    s.matchingClose i = (s.seekClose i).map (·.1) := by
  simp [seekClose]

theorem enclosed_eq_map_inside (opener : Keyword) :
    s.enclosed opener = (s.inside opener).map (·.1) := by
  simp [inside]

theorem enclosed_eq (opener : Keyword) : s.enclosed opener =
    if s.startsWith opener = true then
      match s.matchingClose 0 with
      | some close => if close + 1 = s.length then some (s.extract 1 close) else none
      | none => none
    else none := by
  rw [enclosed, matchingClose_eq_map_seekClose]
  cases s.seekClose 0 <;> rfl

end access

/-- What a pair of brackets encloses lies strictly between the two ends. -/
theorem extract_of_enclosed {inner : Slice} {opener : Keyword}
    (h : s.enclosed opener = some inner) : ∃ j, j + 1 = s.length ∧ inner = s.extract 1 j := by
  rw [enclosed_eq] at h
  split at h
  · split at h
    · split at h
      · exact ⟨_, ‹_›, by simpa using h.symm⟩
      · cases h
    · cases h
  · cases h

def cutAt (s : Slice) (i : Nat) : List Nat → List Slice
  | [] => [s.drop i]
  | j :: js => s.extract i j :: s.cutAt (j + 1) js

theorem pieces_eq_cutAt {js : List Nat} (h : s.AreCuts i js) :
    s.pieces i js h = s.cutAt i js := by
  induction js generalizing i with
  | nil => rfl
  | cons j js ih =>
    rw [pieces, ih, cutAt]
    rfl

theorem split_eq (s : Slice) (k : Keyword) :
    s.split k = if s.isEmpty = true then [] else s.cutAt 0 (s.allOf k) := by
  rw [split, pieces_eq_cutAt]

/-- The pieces of a slice are parts of it. -/
theorem isPartOf_of_mem_cutAt {piece : Slice} {js : List Nat} (h : piece ∈ s.cutAt i js) :
    piece.IsPartOf s := by
  induction js generalizing i with
  | nil =>
    rw [cutAt, List.mem_singleton] at h
    exact h ▸ isPartOf_drop s i
  | cons j js ih =>
    rw [cutAt, List.mem_cons] at h
    rcases h with rfl | h
    · exact isPartOf_extract s i j
    · exact ih h

theorem isPartOf_of_mem_split {piece : Slice} (h : piece ∈ s.split k) : piece.IsPartOf s := by
  rw [split_eq] at h
  split at h
  · cases h
  · exact isPartOf_of_mem_cutAt h

end Slice

end Prose
