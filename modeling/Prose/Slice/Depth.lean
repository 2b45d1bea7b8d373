import Prose.Slice

/-! Search that minds nesting. An opener belongs to the level around it, and so does the closer that
returns there. A closer below the starting level ends the search: nothing behind it is found. Both
kinds of brackets are counted together. An index that a search finds is one of the slice. -/
namespace Prose

/-- The indices and keywords of the tokens at depth zero, when the first token has index `i` and the
depth before it is `depth`. -/
def depthZero (depth : Int) (i : Nat) : List Token → List (Nat × Keyword)
  | [] => []
  | t :: ts =>
    let inner := if t.keyword.isCloser then depth - 1 else depth
    if t.keyword.isCloser && inner < 0 then []
    else
      let rest := depthZero (if t.keyword.isOpener then inner + 1 else inner) (i + 1) ts
      if inner = 0 then (i, t.keyword) :: rest else rest

theorem Keyword.isOpener_eq_false_of_isCloser {k : Keyword} (h : k.isCloser = true) :
    k.isOpener = false := by
  cases k <;> first | rfl | cases h

section cons

variable {t : Token} (depth : Int) (i : Nat) (ts : List Token)

/-- A closer belongs to the level to which it returns. Below the starting level nothing is found. -/
theorem depthZero_closer (h : t.keyword.isCloser = true) :
    depthZero depth i (t :: ts) =
      if depth ≤ 0 then []
      else if depth = 1 then (i, t.keyword) :: depthZero 0 (i + 1) ts
      else depthZero (depth - 1) (i + 1) ts := by
  simp only [depthZero, h, Keyword.isOpener_eq_false_of_isCloser h, if_true, Bool.true_and,
    decide_eq_true_eq, Bool.false_eq_true, if_false]
  by_cases hneg : depth ≤ 0
  · rw [if_pos (show depth - 1 < 0 by omega), if_pos hneg]
  · rw [if_neg (show ¬depth - 1 < 0 by omega), if_neg hneg]
    by_cases hone : depth = 1
    · rw [if_pos (show depth - 1 = 0 by omega), if_pos hone, hone]
      rfl
    · rw [if_neg (show ¬depth - 1 = 0 by omega), if_neg hone]

/-- An opener belongs to the level around it. -/
theorem depthZero_opener (h : t.keyword.isOpener = true) (h' : t.keyword.isCloser = false) :
    depthZero depth i (t :: ts) =
      if depth = 0 then (i, t.keyword) :: depthZero (depth + 1) (i + 1) ts
      else depthZero (depth + 1) (i + 1) ts := by
  simp [depthZero, h, h']

theorem depthZero_plain (h : t.keyword.isOpener = false) (h' : t.keyword.isCloser = false) :
    depthZero depth i (t :: ts) =
      if depth = 0 then (i, t.keyword) :: depthZero depth (i + 1) ts
      else depthZero depth (i + 1) ts := by
  simp [depthZero, h, h']

end cons

/-- A search stops at a token, passes it, or adds its entry and goes on. It goes on at depth zero
behind a flat token of depth zero. -/
theorem depthZero_cons (depth : Int) (t : Token) :
    (∀ i ts, depthZero depth i (t :: ts) = []) ∨
      ∃ d, (∀ i ts, depthZero depth i (t :: ts) = depthZero d (i + 1) ts) ∨
        (t.keyword.isOpener = false → t.keyword.isCloser = false → d = 0) ∧
          ∀ i ts, depthZero depth i (t :: ts) = (i, t.keyword) :: depthZero d (i + 1) ts := by
  by_cases hc : t.keyword.isCloser = true
  · -- By the kind of the token and the depth in front of it.
    by_cases hneg : depth ≤ 0
    · exact .inl fun i ts => by rw [depthZero_closer depth i ts hc, if_pos hneg]
    · by_cases hone : depth = 1
      · refine .inr ⟨0, .inr ⟨fun _ _ => rfl, fun i ts => ?_⟩⟩
        rw [depthZero_closer depth i ts hc, if_neg hneg, if_pos hone]
      · refine .inr ⟨depth - 1, .inl fun i ts => ?_⟩
        rw [depthZero_closer depth i ts hc, if_neg hneg, if_neg hone]
  · rw [Bool.not_eq_true] at hc
    by_cases ho : t.keyword.isOpener = true
    · by_cases hzero : depth = 0
      · refine .inr ⟨depth + 1, .inr ⟨fun h => absurd (h.symm.trans ho) Bool.false_ne_true,
          fun i ts => ?_⟩⟩
        rw [depthZero_opener depth i ts ho hc, if_pos hzero]
      · refine .inr ⟨depth + 1, .inl fun i ts => ?_⟩
        rw [depthZero_opener depth i ts ho hc, if_neg hzero]
    · rw [Bool.not_eq_true] at ho
      by_cases hzero : depth = 0
      · refine .inr ⟨depth, .inr ⟨fun _ _ => hzero, fun i ts => ?_⟩⟩
        rw [depthZero_plain depth i ts ho hc, if_pos hzero]
      · refine .inr ⟨depth, .inl fun i ts => ?_⟩
        rw [depthZero_plain depth i ts ho hc, if_neg hzero]

/-- An index at depth zero is that of a token with the keyword. -/
theorem getElem?_of_mem_depthZero {depth : Int} {i j : Nat} {k : Keyword} {ts : List Token}
    (h : (j, k) ∈ depthZero depth i ts) :
    i ≤ j ∧ (ts[j - i]?).map (·.keyword) = some k := by
  induction ts generalizing depth i with
  | nil => cases h
  | cons t ts ih =>
    have hbehind {d : Int} (hd : (j, k) ∈ depthZero d (i + 1) ts) :
        i ≤ j ∧ ((t :: ts)[j - i]?).map (·.keyword) = some k := by
      obtain ⟨hij, hk⟩ := ih hd
      refine ⟨by omega, ?_⟩
      rwa [show j - i = (j - (i + 1)) + 1 by omega, List.getElem?_cons_succ]
    obtain hstep | ⟨d, hstep | ⟨-, hstep⟩⟩ := depthZero_cons depth t
    · rw [hstep] at h
      cases h
    · rw [hstep] at h
      exact hbehind h
    · rw [hstep] at h
      rcases List.mem_cons.mp h with he | hd
      · cases he
        simp
      · exact hbehind hd

/-- The entries stand in the order of their indices. -/
theorem pairwise_depthZero (depth : Int) (i : Nat) (ts : List Token) :
    (depthZero depth i ts).Pairwise fun e e' => e.1 < e'.1 := by
  induction ts generalizing depth i with
  | nil => exact .nil
  | cons t ts ih =>
    obtain hstep | ⟨d, hstep | ⟨-, hstep⟩⟩ := depthZero_cons depth t
    · rw [hstep]
      exact .nil
    · rw [hstep]
      exact ih d (i + 1)
    · rw [hstep]
      exact .cons (fun e he => (getElem?_of_mem_depthZero he).1) (ih d (i + 1))

namespace Slice

/-- The depth that a count of open regions stands for; counts from `2 ^ 63` on stand for negative
depths, as in words of 64 bits. -/
def depthOfCount (n : Nat) : Int :=
  (n : Int).bmod (Nat.pow 2 64)

/-- The first index from `i` on with the keyword at depth zero, when `depth` regions are open before
index `i`. -/
def firstFrom (s : Slice) (k : Keyword) (i depth : Nat) : Option Nat :=
  ((depthZero (depthOfCount depth) i (s.tokens.drop i)).find? (·.2 == k)).map (·.1)

def first (s : Slice) (k : Keyword) (i : Nat) : Option Nat :=
  s.firstFrom k i 0

def firstOf (s : Slice) (ks : List Keyword) : Option (Nat × Keyword) :=
  (depthZero 0 0 s.tokens).find? fun e => ks.contains e.2

def allOf (s : Slice) (k : Keyword) : List Nat :=
  ((depthZero 0 0 s.tokens).filter (·.2 == k)).map (·.1)

/-- The indices of several keywords at depth zero, in order; a keyword given twice counts twice. -/
def positionsOf (s : Slice) (ks : List Keyword) : List Nat :=
  (depthZero 0 0 s.tokens).flatMap fun e => List.replicate (ks.count e.2) e.1

def matchingClose (s : Slice) (i : Nat) : Option Nat :=
  match s.tokens[i]? with
  | none => none
  | some t =>
    match t.keyword with
    | .blockStart => s.firstFrom .blockEnd (i + 1) 1
    | .openParen => s.firstFrom .closeParen (i + 1) 1
    | _ => none

section bounds

variable {s : Slice} {k : Keyword} {ks : List Keyword} {i j : Nat}

theorem lt_length_of_getElem? {s : Slice} {j : Nat} {k : Keyword}
    (h : (s.tokens[j]?).map (·.keyword) = some k) : j < s.length := by
  by_cases hj : j < s.length
  · exact hj
  · rw [List.getElem?_eq_none (Nat.not_lt.mp hj)] at h
    cases h

theorem lt_length_of_mem_depthZero (h : (j, k) ∈ depthZero 0 0 s.tokens) : j < s.length :=
  lt_length_of_getElem? (getElem?_of_mem_depthZero h).2

theorem getElem?_of_firstFrom {depth : Nat} (h : s.firstFrom k i depth = some j) :
    i ≤ j ∧ (s.tokens[j]?).map (·.keyword) = some k := by
  simp only [firstFrom, Option.map_eq_some_iff] at h
  obtain ⟨⟨j', k'⟩, hfind, rfl⟩ := h
  obtain ⟨hij, hk⟩ := getElem?_of_mem_depthZero (List.mem_of_find?_eq_some hfind)
  have hkk : k' = k := by simpa using List.find?_some hfind
  rw [List.getElem?_drop, Nat.add_sub_cancel' hij, hkk] at hk
  exact ⟨hij, hk⟩

theorem getElem?_of_first (h : s.first k i = some j) :
    i ≤ j ∧ (s.tokens[j]?).map (·.keyword) = some k :=
  getElem?_of_firstFrom h

theorem lt_length_of_first (h : s.first k i = some j) : j < s.length :=
  lt_length_of_getElem? (getElem?_of_first h).2

theorem getElem?_of_firstOf (h : s.firstOf ks = some (j, k)) :
    k ∈ ks ∧ (s.tokens[j]?).map (·.keyword) = some k := by
  have hk := List.find?_some h
  exact ⟨by simpa using hk, (getElem?_of_mem_depthZero (List.mem_of_find?_eq_some h)).2⟩

theorem mem_depthZero_of_mem_allOf (h : j ∈ s.allOf k) : (j, k) ∈ depthZero 0 0 s.tokens := by
  simp only [allOf, List.mem_map, List.mem_filter] at h
  obtain ⟨⟨j', k'⟩, ⟨hmem, hk⟩, rfl⟩ := h
  have hkk : k' = k := by simpa using hk
  exact hkk ▸ hmem

theorem lt_length_of_mem_allOf (h : j ∈ s.allOf k) : j < s.length :=
  lt_length_of_mem_depthZero (mem_depthZero_of_mem_allOf h)

theorem pairwise_allOf (s : Slice) (k : Keyword) : (s.allOf k).Pairwise (· < ·) := by
  unfold allOf
  rw [List.pairwise_map]
  exact (pairwise_depthZero 0 0 s.tokens).filter _

theorem mem_positionsOf_iff :
    j ∈ s.positionsOf ks ↔ ∃ k ∈ ks, (j, k) ∈ depthZero 0 0 s.tokens := by
  simp only [positionsOf, List.mem_flatMap, List.mem_replicate]
  constructor
  · rintro ⟨⟨j', k⟩, hmem, hcount, rfl⟩
    exact ⟨k, List.one_le_count_iff.mp (Nat.one_le_iff_ne_zero.mpr hcount), hmem⟩
  · rintro ⟨k, hk, hmem⟩
    exact ⟨(j, k), hmem, Nat.one_le_iff_ne_zero.mp (List.one_le_count_iff.mpr hk), rfl⟩

theorem lt_length_of_mem_positionsOf (h : j ∈ s.positionsOf ks) : j < s.length := by
  obtain ⟨k, -, hmem⟩ := mem_positionsOf_iff.mp h
  exact lt_length_of_mem_depthZero hmem

theorem bounds_of_matchingClose (h : s.matchingClose i = some j) : i + 1 ≤ j ∧ j < s.length := by
  have hfound {b : Keyword} (h : s.firstFrom b (i + 1) 1 = some j) : i + 1 ≤ j ∧ j < s.length :=
    ⟨(getElem?_of_firstFrom h).1, lt_length_of_getElem? (getElem?_of_firstFrom h).2⟩
  simp only [matchingClose] at h
  split at h
  · cases h
  · split at h
    · exact hfound h
    · exact hfound h
    · cases h

end bounds

/-- An index of the slice, at or behind `i`. -/
abbrev Index (s : Slice) (i : Nat) : Type :=
  { j : Nat // i ≤ j ∧ j < s.length }

namespace Index

variable {s : Slice} {i : Nat}

theorem length_pos (j : s.Index i) : 0 < s.length :=
  Nat.zero_lt_of_lt j.2.2

theorem length_pos_of_withoutTerminator (j : s.withoutTerminator.Index i) : 0 < s.length :=
  Slice.length_pos_of_withoutTerminator j.length_pos

variable (j : s.Index i)

-- The parts of a slice around an index.

def upTo : Slice :=
  s.upTo j.1 (Nat.le_of_lt j.2.2)

def before : Slice :=
  s.between i j.1 ⟨j.2.1, Nat.le_of_lt j.2.2⟩

def onward : Slice :=
  s.onward j.1 (Nat.le_of_lt j.2.2)

def behind : Slice :=
  s.onward (j.1 + 1) j.2.2

/-- The position of the slice. -/
def place : Position :=
  s.place j.length_pos

@[simp] theorem upTo_eq : j.upTo = s.take j.1 := rfl

@[simp] theorem before_eq : j.before = s.extract i j.1 := rfl

@[simp] theorem onward_eq : j.onward = s.drop j.1 := rfl

@[simp] theorem behind_eq : j.behind = s.drop (j.1 + 1) := rfl

@[simp] theorem place_eq : j.place = s.position :=
  s.place_eq _

end Index

def seek (s : Slice) (k : Keyword) (i : Nat) : Option (s.Index i) :=
  (s.first k i).attachWith _ fun _ h => ⟨(getElem?_of_first h).1, lt_length_of_first h⟩

/-- The first index of `k` at depth zero behind a leading word. -/
def seekBehind (s : Slice) (lead k : Keyword) : Option (s.Index 1) :=
  if s.startsWith lead then s.seek k 1 else none

def seekOf (s : Slice) (ks : List Keyword) : Option (s.Index 0 × Keyword) :=
  (s.firstOf ks).pmap (fun e h => (⟨e.1, Nat.zero_le _, h⟩, e.2)) fun _ h =>
    lt_length_of_getElem? (getElem?_of_firstOf h).2

def seekAll (s : Slice) (k : Keyword) : List (s.Index 0) :=
  (s.allOf k).attachWith _ fun _ h => ⟨Nat.zero_le _, lt_length_of_mem_allOf h⟩

def seekAny (s : Slice) (ks : List Keyword) : List (s.Index 0) :=
  (s.positionsOf ks).attachWith _ fun _ h => ⟨Nat.zero_le _, lt_length_of_mem_positionsOf h⟩

def seekClose (s : Slice) (i : Nat) : Option (s.Index (i + 1)) :=
  (s.matchingClose i).attachWith _ fun _ h => bounds_of_matchingClose h

/-- The indices stand in the slice one behind the other, from `i` on. -/
def AreCuts (s : Slice) : Nat → List Nat → Prop
  | i, [] => i ≤ s.length
  | i, j :: js => i ≤ j ∧ j < s.length ∧ s.AreCuts (j + 1) js

namespace AreCuts

variable {s : Slice} {i j : Nat} {js : List Nat}

theorem first (h : s.AreCuts i (j :: js)) : i ≤ j ∧ j ≤ s.length :=
  ⟨h.1, Nat.le_of_lt h.2.1⟩

theorem first_succ (h : s.AreCuts i (j :: js)) : i ≤ j + 1 ∧ j + 1 ≤ s.length :=
  ⟨Nat.le_succ_of_le h.1, h.2.1⟩

theorem behind (h : s.AreCuts i (j :: js)) : s.AreCuts (j + 1) js :=
  h.2.2

theorem without (h : s.AreCuts i (j :: js)) : s.AreCuts i js := by
  have hij : i ≤ j + 1 := h.first_succ.1
  cases js with
  | nil => exact Nat.le_trans hij h.behind
  | cons j' js => exact ⟨Nat.le_trans hij h.behind.1, h.behind.2⟩

end AreCuts

theorem areCuts_of_pairwise {s : Slice} {i : Nat} {js : List Nat} (hi : i ≤ s.length)
    (hjs : ∀ j ∈ js, i ≤ j ∧ j < s.length) (hordered : js.Pairwise (· < ·)) : s.AreCuts i js := by
  induction js generalizing i with
  | nil => exact hi
  | cons j js ih =>
    obtain ⟨hij, hj⟩ := hjs j (List.mem_cons_self ..)
    obtain ⟨hlater, hordered⟩ := List.pairwise_cons.mp hordered
    exact ⟨hij, hj, ih hj (fun j' hj' => ⟨hlater j' hj', (hjs j' (List.mem_cons_of_mem _ hj')).2⟩)
      hordered⟩

theorem areCuts_allOf (s : Slice) (k : Keyword) : s.AreCuts 0 (s.allOf k) :=
  areCuts_of_pairwise (Nat.zero_le _) (fun _ h => ⟨Nat.zero_le _, lt_length_of_mem_allOf h⟩)
    (s.pairwise_allOf k)

def pieces (s : Slice) (i : Nat) : (js : List Nat) → s.AreCuts i js → List Slice
  | [], h => [s.onward i h]
  | j :: js, h => s.between i j h.first :: s.pieces (j + 1) js h.behind

/-- The pieces between the tokens with the keyword at depth zero; no pieces of an empty slice. -/
def split (s : Slice) (k : Keyword) : List Slice :=
  if s.isEmpty then [] else s.pieces 0 (s.allOf k) (s.areCuts_allOf k)

def enclosed (s : Slice) (opener : Keyword) : Option Slice :=
  if s.startsWith opener then
    match s.seekClose 0 with
    | some close => if close.1 + 1 = s.length then some close.before else none
    | none => none
  else none

theorem length_of_enclosed {s inner : Slice} {opener : Keyword}
    (h : s.enclosed opener = some inner) : inner.length + 2 = s.length := by
  simp only [enclosed] at h
  split at h
  · split at h
    · rename_i close _
      split at h
      · rename_i hclose
        cases h
        simp only [Index.before_eq, length_extract, Nat.min_eq_left (Nat.le_of_lt close.2.2)]
        have hone := close.2.1
        omega
      · cases h
    · cases h
  · cases h

def inside (s : Slice) (opener : Keyword) : Option { inner : Slice // inner.length + 2 = s.length } :=
  (s.enclosed opener).attachWith _ fun _ h => length_of_enclosed h

theorem length_pos_of_inside {s inner : Slice} (h : inner.length + 2 = s.length) : 0 < s.length :=
  h ▸ Nat.succ_pos _

end Slice

end Prose
