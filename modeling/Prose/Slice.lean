import Prose.Token

/-! Slices: runs of neighbouring tokens of one token stream, which remember where they begin. `take`,
`drop` and `extract` go as far as there are tokens; what a rule must find in a slice it asks for with
a proof that it is there. -/
namespace Prose

/-- Some tokens of a stream, the first of which has the index `start`. -/
structure Slice where
  start : Nat
  tokens : List Token
  deriving DecidableEq, Inhabited

namespace Slice

def ofTokens (tokens : List Token) : Slice :=
  ⟨0, tokens⟩

def length (s : Slice) : Nat :=
  s.tokens.length

def isEmpty (s : Slice) : Bool :=
  s.tokens.isEmpty

def take (s : Slice) (n : Nat) : Slice :=
  ⟨s.start, s.tokens.take n⟩

def drop (s : Slice) (n : Nat) : Slice :=
  ⟨s.start + n, s.tokens.drop n⟩

def extract (s : Slice) (i j : Nat) : Slice :=
  (s.take j).drop i

def head? (s : Slice) : Option Token :=
  s.tokens.head?

def position (s : Slice) : Position :=
  (s.tokens.head?.map (·.position)).getD .unknown

def render (s : Slice) : String :=
  Token.render s.tokens

def startsWith (s : Slice) (k : Keyword) : Bool :=
  s.tokens.head?.any (·.keyword == k)

section length

variable (s : Slice) {k : Keyword}

@[simp, grind =] theorem length_take (n : Nat) : (s.take n).length = min n s.length := by
  simp [take, length]

@[simp, grind =] theorem length_drop (n : Nat) : (s.drop n).length = s.length - n := by
  simp [drop, length]

@[simp, grind =] theorem length_extract (i j : Nat) :
    (s.extract i j).length = min j s.length - i := by
  simp [extract]

theorem isEmpty_iff : s.isEmpty = true ↔ s.length = 0 := by
  simp [isEmpty, length]

theorem length_pos_of_not_isEmpty (h : ¬s.isEmpty = true) : 0 < s.length :=
  Nat.pos_of_ne_zero fun hlength => h (s.isEmpty_iff.mpr hlength)

theorem length_pos_of_take {n : Nat} (h : (s.take n).length = 1) : 0 < s.length := by
  rw [length_take] at h
  exact Nat.lt_of_lt_of_le (h ▸ Nat.zero_lt_one) (Nat.min_le_right ..)

theorem length_pos_of_startsWith (h : s.startsWith k = true) : 0 < s.length := by
  obtain ⟨a, _ | ⟨t, ts⟩⟩ := s
  · cases h
  · exact Nat.succ_pos _

end length

-- Below, an access comes with the proof that what it asks for is there.

def upTo (s : Slice) (n : Nat) (_ : n ≤ s.length) : Slice :=
  s.take n

def onward (s : Slice) (i : Nat) (_ : i ≤ s.length) : Slice :=
  s.drop i

def between (s : Slice) (i j : Nat) (_ : i ≤ j ∧ j ≤ s.length) : Slice :=
  s.extract i j

def lead (s : Slice) (h : 0 < s.length) : Token :=
  s.tokens.get ⟨0, h⟩

def place (s : Slice) (h : 0 < s.length) : Position :=
  (s.lead h).position

section access

variable (s : Slice) {i j n : Nat}

@[simp] theorem upTo_eq_take (h : n ≤ s.length) : s.upTo n h = s.take n := rfl

@[simp] theorem onward_eq_drop (h : i ≤ s.length) : s.onward i h = s.drop i := rfl

@[simp] theorem between_eq_extract (h : i ≤ j ∧ j ≤ s.length) :
    s.between i j h = s.extract i j := rfl

theorem length_onward (h : i ≤ s.length) : (s.onward i h).length = s.length - i := by
  rw [onward, length_drop]

theorem head?_eq_lead (h : 0 < s.length) : s.head? = some (s.lead h) := by
  rw [head?, lead, List.head?_eq_getElem?]
  exact List.getElem?_eq_getElem h

theorem place_eq (h : 0 < s.length) : s.place h = s.position := by
  have hhead := s.head?_eq_lead h
  rw [head?] at hhead
  rw [place, position, hhead]
  rfl

end access

/-- The slice without one closing `.`, if it ends in one. -/
def withoutTerminator (s : Slice) : Slice :=
  if s.tokens.getLast?.any (·.keyword == .endOfStatement) then s.take (s.length - 1) else s

theorem length_pos_of_withoutTerminator {s : Slice} (h : 0 < s.withoutTerminator.length) :
    0 < s.length := by
  rw [withoutTerminator] at h
  split at h
  · rw [length_take] at h
    exact Nat.lt_of_lt_of_le h (Nat.min_le_right ..)
  · exact h

theorem length_pos_of_trimmed_startsWith {s : Slice} {k : Keyword}
    (h : s.withoutTerminator.startsWith k = true) : 0 < s.length :=
  length_pos_of_withoutTerminator (s.withoutTerminator.length_pos_of_startsWith h)

def isOnlyTerminators (s : Slice) : Bool :=
  s.tokens.all (·.keyword == .endOfStatement)

theorem length_pos_of_not_isOnlyTerminators {s : Slice} (h : ¬s.isOnlyTerminators = true) :
    0 < s.length := by
  obtain ⟨a, _ | ⟨t, ts⟩⟩ := s
  · exact absurd rfl h
  · exact Nat.succ_pos _

end Slice

end Prose
