import Prose.Problem
import Prose.Slice

/-! Segments: the statements of a block, and what is left of statements whose brackets do not match.
Sentences: the segments with the clauses of each conditional taken together. -/
namespace Prose

inductive Segment where
  | statement (s : Slice)
  | broken (s : Slice) (p : Problem)
  deriving DecidableEq

namespace Segment

def slice : Segment → Slice
  | statement s | broken s _ => s

def isStatement : Segment → Bool
  | statement _ => true
  | broken .. => false

/-- The segments of a block, and where the last one begins if it is a statement without its closing
`.`, about which the options decide. -/
structure Division where
  segments : List Segment
  openEnd : Option Position
  deriving DecidableEq

def problem (fault : StructureFault) (tokens : List Token) : Problem :=
  { cause := .blocks fault, origin := "split_block", tokens }

/-- A statement in front of other segments, unless it is nothing but `.` -/
def push (s : Slice) (d : Division) : Division :=
  if s.isOnlyTerminators then d else { d with segments := statement s :: d.segments }

def rest (strict : Bool) (s : Slice) (depth : Nat) : Division :=
  if 0 < depth then
    ⟨[broken s ((problem .neverClosed s.tokens).withHelp "close it with `\x7d` or `fin`")], none⟩
  else if h : s.isOnlyTerminators then ⟨[], none⟩
  else if strict then ⟨[broken s (problem .withoutTerminator s.tokens)], none⟩
  else ⟨[statement s], some (s.place (Slice.length_pos_of_not_isOnlyTerminators h))⟩

def continuesStatement : Keyword → Bool
  | .otherwiseIf | .otherwise | .catchWord | .finallyWord => true
  | _ => false

theorem add_length_of_cons {size n : Nat} {t : Token} {ts : List Token}
    (h : size + (t :: ts).length = n) : size + 1 + ts.length = n := by
  rw [← h, List.length_cons, Nat.add_right_comm, Nat.add_assoc]

/-- Divides what is left of a block. `s` begins with the segment being read, `size` tokens of which
have been read with `depth` openers open; `inDo` says that a `while` or `until` may follow its
block. A block end at depth zero ends the statement unless the next token goes on with it, and so
does a `.` at depth zero. A closer without an opener ends a broken segment. -/
def divideRest (strict : Bool) (s : Slice) (size depth : Nat) (inDo : Bool) :
    (ts : List Token) → size + ts.length = s.length → Division
  | [], _ => rest strict s depth
  | t :: ts, h =>
    have hlength : size + 1 + ts.length = s.length := add_length_of_cons h
    have hsize : size + 1 ≤ s.length := Nat.le.intro hlength
    have hbehind : 0 + ts.length = (s.onward (size + 1) hsize).length := by
      rw [Slice.length_onward, ← hlength, Nat.add_sub_cancel_left, Nat.zero_add]
    let inDo := if size = 0 then t.keyword == .doWord else inDo
    if t.keyword.isOpener then divideRest strict s (size + 1) (depth + 1) inDo ts hlength
    else if t.keyword.isCloser then
      if depth = 0 then
        let d := divideRest strict (s.onward (size + 1) hsize) 0 0 inDo ts hbehind
        let p := problem (.neverOpened t.text) [t]
        { d with segments := broken (s.upTo (size + 1) hsize) p :: d.segments }
      else if depth = 1 ∧ t.keyword = .blockEnd then
        match ts with
        | [] =>
          push (s.upTo (size + 1) hsize)
            (divideRest strict (s.onward (size + 1) hsize) 0 0 inDo [] hbehind)
        | u :: us =>
          if inDo && (u.keyword == .whileWord || u.keyword == .untilWord) then
            divideRest strict s (size + 2) 0 false us (add_length_of_cons hlength)
          else if continuesStatement u.keyword then
            divideRest strict s (size + 1) 0 inDo (u :: us) hlength
          else
            push (s.upTo (size + 1) hsize)
              (divideRest strict (s.onward (size + 1) hsize) 0 0 inDo (u :: us) hbehind)
      else divideRest strict s (size + 1) (depth - 1) inDo ts hlength
    else if t.keyword = .endOfStatement ∧ depth = 0 then
      push (s.upTo (size + 1) hsize)
        (divideRest strict (s.onward (size + 1) hsize) 0 0 inDo ts hbehind)
    else divideRest strict s (size + 1) depth inDo ts hlength

def divide (strict : Bool) (s : Slice) : Division :=
  divideRest strict s 0 0 false s.tokens (Nat.zero_add _)

end Segment

/-- A unit of a block that is read on its own: the slices of a conditional, a clause that no `if`
precedes, any other statement, or a broken segment. -/
inductive Sentence where
  | chain (slices : List Slice)
  | orphan (s : Slice)
  | plain (s : Slice)
  | broken (s : Slice) (p : Problem)
  deriving DecidableEq

namespace Sentence

/-- The slices that continue the conditional begun before them: any number that begin with
`otherwise if`, then one that begins with `otherwise`. -/
def clauses (slices : List Slice) : List Slice :=
  let further := slices.takeWhile (·.startsWith .otherwiseIf)
  match slices.drop further.length with
  | s :: _ => if s.startsWith .otherwise then further ++ [s] else further
  | [] => further

def chainAt (slices : List Slice) (start : Nat) : Option (List Slice × Nat) :=
  match slices.drop start with
  | [] => none
  | first :: rest => some (first :: clauses rest, (clauses rest).length + 1)

def ofSlices : Nat → List Slice → List Sentence
  | 0, _ => []
  | _ + 1, [] => []
  | n + 1, s :: rest =>
    if s.startsWith .ifWord then
      chain (s :: clauses rest) :: ofSlices n (rest.drop (clauses rest).length)
    else if s.startsWith .otherwiseIf || s.startsWith .otherwise then orphan s :: ofSlices n rest
    else plain s :: ofSlices n rest

/-- The sentences of some segments behind the slices `run`. No conditional reaches across a broken
segment. -/
def ofSegments (run : List Slice) : List Segment → List Sentence
  | [] => ofSlices run.length run
  | .statement s :: rest => ofSegments (run ++ [s]) rest
  | .broken s p :: rest => ofSlices run.length run ++ broken s p :: ofSegments [] rest

end Sentence

end Prose
