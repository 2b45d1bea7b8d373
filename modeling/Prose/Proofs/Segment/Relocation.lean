import Prose.Proofs.Segment.Partition
import Prose.Proofs.Slice.Relocation

namespace Prose

def Segment.relocated (ρ : Relocation) : Segment → Segment
  | statement s => statement (relocate ρ s)
  | broken s p => broken (relocate ρ s) (relocate ρ p)

instance : Relocates Segment := ⟨Segment.relocated⟩

instance : Relocates Segment.Division := ⟨fun ρ d => ⟨relocate ρ d.segments, d.openEnd.map ρ.place⟩⟩

def Sentence.relocated (ρ : Relocation) : Sentence → Sentence
  | chain slices => chain (relocate ρ slices)
  | orphan s => orphan (relocate ρ s)
  | plain s => plain (relocate ρ s)
  | broken s p => broken (relocate ρ s) (relocate ρ p)

instance : Relocates Sentence := ⟨Sentence.relocated⟩

variable (ρ : Relocation)

namespace Segment

variable {strict inDo : Bool} {s : Slice} {size depth : Nat} {ts : List Token}

@[simp] theorem relocate_statement : relocate ρ (statement s) = statement (relocate ρ s) := rfl

@[simp] theorem relocate_broken (p : Problem) :
    relocate ρ (broken s p) = broken (relocate ρ s) (relocate ρ p) := rfl

@[simp] theorem slice_relocate (x : Segment) : (relocate ρ x).slice = relocate ρ x.slice := by
  cases x <;> rfl

@[simp] theorem relocate_division (segments : List Segment) (openEnd : Option Position) :
    relocate ρ (⟨segments, openEnd⟩ : Division) = ⟨relocate ρ segments, openEnd.map ρ.place⟩ := rfl

theorem push_relocate (d : Division) : push (relocate ρ s) (relocate ρ d) = relocate ρ (push s d) := by
  simp only [push, Slice.isOnlyTerminators_relocate]
  split <;> rfl

theorem rest_relocate : rest strict (relocate ρ s) depth = relocate ρ (rest strict s depth) := by
  simp only [rest_eq, Slice.isOnlyTerminators_relocate, Slice.position_relocate]
  split
  · rfl
  · split
    · rfl
    · split <;> rfl

theorem strayed_relocate (t : Token) (d : Division) :
    strayed (relocate ρ s) (relocate ρ t) (relocate ρ d) = relocate ρ (strayed s t d) := rfl

theorem next_relocate : next (relocate ρ ts) = next ts := by
  cases ts <;> rfl

/-- Where a segment ends depends on the keywords alone. -/
theorem divideFrom_relocate :
    divideFrom strict (relocate ρ s) size depth inDo (relocate ρ ts) =
      relocate ρ (divideFrom strict s size depth inDo ts) := by
  induction ts using drop_induction generalizing s size depth inDo with
  | nil => exact rest_relocate ρ
  | cons t ts ih =>
    have hdrop (i : Nat) : (relocate ρ ts).drop i = relocate ρ (ts.drop i) := (List.map_drop ..).symm
    have hrest (s : Slice) : divideFrom strict (relocate ρ s) 0 0 false (relocate ρ ts) =
        relocate ρ (divideFrom strict s 0 0 false ts) := ih 0
    rw [relocate_cons, divideFrom_cons, divideFrom_cons, Token.keyword_relocate, next_relocate]
    split
    · rw [hdrop]
      exact ih _
    · rw [Slice.take_relocate, Slice.drop_relocate, hrest, push_relocate]
    · rw [Slice.take_relocate, Slice.drop_relocate, hrest, strayed_relocate]

theorem divide_relocate : divide strict (relocate ρ s) = relocate ρ (divide strict s) := by
  rw [divide_eq, divide_eq]
  exact divideFrom_relocate ρ

end Segment

namespace Sentence

variable {n : Nat}

@[simp] theorem relocate_chain (slices : List Slice) :
    relocate ρ (chain slices) = chain (relocate ρ slices) := rfl

@[simp] theorem relocate_orphan (s : Slice) : relocate ρ (orphan s) = orphan (relocate ρ s) := rfl

@[simp] theorem relocate_plain (s : Slice) : relocate ρ (plain s) = plain (relocate ρ s) := rfl

@[simp] theorem relocate_broken (s : Slice) (p : Problem) :
    relocate ρ (broken s p) = broken (relocate ρ s) (relocate ρ p) := rfl

theorem drop_relocate_list (slices : List Slice) (i : Nat) :
    (relocate ρ slices).drop i = relocate ρ (slices.drop i) :=
  (List.map_drop ..).symm

theorem clauses_relocate (slices : List Slice) :
    clauses (relocate ρ slices) = relocate ρ (clauses slices) := by
  have hfurther : (relocate ρ slices).takeWhile (·.startsWith .otherwiseIf) =
      relocate ρ (slices.takeWhile (·.startsWith .otherwiseIf)) := by
    induction slices with
    | nil => rfl
    | cons s slices ih =>
      rw [relocate_cons, List.takeWhile_cons, List.takeWhile_cons, Slice.startsWith_relocate, ih]
      split <;> rfl
  simp only [clauses, hfurther, length_relocate_list, drop_relocate_list]
  cases slices.drop (slices.takeWhile (·.startsWith .otherwiseIf)).length with
  | nil => rfl
  | cons s rest =>
    simp only [relocate_cons, Slice.startsWith_relocate]
    split
    · rw [relocate_append, relocate_cons, relocate_nil]
    · rfl

theorem ofSlices_relocate (slices : List Slice) :
    ofSlices n (relocate ρ slices) = relocate ρ (ofSlices n slices) := by
  induction n generalizing slices with
  | zero => rfl
  | succ n ih =>
    cases slices with
    | nil => rfl
    | cons s rest =>
      simp only [relocate_cons, ofSlices, Slice.startsWith_relocate, clauses_relocate,
        length_relocate_list, drop_relocate_list, ih]
      split
      · rfl
      · split <;> rfl

theorem ofSegments_relocate (run : List Slice) (segments : List Segment) :
    ofSegments (relocate ρ run) (relocate ρ segments) = relocate ρ (ofSegments run segments) := by
  induction segments generalizing run with
  | nil => rw [relocate_nil, ofSegments, ofSegments, length_relocate_list, ofSlices_relocate]
  | cons segment segments ih =>
    cases segment with
    | statement s =>
      rw [relocate_cons, Segment.relocate_statement, ofSegments, ofSegments, ← ih, relocate_append,
        relocate_cons, relocate_nil]
    | broken s p =>
      rw [relocate_cons, Segment.relocate_broken, ofSegments, ofSegments, relocate_append,
        relocate_cons, relocate_broken, ← ih, length_relocate_list, ofSlices_relocate,
        relocate_nil]

/-- The sentences of a relocated block. -/
theorem ofBlock_relocate (strict : Bool) (s : Slice) :
    ofBlock strict (relocate ρ s) = relocate ρ (ofBlock strict s) := by
  rw [ofBlock, Segment.divide_relocate, ofBlock, ← ofSegments_relocate]
  rfl

end Sentence

section along

theorem relocate_along_zero_slice (s : Slice) : relocate (.along 0) s = s := by
  rw [relocate_along_slice, Nat.add_zero]

theorem relocate_along_zero_slices (slices : List Slice) : relocate (.along 0) slices = slices := by
  induction slices with
  | nil => rfl
  | cons s slices ih => rw [relocate_cons, relocate_along_zero_slice, ih]

/-- Not moved on, a sentence is the same. -/
theorem relocate_along_zero_sentence (x : Sentence) : relocate (.along 0) x = x := by
  cases x with
  | chain slices => rw [Sentence.relocate_chain, relocate_along_zero_slices]
  | orphan s => rw [Sentence.relocate_orphan, relocate_along_zero_slice]
  | plain s => rw [Sentence.relocate_plain, relocate_along_zero_slice]
  | broken s p =>
    rw [Sentence.relocate_broken, relocate_along_zero_slice, relocate_along_problem]

theorem relocate_along_zero_sentences (xs : List Sentence) : relocate (.along 0) xs = xs := by
  induction xs with
  | nil => rfl
  | cons x xs ih => rw [relocate_cons, relocate_along_zero_sentence, ih]

end along

end Prose
