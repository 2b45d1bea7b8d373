import Prose.Condense
import Prose.Proofs.Slice.Relocation

namespace Prose

section instances

variable {α : Type} [Relocates α]

instance : Relocates Nat := ⟨fun _ => id⟩

def CondenseFailure.relocated (ρ : Relocation) : CondenseFailure → CondenseFailure
  | .problem p => .problem (relocate ρ p)
  | .placesExhausted => .placesExhausted

instance : Relocates CondenseFailure := ⟨CondenseFailure.relocated⟩

def Relocation.condensed (ρ : Relocation) : Except CondenseFailure α → Except CondenseFailure α
  | .ok a => .ok (relocate ρ a)
  | .error e => .error (relocate ρ e)

end instances

variable (ρ : Relocation)

namespace Relocation

variable {α β : Type} [Relocates α] [Relocates β]

/-- Results that are made of other results. -/
theorem condensed_bind {r : Except CondenseFailure α} {f f' : α → Except CondenseFailure β}
    (h : ∀ a, f' (relocate ρ a) = ρ.condensed (f a)) :
    (ρ.condensed r >>= f') = ρ.condensed (r >>= f) := by
  cases r with
  | error e => rfl
  | ok a => exact h a

theorem condensed_map_some (r : Except CondenseFailure α) :
    (ρ.condensed r).map some = ρ.condensed (r.map some) := by
  cases r <;> rfl

end Relocation

theorem any_relocate_option (p : Keyword → Bool) (t : Option Token) :
    (relocate ρ t).any (fun t => p t.keyword) = t.any fun t => p t.keyword := by
  cases t <;> rfl

theorem take_relocate_list {α : Type} [Relocates α] (n : Nat) (as : List α) :
    (relocate ρ as).take n = relocate ρ (as.take n) :=
  List.map_take.symm

theorem drop_relocate_list {α : Type} [Relocates α] (n : Nat) (as : List α) :
    (relocate ρ as).drop n = relocate ρ (as.drop n) :=
  List.map_drop.symm

namespace Number

namespace Spelled

theorem step_relocate (p : Progress) (t : Token) (following : Option Token) :
    step p (relocate ρ t) (relocate ρ following) = step p t following := by
  have hfollowing := any_relocate_option ρ (· == .numberWord) following
  simp only [step, hfollowing, Token.keyword_relocate, cardinalStep, scaleStep,
    Token.text_relocate]

theorem problem_relocate (fault : LiteralFault) (run : List Token) (k : Nat) :
    problem fault (relocate ρ run) k = relocate ρ (problem fault run k) := by
  rw [problem, take_relocate_list]
  rfl

instance : Relocates Progress := ⟨fun _ => id⟩

theorem read_relocate (run : List Token) (p : Progress) (k : Nat) (ts : List Token) :
    read (relocate ρ run) p k (relocate ρ ts) = ρ.condensed (read run p k ts) := by
  induction ts generalizing p k with
  | nil => rfl
  | cons t ts ih =>
    rw [relocate_cons, read, read, Slice.head?_relocate_list, step_relocate]
    cases step p t ts.head? with
    | stop => rfl
    | next p => exact ih p (k + 1)
    | fault f => exact congrArg Except.error (problem_relocate ρ f run (k + 1))
    | placesExhausted => rfl

theorem token_relocate (negative : Bool) (run : List Token) (k : Nat) (place : Position) :
    token negative (relocate ρ run) k (ρ.place place) =
      ρ.condensed (token negative run k place) := by
  rw [token, token, drop_relocate_list, read_relocate]
  refine ρ.condensed_bind fun a => ?_
  obtain ⟨progress, taken⟩ := a
  -- The value has no place, so that only the token and the problem are relocated.
  have hvalue : (relocate ρ progress).value? = progress.value? := rfl
  simp only [relocate_prod, hvalue]
  cases progress.value? with
  | none => exact congrArg Except.error (problem_relocate ρ .tooLarge run taken)
  | some m => rfl

end Spelled

/-- A number in words is spelled out wherever its words stand. -/
theorem spelled?_relocate (ts : List Token) :
    spelled? (relocate ρ ts) = ρ.condensed (spelled? ts) := by
  cases ts with
  | nil => rfl
  | cons first ts =>
    have hrun (negative : Bool) (k : Nat) :
        (Spelled.token negative (relocate ρ first :: relocate ρ ts) k
            (relocate ρ first).position).map some =
          ρ.condensed ((Spelled.token negative (first :: ts) k first.position).map some) := by
      rw [← ρ.condensed_map_some, ← Spelled.token_relocate]
      rfl
    rw [relocate_cons, spelled?.eq_def, spelled?.eq_def]
    simp only [Token.keyword_relocate]
    split
    -- Behind a sign, the word there decides whether a number begins.
    · cases ts with
      | nil => rfl
      | cons lead ts =>
        simp only [relocate_cons, Token.kind_relocate, Token.text_relocate,
          Token.keyword_relocate]
        split
        · rfl
        · split
          · exact hrun true 1
          · rfl
    · split
      · exact hrun false 0
      · rfl

end Number

theorem Phrase.startsAt_relocate (p : Phrase) (ts : List Token) :
    p.startsAt (relocate ρ ts) = p.startsAt ts := by
  cases ts with
  | nil => rfl
  | cons t ts =>
    have hkeywords : ((relocate ρ ts).take p.followers.length).map (·.keyword) =
        (ts.take p.followers.length).map (·.keyword) := by
      rw [take_relocate_list, relocate_list, List.map_map]
      rfl
    rw [relocate_cons, startsAt, startsAt, hkeywords, Token.keyword_relocate]

theorem Phrase.find?_relocate (ts : List Token) : find? (relocate ρ ts) = find? ts := by
  simp only [find?, startsAt_relocate]

namespace Condense

theorem group_relocate (t : Token) (ts : List Token) :
    group (relocate ρ t) (relocate ρ ts) = ρ.condensed (group t ts) := by
  rw [group, group, ← relocate_cons, Number.spelled?_relocate]
  refine ρ.condensed_bind fun number => ?_
  cases number with
  | some number => rfl
  | none =>
    simp only [relocate_none, Token.keyword_relocate, Phrase.find?_relocate, take_relocate_list,
      Token.render_relocate]
    split
    · rfl
    · cases Phrase.find? (t :: ts) with
      | none => rfl
      | some p => rfl

theorem groups_relocate (n : Nat) (ts : List Token) :
    groups n (relocate ρ ts) = ρ.condensed (groups n ts) := by
  induction n generalizing ts with
  | zero => rfl
  | succ n ih =>
    cases ts with
    | nil => rfl
    | cons t ts =>
      rw [relocate_cons, groups, groups, group_relocate]
      refine ρ.condensed_bind fun a => ?_
      obtain ⟨token, taken⟩ := a
      simp only [relocate_prod]
      rw [← relocate_cons, show relocate ρ taken = taken from rfl, drop_relocate_list, ih]
      exact ρ.condensed_bind fun rest => rfl

end Condense

/-- Tokens in other places condense to the same tokens in these places. -/
theorem condense_relocate (ts : List Token) :
    condense (relocate ρ ts) = ρ.condensed (condense ts) := by
  rw [condense, condense, length_relocate_list]
  exact Condense.groups_relocate ρ ts.length ts

end Prose
