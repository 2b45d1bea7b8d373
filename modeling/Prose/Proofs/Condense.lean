import Prose.Parser
import Prose.Proofs.Condense.Group
import Prose.Proofs.Number.Overlong

namespace Prose

open Number

namespace Condense

/-- Condensing the first tokens comes to the second, with all groups between them made. -/
inductive Reaches : List Token → List Token → Prop
  | refl {ts} : Reaches ts ts
  | group {t u ts us n} (h : group t ts = .ok (u, n)) (hrest : Reaches ((t :: ts).drop n) us) :
      Reaches (t :: ts) us

section group

variable {t u : Token} {ts : List Token} {n : Nat}

/-- Only the number with which a group begins can be without an answer. -/
theorem group_eq_error_iff (t : Token) (ts : List Token) :
    group t ts = .error .placesExhausted ↔ BeginsOverlong (t :: ts) := by
  rw [← spelled?_eq_error_iff, group]
  cases spelled? (t :: ts) with
  | error e => exact error_eq_error_iff
  | ok r =>
    -- Whatever stands here instead of a number is a token.
    refine iff_of_false ?_ ok_ne_error
    cases r with
    | some number => exact ok_ne_error
    | none =>
      simp only [bind, Except.bind]
      split_ifs
      · exact not_false
      · split
        · exact ok_ne_error
        · exact ok_ne_error

/-- Every group has a token. -/
theorem pos_of_group (h : group t ts = .ok (u, n)) : 0 < n := by
  cases isGroup_of_group h with
  | number hnumber => exact pos_of_spelled? hnumber
  | fin => exact Nat.one_pos
  | phrase => exact Nat.succ_pos _
  | alone => exact Nat.one_pos

end group

/-- The groups are made up to the first one that begins with an overlong number. -/
theorem groups_eq_error_iff {k : Nat} {ts : List Token} (hk : ts.length ≤ k) :
    groups k ts = .error .placesExhausted ↔ ∃ us, Reaches ts us ∧ BeginsOverlong us := by
  have hnil : ¬ ∃ us, Reaches [] us ∧ BeginsOverlong us := by
    rintro ⟨us, hreaches, hbegins⟩
    cases hreaches
    cases hbegins
  induction k generalizing ts with
  | zero =>
    cases List.eq_nil_of_length_eq_zero (Nat.le_zero.mp hk)
    exact iff_of_false ok_ne_error hnil
  | succ k ih =>
    cases ts with
    | nil => exact iff_of_false ok_ne_error hnil
    | cons t ts =>
      rw [groups]
      cases hgroup : group t ts with
      | error e =>
        have hstop : (∃ us, Reaches (t :: ts) us ∧ BeginsOverlong us) ↔
            BeginsOverlong (t :: ts) := by
          constructor
          · rintro ⟨us, hreaches, hbegins⟩
            cases hreaches with
            | refl => exact hbegins
            | group hgroup' =>
              rw [hgroup] at hgroup'
              cases hgroup'
          · intro h
            exact ⟨_, .refl, h⟩
        rw [hstop, ← group_eq_error_iff, hgroup]
        exact error_eq_error_iff
      | ok r =>
        obtain ⟨u, n⟩ := r
        -- The group takes a token, so there are steps enough for what it leaves.
        have hpos := pos_of_group hgroup
        have hshorter : ((t :: ts).drop n).length ≤ k := by
          rw [List.length_drop]
          rw [List.length_cons] at hk ⊢
          omega
        have hstep : (∃ us, Reaches (t :: ts) us ∧ BeginsOverlong us) ↔
            ∃ us, Reaches ((t :: ts).drop n) us ∧ BeginsOverlong us := by
          constructor
          · rintro ⟨us, hreaches, hbegins⟩
            cases hreaches with
            | refl =>
              rw [(group_eq_error_iff t ts).mpr hbegins] at hgroup
              cases hgroup
            | group hgroup' hrest =>
              rw [hgroup] at hgroup'
              cases hgroup'
              exact ⟨us, hrest, hbegins⟩
          · rintro ⟨us, hreaches, hbegins⟩
            exact ⟨us, .group hgroup hreaches, hbegins⟩
        refine Iff.trans ?_ ((ih hshorter).trans hstep.symm)
        simp only [bind, Except.bind]
        cases groups k ((t :: ts).drop n) with
        | error e => exact Iff.rfl
        | ok rest => exact iff_of_false ok_ne_error ok_ne_error

end Condense

/-- Condensing has no result where it comes to an overlong number. -/
theorem condense_eq_error_iff (ts : List Token) :
    condense ts = .error .placesExhausted ↔ ∃ us, Condense.Reaches ts us ∧ BeginsOverlong us :=
  Condense.groups_eq_error_iff (Nat.le_refl _)

namespace Parser

/-- A parse of tokens has no answer where condensing has no result. -/
theorem parse_eq_none_iff (p : Parser) (ts : List Token) :
    p.parse ts = none ↔ condense ts = .error .placesExhausted := by
  unfold parse
  cases condense ts with
  | ok condensed => exact iff_of_false (fun h => by cases h) fun h => by cases h
  | error e =>
    cases e with
    | problem e => exact iff_of_false (fun h => by cases h) fun h => by cases h
    | placesExhausted => exact iff_of_true rfl rfl

/-- A source text is parsed, or a problem ends the parse, unless condensing comes to a fraction with
more digit words than there are decimal places. -/
theorem parseSource_eq_none_iff (p : Parser) (source : String) :
    p.parseSource source = none ↔ ∃ ts us, tokenize source p.options.sourceName = .ok ts ∧
      Condense.Reaches ts us ∧ BeginsOverlong us := by
  unfold parseSource
  cases htokens : tokenize source p.options.sourceName with
  | error e =>
    refine iff_of_false (fun h => by cases h) ?_
    rintro ⟨ts, us, hts, -⟩
    cases hts
  | ok ts =>
    simp only
    rw [parse_eq_none_iff, condense_eq_error_iff]
    constructor
    · rintro ⟨us, hreaches, hbegins⟩
      exact ⟨ts, us, rfl, hreaches, hbegins⟩
    · rintro ⟨ts', us, hts, hreaches, hbegins⟩
      cases hts
      exact ⟨us, hreaches, hbegins⟩

def overlongFraction : String :=
  "print zero point one one one one one one one one one one one one one one one one one one one " ++
    "one one one one one one one one one one ."

/-- There is no answer to it, neither statements nor a problem. -/
theorem parseSource_overlongFraction : ({} : Parser).parseSource overlongFraction = none := by
  decide +kernel

end Parser

end Prose
