import Mathlib.Data.List.Find
import Prose.Proofs.Condense.Account

namespace Prose

variable {p t u : Token} {b ts : List Token}

namespace Number

section behind

variable (hkind : p.kind = .punctuation) (hrole : p.keyword = .endOfStatement)

include hrole in
theorem ne_numberWord_of_terminator : ∀ v ∈ (p :: b).head?, v.keyword ≠ .numberWord := by
  rintro v ⟨⟩
  rw [hrole]
  decide

namespace Spelled

variable {run : List Token} {q : Progress} {k : Nat}

include hrole in
theorem step_of_terminator (following : Option Token) : step q p following = .stop := by
  refine step_of_other ?_ ?_ ?_ ?_
  all_goals
    rw [hrole]
    decide

include hrole in
/-- A number is read up to the terminator, with the faults that it has at the end of the tokens. -/
theorem read_append_terminator (hk : k + ts.length = run.length) :
    read (run ++ p :: b) q k (ts ++ p :: b) = read run q k ts := by
  induction ts generalizing q k with
  | nil =>
    rw [List.nil_append, read, read, step_of_terminator hrole]
  | cons t ts ih =>
    rw [List.length_cons, ← Nat.add_assoc, Nat.add_right_comm] at hk
    rw [List.cons_append, read, read, step_head?_append (ne_numberWord_of_terminator hrole)]
    cases step q t ts.head? with
    | stop => rfl
    | next q' => exact ih hk
    | fault f =>
      -- The tokens of the fault stand before the terminator.
      have hle : k + 1 ≤ run.length := by omega
      simp only [problem, List.take_append_of_le_length hle]
    | placesExhausted => rfl

include hrole in
theorem token_append_terminator (negative : Bool) (hk : k ≤ run.length) (place : Position) :
    token negative (run ++ p :: b) k place = token negative run k place := by
  have hlength : k + (run.drop k).length = run.length := by
    rw [List.length_drop, Nat.add_sub_cancel' hk]
  rw [token, token, List.drop_append_of_le_length hk, read_append_terminator hrole hlength]
  cases hread : read run .start k (run.drop k) with
  | error e => rfl
  | ok r =>
    obtain ⟨progress, taken⟩ := r
    have htaken : taken ≤ run.length := by
      obtain ⟨words, rest, hsplit, rfl, -⟩ := goesOn_of_read rfl hread
      rw [← hlength, hsplit, List.length_append, ← Nat.add_assoc]
      exact Nat.le_add_right _ _
    simp only [bind, Except.bind, problem, List.take_append_of_le_length htaken]

end Spelled

include hkind hrole in
/-- A sign word in front of a terminator is as good as one at the end of the tokens. -/
theorem spelled?_append_terminator :
    spelled? (t :: (ts ++ p :: b)) = spelled? (t :: ts) := by
  have htoken (negative : Bool) {k : Nat} (hk : k ≤ (t :: ts).length) :
      Spelled.token negative (t :: (ts ++ p :: b)) k t.position =
        Spelled.token negative (t :: ts) k t.position :=
    Spelled.token_append_terminator hrole negative hk t.position
  by_cases hsign : t.keyword = .negative
  · cases ts with
    | nil =>
      refine ((spelled?_of_sign hsign).mpr ?_).trans ((spelled?_of_sign hsign).mpr ?_).symm
      · rintro v ⟨⟩ (⟨hnumber, -⟩ | hword)
        · rw [hkind] at hnumber
          cases hnumber
        · rw [hrole] at hword
          cases hword
      · exact fun v hv => by cases hv
    | cons lead ts =>
      simp only [spelled?, if_pos hsign, List.cons_append]
      rw [← List.cons_append, htoken true (Nat.succ_le_succ (Nat.zero_le _))]
  · simp only [spelled?, if_neg hsign]
    rw [htoken false (Nat.zero_le _)]

end behind

end Number

/-- What begins a list and has no separator in it begins the part in front of the separator. -/
theorem prefix_append_cons_iff {α : Type} {l xs ys : List α} {y : α} (hy : y ∉ l) :
    l <+: xs ++ y :: ys ↔ l <+: xs := by
  constructor
  · intro h
    rcases List.prefix_or_prefix_of_prefix h (List.prefix_append xs (y :: ys)) with hle | ⟨m, rfl⟩
    · exact hle
    · rw [List.prefix_append_right_inj] at h
      cases m with
      | nil => simp only [List.append_nil, List.prefix_rfl]
      | cons z m =>
        obtain ⟨rfl, -⟩ := List.cons_prefix_cons.mp h
        exact absurd (List.mem_append_right xs (List.mem_cons_self ..)) hy
  · exact fun h => h.trans (List.prefix_append xs (y :: ys))

namespace Condense

section behind

variable (hkind : p.kind = .punctuation) (hrole : p.keyword = .endOfStatement)

include hrole in
/-- A phrase has no terminator in it. -/
theorem find?_append_terminator :
    Phrase.find? (t :: (ts ++ p :: b)) = Phrase.find? (t :: ts) := by
  refine List.find?_congr fun q hq => ?_
  have hnone : p.keyword ∉ q.followers := by
    rw [hrole]
    intro hmem
    exact not_mem_of_mem_phrase hq _ (List.mem_cons_of_mem _ hmem) (by decide)
  rw [Bool.eq_iff_iff, startsAt_iff, startsAt_iff, List.map_append, List.map_cons,
    prefix_append_cons_iff hnone]

theorem length_le_of_find {q : Phrase} (h : Phrase.find? (t :: ts) = some q) :
    q.length ≤ (t :: ts).length := by
  obtain ⟨words, rest, hsplit, hlength, -⟩ := merges_of_find h
  rw [hlength, hsplit, List.length_append]
  exact Nat.le_add_right _ _

/-- A group is made of tokens that are there. -/
theorem le_length_of_group {n : Nat} (h : group t ts = .ok (u, n)) : n ≤ (t :: ts).length := by
  cases isGroup_of_group h with
  | number hnumber =>
    obtain ⟨words, rest, hsplit, rfl, -⟩ := merges_of_spelled hnumber
    rw [hsplit, List.length_append]
    exact Nat.le_add_right _ _
  | fin => exact Nat.succ_le_succ (Nat.zero_le _)
  | phrase hnumber hphrase => exact length_le_of_find hphrase
  | alone => exact Nat.succ_le_succ (Nat.zero_le _)

include hkind hrole in
/-- The group in front of a terminator is the one at the end of the tokens. -/
theorem group_append_terminator : group t (ts ++ p :: b) = group t ts := by
  rw [group, group, Number.spelled?_append_terminator hkind hrole, find?_append_terminator hrole]
  cases hphrase : Phrase.find? (t :: ts) with
  | none => rfl
  | some q =>
    simp only [← List.cons_append, List.take_append_of_le_length (length_le_of_find hphrase)]

include hrole in
/-- A terminator is a group of its own. -/
theorem group_terminator : group p b = .ok (p, 1) := by
  have hne {k : Keyword} (hk : Keyword.endOfStatement ≠ k) : p.keyword ≠ k := hrole ▸ hk
  refine group_of_alone (Number.spelled?_of_other (hne (by decide)) (hne (by decide)))
    (hne (by decide)) ?_
  cases hphrase : Phrase.find? (p :: b) with
  | none => rfl
  | some q =>
    obtain ⟨hq, hlead⟩ := Phrase.mem_of_find hphrase
    rw [hrole] at hlead
    exact absurd (hlead ▸ by decide) (not_mem_of_mem_phrase hq _ (List.mem_cons_self ..))

end behind

/-- What a group leaves is shorter. -/
theorem length_drop_le_of_group {n : Nat} (h : group t ts = .ok (u, n)) :
    ((t :: ts).drop n).length ≤ ts.length := by
  have hpos := pos_of_group h
  rw [List.length_drop, List.length_cons]
  omega

/-- As many steps as there are tokens are enough. -/
theorem groups_eq_condense {n : Nat} (hn : ts.length ≤ n) : groups n ts = condense ts := by
  induction n using Nat.strongRecOn generalizing ts with
  | ind n ih =>
    cases ts with
    | nil => cases n <;> rfl
    | cons t ts =>
      cases n with
      | zero => cases hn
      | succ n =>
        have hlength := Nat.le_of_succ_le_succ hn
        rw [condense, List.length_cons, groups, groups]
        cases hgroup : group t ts with
        | error e => rfl
        | ok r =>
          obtain ⟨u, taken⟩ := r
          -- Both go on with tokens for which they have steps enough.
          have hshorter := length_drop_le_of_group hgroup
          have hmore := ih n (Nat.lt_succ_self n) (Nat.le_trans hshorter hlength)
          have hfewer := ih ts.length (Nat.lt_succ_of_le hlength) hshorter
          simp only [bind, Except.bind, hmore, hfewer]

/-- The first group is made, and then what it leaves is condensed. -/
theorem condense_cons (t : Token) (ts : List Token) :
    condense (t :: ts) = do
      let (u, n) ← group t ts
      let us ← condense ((t :: ts).drop n)
      return u :: us := by
  rw [condense, List.length_cons, groups]
  cases hgroup : group t ts with
  | error e => rfl
  | ok r =>
    obtain ⟨u, n⟩ := r
    simp only [bind, Except.bind, groups_eq_condense (length_drop_le_of_group hgroup)]
    rfl

end Condense

open Condense in
/-- Tokens with a terminator among them are condensed to what those in front of it are condensed to, the
terminator, and what those behind it are condensed to. If those in front of it have a number that
cannot be read, it is the failure of the whole, and otherwise the failure is that of those behind. -/
theorem condense_append_terminator {p : Token} (hkind : p.kind = .punctuation)
    (hrole : p.keyword = .endOfStatement) (a b : List Token) :
    condense (a ++ [p] ++ b) = do
      let x ← condense a
      let y ← condense b
      return x ++ [p] ++ y := by
  rw [List.append_assoc, List.singleton_append]
  -- The groups of the tokens in front are made from the left, each of them leaving fewer tokens.
  induction hlength : a.length using Nat.strongRecOn generalizing a with
  | ind n ih =>
    cases a with
    | nil =>
      have hnil : condense [] = .ok [] := rfl
      rw [List.nil_append, condense_cons, group_terminator hrole, hnil]
      rfl
    | cons t ts =>
      rw [List.cons_append, condense_cons, condense_cons t ts, group_append_terminator hkind hrole]
      cases hgroup : group t ts with
      | error e => rfl
      | ok r =>
        obtain ⟨u, taken⟩ := r
        have hshorter : ((t :: ts).drop taken).length < n := by
          rw [← hlength]
          exact Nat.lt_succ_of_le (length_drop_le_of_group hgroup)
        have hrest := ih _ hshorter _ rfl
        rw [← List.drop_append_of_le_length (le_length_of_group hgroup), List.cons_append] at hrest
        simp only [bind, Except.bind, hrest]
        cases condense ((t :: ts).drop taken) with
        | error e => rfl
        | ok x =>
          cases condense b with
          | error e => rfl
          | ok y => rfl

def unfinishedWords : List Token :=
  ["is", "not", "negative", "two", "hundred", "and"].map (Token.ofText .word · ⟨1, 1, "t"⟩)

def finishedWords : List Token :=
  ["five", "point", "five", "is", "null"].map (Token.ofText .word · ⟨1, 1, "t"⟩)

def spoiledWords : List Token :=
  ["two", "point", "twenty"].map (Token.ofText .word · ⟨1, 1, "t"⟩)

def spoiledProblem : CondenseFailure :=
  .problem
    { cause := .literal (.notADigitWord "twenty"), origin := "condense_number", tokens := spoiledWords }

def fullStop : Token :=
  .ofText .punctuation "." ⟨1, 1, "t"⟩

/-- The number does not go on behind the terminator, and the words that spoil one point at themselves in
front of a terminator as well as behind it. -/
theorem condense_append_terminator_unfinishedWords :
    (∃ us, condense (unfinishedWords ++ [fullStop] ++ finishedWords) = .ok us ∧
      us.map (·.text) = ["is", "not", "-200", "and", ".", "5.5", "is null"]) ∧
    condense (spoiledWords ++ [fullStop] ++ finishedWords) = .error spoiledProblem ∧
    condense (unfinishedWords ++ [fullStop] ++ spoiledWords) = .error spoiledProblem := by
  have hfirst : (condense unfinishedWords).toOption.map (·.map (·.text)) =
      some ["is", "not", "-200", "and"] := by
    decide +kernel
  have hsecond : (condense finishedWords).toOption.map (·.map (·.text)) =
      some ["5.5", "is null"] := by
    decide +kernel
  have hspoiled : condense spoiledWords = .error spoiledProblem := by decide +kernel
  obtain ⟨x, hx, hxtexts⟩ := Option.map_eq_some_iff.mp hfirst
  obtain ⟨y, hy, hytexts⟩ := Option.map_eq_some_iff.mp hsecond
  have hx := eq_ok_of_toOption hx
  have hy := eq_ok_of_toOption hy
  refine ⟨⟨x ++ [fullStop] ++ y, ?_, ?_⟩, ?_, ?_⟩
  · rw [condense_append_terminator rfl rfl, hx, hy]
    rfl
  · rw [List.map_append, List.map_append, hxtexts, hytexts]
    rfl
  · rw [condense_append_terminator rfl rfl, hspoiled]
    rfl
  · rw [condense_append_terminator rfl rfl, hx, hspoiled]
    rfl

end Prose
