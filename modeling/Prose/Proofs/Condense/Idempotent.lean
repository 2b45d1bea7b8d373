import Prose.Proofs.Condense
import Prose.Proofs.Token.Pieces

namespace Prose

namespace Condense

/-- Each token is a group of its own. -/
inductive Settled : List Token → Prop
  | nil : Settled []
  | cons {t ts} (h : group t ts = .ok (t, 1)) (hrest : Settled ts) : Settled (t :: ts)

theorem groups_of_settled {ts : List Token} (h : Settled ts) : groups ts.length ts = .ok ts := by
  induction h with
  | nil => rfl
  | @cons t ts h _ ih =>
    rw [List.length_cons, groups]
    simp only [h, bind, Except.bind, List.drop_succ_cons, List.drop_zero, ih]

inductive Becomes : List Token → List Token → Prop
  | nil : Becomes [] []
  | cons {t u ts us n} (h : group t ts = .ok (u, n)) (hrest : Becomes ((t :: ts).drop n) us) :
      Becomes (t :: ts) (u :: us)

theorem becomes_of_groups {k : Nat} {ts us : List Token} (hk : ts.length ≤ k)
    (h : groups k ts = .ok us) : Becomes ts us := by
  induction k generalizing ts us with
  | zero =>
    cases List.eq_nil_of_length_eq_zero (Nat.le_zero.mp hk)
    cases h
    exact .nil
  | succ k ih =>
    cases ts with
    | nil =>
      cases h
      exact .nil
    | cons t ts =>
      obtain ⟨u, n, rest, hgroup, hrest, rfl⟩ := exists_of_groups_cons h
      -- A group takes a token at least, so the steps that are left are enough for the others.
      have hpos := pos_of_group hgroup
      have hshorter : ((t :: ts).drop n).length ≤ k := by
        rw [List.length_drop]
        rw [List.length_cons] at hk ⊢
        omega
      exact .cons hgroup (ih hshorter hrest)

section made

def isMade (k : Keyword) : Bool :=
  k == .numericLiteral || k == .blockEnd || Phrase.all.any (·.role == k)

theorem isMade_role {p : Phrase} (h : p ∈ Phrase.all) : isMade p.role = true := by
  have hany : Phrase.all.any (·.role == p.role) = true :=
    List.any_eq_true.mpr ⟨p, h, beq_self_eq_true _⟩
  rw [isMade, hany, Bool.or_true]

/-- No phrase begins with a made token, and none goes on with one. -/
theorem isMade_of_mem_phrase {p : Phrase} (h : p ∈ Phrase.all) :
    isMade p.lead = false ∧ ∀ k ∈ p.followers, isMade k = false := by
  have hall : ∀ p ∈ Phrase.all, isMade p.lead = false ∧ ∀ k ∈ p.followers, isMade k = false := by
    decide
  exact hall p h

variable {t u : Token} {ts us : List Token} {n : Nat}

/-- A made token is a group of its own, whatever stands behind it. -/
theorem group_of_isMade (h : isMade u.keyword = true) (us : List Token) :
    group u us = .ok (u, 1) := by
  have hne {k : Keyword} (hk : isMade k = false) : u.keyword ≠ k := by
    rintro rfl
    rw [h] at hk
    cases hk
  refine group_of_alone (Number.spelled?_of_other (hne rfl) (hne rfl)) (hne rfl) ?_
  cases hfind : Phrase.find? (u :: us) with
  | none => rfl
  | some p =>
    obtain ⟨hp, hlead⟩ := Phrase.mem_of_find hfind
    exact absurd hlead (hne (isMade_of_mem_phrase hp).1)

/-- A group becomes a made token, or it is a token that stays as it is. -/
theorem isMade_or_alone (h : group t ts = .ok (u, n)) :
    isMade u.keyword = true ∨ u = t ∧ n = 1 := by
  cases isGroup_of_group h with
  | number hnumber =>
    rw [(Number.number_of_spelled hnumber).1]
    exact .inl rfl
  | fin hfin => exact .inl rfl
  | phrase hnumber hphrase => exact .inl (isMade_role (Phrase.mem_of_find hphrase).1)
  | alone => exact .inr ⟨rfl, rfl⟩

/-- Roles that no made token plays were there before condensing. -/
theorem map_keyword_of_becomes (h : Becomes ts us) {ks : List Keyword}
    (hks : ∀ k ∈ ks, isMade k = false) (hus : (us.take ks.length).map (·.keyword) = ks) :
    (ts.take ks.length).map (·.keyword) = ks := by
  induction ks generalizing ts us with
  | nil => rfl
  | cons k ks ih =>
    cases h with
    | nil => cases hus
    | cons hgroup hrest =>
      rw [List.length_cons, List.take_succ_cons, List.map_cons, List.cons.injEq] at hus ⊢
      obtain ⟨hhead, htail⟩ := hus
      obtain hmade | ⟨rfl, rfl⟩ := isMade_or_alone hgroup
      · rw [hhead, hks k (List.mem_cons_self ..)] at hmade
        cases hmade
      · exact ⟨hhead, ih hrest (fun k hk => hks k (List.mem_cons_of_mem _ hk)) htail⟩

/-- Condensing what stands behind a token completes no phrase that begins with it. -/
theorem find?_of_becomes (h : Becomes ts us) (hfind : Phrase.find? (t :: ts) = none) :
    Phrase.find? (t :: us) = none := by
  rw [Phrase.find?, List.find?_eq_none] at hfind ⊢
  intro p hp hstarts
  simp only [Phrase.startsAt, Bool.and_eq_true, beq_iff_eq] at hstarts
  refine hfind p hp ?_
  simp only [Phrase.startsAt, Bool.and_eq_true, beq_iff_eq]
  exact ⟨hstarts.1, map_keyword_of_becomes h (isMade_of_mem_phrase hp).2 hstarts.2⟩

/-- Several tokens are written as they begin. -/
theorem head?_render {c : Char} (h : t.text.toList.head? = some c) (ts : List Token) :
    (Token.render (t :: ts)).toList.head? = some c := by
  rw [Token.render, List.map_cons]
  cases ts with
  | nil => rw [List.map_nil, String.intercalate_singleton, h]
  | cons u ts =>
    rw [List.map_cons, String.intercalate_cons_cons, String.toList_append, String.toList_append,
      List.append_assoc, List.head?_append, h, Option.some_or]

/-- A group takes no sign unless its first token does: a number that is made shows its sign, and a
phrase or an end of a block is written as it begins. -/
theorem not_takesSign_of_group (h : group t ts = .ok (u, n)) (ht : ¬ t.TakesSign) :
    ¬ u.TakesSign := by
  have hword : t.keyword ≠ .numberWord := fun h => ht (.inr h)
  have hmade {k : Keyword} (hk : isMade k = true) : k ≠ .numberWord := by
    rintro rfl
    cases hk
  cases isGroup_of_group h with
  | number hnumber =>
    obtain ⟨hkeyword, hlead⟩ := Number.number_of_spelled hnumber
    obtain hlead | ⟨-, hsign⟩ := hlead
    · exact absurd hlead hword
    · rintro (⟨-, hunsigned⟩ | hu)
      · exact hunsigned hsign
      · rw [hkeyword] at hu
        cases hu
  | fin hfin =>
    rintro (hliteral | hu)
    · exact ht (.inl hliteral)
    · cases hu
  | phrase hnumber hphrase =>
    rintro (⟨hkind, htext⟩ | hu)
    · have hsign : t.text.toList.head? = some '-' :=
        Decidable.not_not.mp fun h => ht (.inl ⟨hkind, h⟩)
      exact htext (head?_render hsign _)
    · exact hmade (isMade_role (Phrase.mem_of_find hphrase).1) hu
  | alone => exact ht

end made

/-- What tokens are condensed to is settled. -/
theorem settled_of_becomes {ts us : List Token} (h : Becomes ts us) : Settled us := by
  induction h with
  | nil => exact .nil
  | @cons t u ts us n hgroup hrest ih =>
    refine .cons ?_ ih
    cases hmade : isMade u.keyword with
    | true => exact group_of_isMade hmade us
    | false =>
      cases isGroup_of_group hgroup with
      | number hnumber =>
        rw [(Number.number_of_spelled hnumber).1] at hmade
        cases hmade
      | fin hfin => cases hmade
      | phrase hnumber hphrase =>
        rw [isMade_role (Phrase.mem_of_find hphrase).1] at hmade
        cases hmade
      | alone hnumber hfin hphrase =>
        rw [List.drop_succ_cons, List.drop_zero] at hrest
        refine group_of_alone ?_ hfin (find?_of_becomes hrest hphrase)
        -- The token is no number word; where it is a sign word, what is behind it takes no sign.
        by_cases hsign : t.keyword = .negative
        · rw [Number.spelled?_of_sign hsign] at hnumber ⊢
          intro v hv
          cases hrest with
          | nil => cases hv
          | cons hgroup' hrest' =>
            cases hv
            exact not_takesSign_of_group hgroup' (hnumber _ rfl)
        · exact Number.spelled?_of_other hsign (Number.not_numberWord_of_spelled hnumber)

end Condense

/-- Condensing condensed tokens changes nothing. -/
theorem condense_condense {ts us : List Token} (h : condense ts = .ok us) :
    condense us = .ok us := by
  have hbecomes := Condense.becomes_of_groups (Nat.le_refl _) h
  exact Condense.groups_of_settled (Condense.settled_of_becomes hbecomes)

def groupedWords : List Token :=
  ["negative", "negative", "zero", "point", "five", "is", "not", "null", "fin"].map
    (Token.ofText .word · ⟨1, 1, "t"⟩)

/-- The sign word in front is left over, and it stays so. -/
theorem condense_condense_groupedWords :
    ∃ us, condense groupedWords = .ok us ∧ condense us = .ok us ∧
      us.map (·.text) = ["negative", "-0.5", "is not null", "fin"] := by
  have htexts : (condense groupedWords).toOption.map (·.map (·.text)) =
      some ["negative", "-0.5", "is not null", "fin"] := by
    decide +kernel
  obtain ⟨us, hcondensed, htexts⟩ := Option.map_eq_some_iff.mp htexts
  have hcondensed := eq_ok_of_toOption hcondensed
  exact ⟨us, hcondensed, condense_condense hcondensed, htexts⟩

end Prose
