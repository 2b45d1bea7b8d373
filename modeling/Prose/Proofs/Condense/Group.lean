import Prose.Condense

namespace Prose

def Token.TakesSign (t : Token) : Prop :=
  (t.kind = .number ∧ t.text.toList.head? ≠ some '-') ∨ t.keyword = .numberWord

namespace Number

variable {t u : Token} {ts : List Token} {n : Nat}

/-- A number token is made of words that are read and that come to a value. -/
theorem Spelled.exists_of_token {negative : Bool} {run : List Token} {k : Nat} {p : Position}
    (h : token negative run k p = .ok (u, n)) :
    ∃ q m, read run .start k (run.drop k) = .ok (q, n) ∧ q.value? = some m ∧
      u = ⟨.number, (Decimal.mk negative m).render, .numericLiteral, p⟩ := by
  rw [token] at h
  cases hread : read run .start k (run.drop k) with
  | error e =>
    rw [hread] at h
    cases h
  | ok r =>
    obtain ⟨q, taken⟩ := r
    rw [hread] at h
    simp only [bind, Except.bind] at h
    cases hvalue : q.value? with
    | none =>
      rw [hvalue] at h
      cases h
    | some m =>
      rw [hvalue] at h
      cases h
      exact ⟨q, m, rfl, hvalue, rfl⟩

/-- A spelled-out number is marked, and it shows its sign. -/
theorem Spelled.number_of_token {negative : Bool} {run : List Token} {k : Nat} {p : Position}
    (h : token negative run k p = .ok (u, n)) :
    u.keyword = .numericLiteral ∧ (negative = true → u.text.toList.head? = some '-') := by
  obtain ⟨q, m, -, -, rfl⟩ := exists_of_token h
  refine ⟨rfl, fun hnegative => ?_⟩
  simp only [Decimal.render, hnegative, if_true, String.toList_ofList, List.head?_cons]

theorem map_some_ne_ok_none {α ε : Type} (r : Except ε α) : r.map some ≠ .ok none := by
  cases r <;> exact fun h => by cases h

theorem eq_ok_of_map {α ε : Type} {r : Except ε α} {a : α} (h : r.map some = .ok (some a)) :
    r = .ok a := by
  cases r with
  | error e => cases h
  | ok b =>
    cases h
    rfl

/-- A number begins with a number word, or with a sign word that it shows. -/
theorem number_of_spelled (h : spelled? (t :: ts) = .ok (some (u, n))) :
    u.keyword = .numericLiteral ∧
      (t.keyword = .numberWord ∨ t.keyword = .negative ∧ u.text.toList.head? = some '-') := by
  rw [spelled?.eq_def] at h
  simp only at h
  split at h
  · rename_i hsign
    split at h
    · cases h
    · split at h
      · cases h
        exact ⟨rfl, .inr ⟨hsign, by simp [String.toList_append]⟩⟩
      · split at h
        · obtain ⟨hkeyword, htext⟩ := Spelled.number_of_token (eq_ok_of_map h)
          exact ⟨hkeyword, .inr ⟨hsign, htext rfl⟩⟩
        · cases h
  · split at h
    · rename_i hword
      exact ⟨(Spelled.number_of_token (eq_ok_of_map h)).1, .inl hword⟩
    · cases h

/-- No number begins with a word that is neither a sign nor a number word. -/
theorem spelled?_of_other (hsign : t.keyword ≠ .negative) (hword : t.keyword ≠ .numberWord) :
    spelled? (t :: ts) = .ok none := by
  simp only [spelled?, if_neg hsign, if_neg hword]

/-- A number word begins a number, or what follows it is wrong. -/
theorem not_numberWord_of_spelled (h : spelled? (t :: ts) = .ok none) :
    t.keyword ≠ .numberWord := by
  intro hword
  have hsign : t.keyword ≠ .negative := by
    rw [hword]
    decide
  simp only [spelled?, if_neg hsign, if_pos hword] at h
  exact map_some_ne_ok_none _ h

/-- A sign word stays a word where no number follows that it could be the sign of. -/
theorem spelled?_of_sign (hsign : t.keyword = .negative) :
    spelled? (t :: ts) = .ok none ↔ ∀ v ∈ ts.head?, ¬ v.TakesSign := by
  cases ts with
  | nil =>
    refine iff_of_true ?_ fun v hv => by cases hv
    simp only [spelled?, if_pos hsign]
  | cons v ts =>
    simp only [spelled?, if_pos hsign, List.head?_cons, Option.mem_some_iff, forall_eq',
      Token.TakesSign, not_or]
    split
    · rename_i hliteral
      exact iff_of_false (fun h => by cases h) fun h => h.1 hliteral
    · rename_i hliteral
      split
      · rename_i hword
        exact iff_of_false (map_some_ne_ok_none _) fun h => h.2 hword
      · rename_i hword
        exact iff_of_true rfl ⟨hliteral, hword⟩

end Number

/-- A phrase that is found is one of the list, and it begins with its first word. -/
theorem Phrase.mem_of_find {t : Token} {ts : List Token} {p : Phrase}
    (h : find? (t :: ts) = some p) : p ∈ all ∧ t.keyword = p.lead := by
  have hstarts := List.find?_some h
  simp only [startsAt, Bool.and_eq_true, beq_iff_eq] at hstarts
  exact ⟨List.mem_of_find?_eq_some h, hstarts.1⟩

namespace Condense

/-- What a group of tokens is: a number in words, a `fin`, a phrase, or a token that stays as it is
because none of these begins with it. -/
inductive IsGroup : Token → List Token → Token → Nat → Prop
  | number {t ts u n} (h : Number.spelled? (t :: ts) = .ok (some (u, n))) : IsGroup t ts u n
  | fin {t ts} (h : t.keyword = .fin) : IsGroup t ts { t with keyword := .blockEnd } 1
  | phrase {t ts p} (hnumber : Number.spelled? (t :: ts) = .ok none)
      (h : Phrase.find? (t :: ts) = some p) :
      IsGroup t ts
        { t with text := Token.render ((t :: ts).take p.length), keyword := p.role } p.length
  | alone {t ts} (hnumber : Number.spelled? (t :: ts) = .ok none) (hfin : t.keyword ≠ .fin)
      (hphrase : Phrase.find? (t :: ts) = none) : IsGroup t ts t 1

section group

variable {t u : Token} {ts : List Token} {n : Nat}

theorem isGroup_of_group (h : group t ts = .ok (u, n)) : IsGroup t ts u n := by
  rw [group] at h
  cases hnumber : Number.spelled? (t :: ts) with
  | error e =>
    rw [hnumber] at h
    cases h
  | ok r =>
    rw [hnumber] at h
    cases r with
    | some number =>
      cases h
      exact .number hnumber
    | none =>
      simp only [bind, Except.bind] at h
      split at h
      · rename_i hfin
        cases h
        exact .fin hfin
      · rename_i hfin
        split at h
        · rename_i p hphrase
          cases h
          exact .phrase hnumber hphrase
        · rename_i hphrase
          cases h
          exact .alone hnumber hfin hphrase

theorem group_of_alone (hnumber : Number.spelled? (t :: ts) = .ok none) (hfin : t.keyword ≠ .fin)
    (hphrase : Phrase.find? (t :: ts) = none) : group t ts = .ok (t, 1) := by
  simp only [group, hnumber, bind, Except.bind, if_neg hfin, hphrase]

/-- Condensed tokens are the first group and what the tokens behind it are condensed to. -/
theorem exists_of_groups_cons {k : Nat} {us : List Token} (h : groups (k + 1) (t :: ts) = .ok us) :
    ∃ u n rest, group t ts = .ok (u, n) ∧ groups k ((t :: ts).drop n) = .ok rest ∧
      us = u :: rest := by
  rw [groups] at h
  cases hgroup : group t ts with
  | error e =>
    rw [hgroup] at h
    cases h
  | ok r =>
    obtain ⟨u, n⟩ := r
    cases hrest : groups k ((t :: ts).drop n) with
    | error e =>
      simp only [hgroup, hrest, bind, Except.bind] at h
      cases h
    | ok rest =>
      simp only [hgroup, hrest, bind, Except.bind] at h
      cases h
      exact ⟨u, n, rest, rfl, hrest, rfl⟩

end group

end Condense

end Prose
