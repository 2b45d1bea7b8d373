import Prose.Proofs.Condense
import Prose.Proofs.Expr.Alone
import Prose.Proofs.Expr.RoundTrip.Frame
import Prose.Proofs.Number.Reading
import Prose.Proofs.Number.Run
import Prose.Proofs.Number.Value
import Prose.Proofs.Token.Shapes

namespace Prose

open Prose.Expr Grammar

/-- The token is a number, and alone it is read as the literal with this value. -/
def Token.ReadsAs (t : Token) (d : Number.Decimal) : Prop :=
  t.kind = .number ∧ ∀ (a : ℕ) (o : Options) (observers : ℕ), 0 < o.maxNestingDepth →
    (⟨a, [t]⟩ : Slice).selection o observers =
      .ok (some (Form.number.rule, .literal t.position (.number d)))

section readsAs

variable {t : Token} {d e : Number.Decimal}

theorem Token.ReadsAs.eq (h : t.ReadsAs d) (h' : t.ReadsAs e) : d = e := by
  have hread := h.2 0 {} 0 (by decide)
  rw [h'.2 0 {} 0 (by decide)] at hread
  cases hread
  rfl

/-- A token that denotes a number is read as it. -/
theorem Token.Denotes.readsAs (h : t.Denotes (.number d)) : t.ReadsAs d := by
  obtain ⟨hkind, hkeyword, hvalue⟩ := h
  refine ⟨hkind, fun a o observers ho => ?_⟩
  have hverdict : standard.verdict .number ⟨a, [t]⟩ =
      .ok (some (.literal t.position (.number d))) := by
    refine verdict_of_read_eq ?_
    simp only [Form.read, readNumber, readToken, if_pos hkind, literalOr, hvalue]
    rfl
  have hroom : (⟨a, [t]⟩ : Slice).length ≤ o.maxNestingDepth := ho
  rw [selection_eq_outcome hroom]
  refine outcome_of_token ?_ hverdict
  rw [hkind]
  rcases hkeyword with hkeyword | hkeyword <;> rw [hkeyword] <;> decide

end readsAs

namespace Number

/-- Without the sign of a zero a decimal is worth the same. -/
theorem Decimal.toRat_signed (negative : Bool) (m : Magnitude) :
    (Decimal.signed negative m).toRat = withSign negative m.toRat := by
  rw [Decimal.signed, Decimal.toRat]
  cases hzero : m.isZero with
  | false => rw [Bool.not_false, Bool.and_true]
  | true =>
    have hvalue : m.toRat = 0 := by
      rw [Magnitude.toRat, beq_iff_eq.mp hzero, Nat.cast_zero, zero_div]
    rw [Bool.not_true, Bool.and_false, hvalue]
    cases negative with
    | false => rfl
    | true => exact neg_zero.symm

/-- The digits of a magnitude are those of a number. -/
theorem Magnitude.isUnsigned_digits (m : Magnitude) : Shape.isUnsigned m.digits = true := by
  have hlength := m.scale_lt_length_padded
  have hne : m.padded.take (m.padded.length - m.scale) ≠ [] := by
    rw [← List.length_pos_iff, List.length_take]
    omega
  have hwhole : ∀ c ∈ m.padded.take (m.padded.length - m.scale), c.isDigit = true :=
    fun c hc => m.isDigit_padded c (List.mem_of_mem_take hc)
  rw [digits_eq]
  split
  · rw [List.append_nil]
    exact Shape.isUnsigned_of_digits hne hwhole
  · rename_i hscale
    refine Shape.isUnsigned_of_decimal hne hwhole ?_ fun c hc =>
      m.isDigit_padded c (List.mem_of_mem_drop hc)
    rw [← List.length_pos_iff, List.length_drop]
    omega

/-- Digits with a minus sign before them, or without one, have the shape of a number. -/
theorem isNumber_of_isUnsigned {c : Char} {cs : List Char} (hc : c.isDigit = true)
    (h : Shape.isUnsigned (c :: cs) = true) (negative : Bool) :
    Shape.isNumber (if negative then '-' :: c :: cs else c :: cs) = true := by
  cases negative with
  | true => exact h
  | false => exact (Shape.isNumber_of_isDigit hc cs).trans h

theorem Decimal.isNumber_render (negative : Bool) (m : Magnitude) :
    Shape.isNumber (Decimal.mk negative m).render.toList = true := by
  obtain ⟨c, cs, hcs, hc⟩ := m.exists_digits
  have hdigits := m.isUnsigned_digits
  rw [hcs] at hdigits
  rw [Decimal.render, String.toList_ofList, hcs]
  exact isNumber_of_isUnsigned hc hdigits negative

def Decimal.token (d : Decimal) (p : Position) : Token :=
  ⟨.number, d.render, .numericLiteral, p⟩

/-- It is read as the decimal, but for the sign of a zero. -/
theorem readsAs_token (negative : Bool) (m : Magnitude) (p : Position) :
    ((Decimal.mk negative m).token p).ReadsAs (.signed negative m) := by
  refine Token.Denotes.readsAs ⟨rfl, .inr rfl, ?_⟩
  have hshape : Shape.ofText (Decimal.mk negative m).render = .number :=
    if_pos (Decimal.isNumber_render negative m)
  rw [Decimal.token, Token.numberValue, if_pos hshape, Decimal.read?_render]

end Number

/-- The token is the word, in whatever case and with whatever accents. -/
structure Token.IsWord (t : Token) (word : String) : Prop where
  kind : t.kind = .word
  text : Text.fold t.text = word
  keyword : t.keyword = .ofFolded word

/-- A folded word is the word. -/
theorem Token.isWord_ofText {word : String} (h : Text.fold word = word) (p : Position) :
    (Token.ofText .word word p).IsWord word where
  kind := rfl
  text := h
  keyword := by
    simp only [Token.ofText, Token.Kind.isPlain, Bool.false_eq_true, if_false, Keyword.ofText, h]

inductive IsSign : Bool → List Token → Prop
  | positive : IsSign false []
  | negative {t} (h : t.IsWord "negative") : IsSign true [t]

theorem isSign_ofText (p : Position) : IsSign true [.ofText .word "negative" p] :=
  .negative (Token.isWord_ofText (by decide +kernel) p)

namespace Condense

variable {t u : Token} {ts run : List Token} {n : ℕ}

/-- A number that takes all tokens is all there is. -/
theorem condense_of_spelled (h : Number.spelled? run = .ok (some (u, run.length))) :
    condense run = .ok [u] := by
  cases run with
  | nil => cases h
  | cons t ts =>
    have hgroup : group t ts = .ok (u, (t :: ts).length) := by
      rw [group, h]
      rfl
    have hnil : groups ts.length [] = .ok [] := by cases ts <;> rfl
    rw [condense, List.length_cons, groups, hgroup]
    simp only [bind, Except.bind, List.drop_length, hnil]

theorem condense_of_error {e : CondenseFailure} (h : Number.spelled? run = .error e) :
    condense run = .error e := by
  cases run with
  | nil => cases h
  | cons t ts =>
    rw [condense, List.length_cons, groups, group, h]
    rfl

theorem eq_nil_of_groups (hn : ts.length ≤ n) (h : groups n ts = .ok []) : ts = [] := by
  cases ts with
  | nil => rfl
  | cons t ts =>
    have hpos : 0 < n := Nat.lt_of_lt_of_le (Nat.succ_pos _) hn
    obtain ⟨n, rfl⟩ := Nat.exists_eq_add_one_of_ne_zero (Nat.ne_of_gt hpos)
    obtain ⟨u, taken, rest, -, -, hus⟩ := exists_of_groups_cons h
    cases hus

/-- Tokens that are condensed to one are one group. -/
theorem isGroup_of_condense (h : condense (t :: ts) = .ok [u]) :
    ∃ n, (t :: ts).length ≤ n ∧ IsGroup t ts u n := by
  rw [condense, List.length_cons] at h
  obtain ⟨v, n, rest, hgroup, hrest, hus⟩ := exists_of_groups_cons h
  cases hus
  have hpos := pos_of_group hgroup
  have hshorter : ((t :: ts).drop n).length ≤ ts.length := by
    rw [List.length_drop, List.length_cons]
    omega
  exact ⟨n, List.drop_eq_nil_iff.mp (eq_nil_of_groups hshorter hrest), isGroup_of_group hgroup⟩

end Condense

namespace Number

variable {t u : Token} {ts signs : List Token} {negative : Bool} {q : Spelled.Progress}
  {m : Magnitude}

/-- A number in words is read with the sign word before it. -/
theorem spelled?_of_isSign (hsign : IsSign negative signs) (hkind : t.kind = .word)
    (hword : t.keyword = .numberWord) (ts : List Token) :
    ∃ p, spelled? (signs ++ t :: ts) =
      (Spelled.token negative (signs ++ t :: ts) signs.length p).map some := by
  cases hsign with
  | positive =>
    have hunsigned : t.keyword ≠ .negative := by
      rw [hword]
      decide
    refine ⟨t.position, ?_⟩
    rw [List.nil_append, spelled?.eq_def]
    simp only [if_neg hunsigned, if_pos hword]
    rfl
  | @negative sign h =>
    have hkeyword : sign.keyword = .negative := h.keyword
    have hliteral : ¬ (t.kind = .number ∧ t.text.toList.head? ≠ some '-') := by
      rw [hkind]
      rintro ⟨⟨⟩, -⟩
    refine ⟨sign.position, ?_⟩
    rw [List.singleton_append, spelled?.eq_def]
    simp only [if_pos hkeyword, if_neg hliteral, if_pos hword]
    rfl

/-- Words of which no number token can be made are not condensed. -/
theorem condense_of_token {e : CondenseFailure} (hkind : t.kind = .word)
    (hword : t.keyword = .numberWord)
    (h : ∀ p, Spelled.token false (t :: ts) 0 p = .error e) : condense (t :: ts) = .error e := by
  obtain ⟨p, hspelled⟩ := spelled?_of_isSign .positive hkind hword ts
  rw [List.nil_append, List.length_nil, h p] at hspelled
  exact Condense.condense_of_error hspelled

/-- The words of a number become the token of its value. -/
theorem condense_of_passes (hsign : IsSign negative signs) (hkind : t.kind = .word)
    (hword : t.keyword = .numberWord) (h : Spelled.Passes .start (t :: ts) q)
    (hvalue : q.value? = some m) :
    ∃ u, condense (signs ++ t :: ts) = .ok [u] ∧ u.ReadsAs (.signed negative m) := by
  obtain ⟨p, hspelled⟩ := spelled?_of_isSign hsign hkind hword ts
  refine ⟨_, Condense.condense_of_spelled ?_, readsAs_token negative m p⟩
  have hend : ∀ u ∈ ([] : List Token).head?, u.keyword ≠ .numberWord := fun u hu => by cases hu
  have hread := h.read_append hend (signs ++ t :: ts) signs.length
  rw [List.append_nil] at hread
  rw [hspelled, Spelled.token, List.drop_left, hread]
  simp only [Spelled.read, bind, Except.bind, hvalue, Except.map, List.length_append,
    Decimal.token]

/-- Words that are condensed to one number make it up: all of them go on with it. -/
theorem passes_of_condense (hroles : ∀ v ∈ ts, v.kind = .word ∧ v.keyword ∈ roles)
    (h : condense ts = .ok [u]) (hu : u.kind = .number) :
    ∃ v vs q m, ts = v :: vs ∧ v.kind = .word ∧ v.keyword = .numberWord ∧
      Spelled.Passes .start ts q ∧ q.value? = some m ∧ u.ReadsAs (.signed false m) := by
  cases ts with
  | nil => cases h
  | cons t ts =>
    obtain ⟨hkind, hrole⟩ := hroles t (List.mem_cons_self ..)
    obtain ⟨n, hn, hgroup⟩ := Condense.isGroup_of_condense h
    cases hgroup with
    | number hnumber =>
      -- None of the roles is a sign, so the number begins with its first number word.
      rw [spelled?.eq_def] at hnumber
      have hunsigned : t.keyword ≠ .negative := by
        intro hsign
        rw [hsign] at hrole
        exact absurd hrole (by decide)
      simp only [if_neg hunsigned] at hnumber
      split at hnumber
      · rename_i hword
        obtain ⟨q, m, hread, hvalue, rfl⟩ := Spelled.exists_of_token (eq_ok_of_map hnumber)
        rw [List.drop_zero] at hread
        -- The group is all that there is, so the run of its words is, too.
        have htaken : n = 0 + (t :: ts).length := by
          obtain ⟨words, rest, hwords, rfl, -⟩ := Spelled.isLongestRun_of_read hword hread
          rw [hwords, List.length_append] at hn ⊢
          omega
        rw [htaken] at hread
        exact ⟨t, ts, q, m, rfl, hkind, hword, Spelled.passes_of_read hread, hvalue,
          readsAs_token false m t.position⟩
      · cases hnumber
    | fin hfin =>
      rw [hfin] at hrole
      exact absurd hrole (by decide)
    | phrase hnumber hphrase =>
      -- No phrase begins with a word of a number.
      have hlead : ∀ p ∈ Phrase.all, p.lead ∉ roles := by decide
      obtain ⟨hp, hkeyword⟩ := Phrase.mem_of_find hphrase
      rw [hkeyword] at hrole
      exact absurd hrole (hlead _ hp)
    | alone =>
      rw [hkind] at hu
      cases hu

end Number

end Prose
