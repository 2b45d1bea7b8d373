import Prose.Proofs.Number.Tally

namespace Prose.Number

def Part.digit (d : Fin 10) : Part :=
  .small (d.castLE (by decide))

namespace Magnitude

variable {a b : Magnitude} {n d : ℕ}

/-- One more digit behind a fraction is added exactly. -/
theorem exists_add?_digit_toRat (ha : a.IsFraction n) (hd : d < 10)
    (hb : of? d (n + 1) = some b) :
    ∃ c, a.add? b = some c ∧ c.IsFraction (n + 1) ∧ c.toRat = a.toRat + d / 10 ^ (n + 1) := by
  obtain ⟨c, hc, hfraction⟩ := exists_add?_digit ha hd hb
  refine ⟨c, hc, hfraction, ?_⟩
  obtain ⟨hmantissa, hscale⟩ := eq_of_of? hb
  have hn : n + 1 ≤ maxScale := hscale ▸ b.scale_le
  have hlt := ha.mantissa_add_digit_lt hd
  -- The sum is a decimal in the places of the digit, so rounding it changes nothing.
  let sum : Magnitude := ⟨a.mantissa * Nat.pow 10 (n + 1 - a.scale) + d, n + 1,
    Nat.le_trans (Nat.le_of_lt hlt) (pow_le_maxMantissa hn), hn⟩
  have hsum : sum.toRat = a.toRat + b.toRat := by
    rw [toRat_eq_div (Nat.le_succ_of_le ha.scale_le), toRat, toRat, hmantissa, hscale, ← add_div]
    push_cast [sum, Nat.pow_eq]
    rfl
  have hrounds := rounds_add? a b
  rw [hc, ← hsum] at hrounds
  cases hrounds with
  | some h =>
    rw [h.eq_magnitude, hsum, add_right_inj, toRat, hmantissa, hscale]

end Magnitude

namespace Spelled

variable {p q : Progress} {c : Tally} {t : Token} {n : ℕ} {x : ℚ} {ds : List Token}

structure Progress.Reads (p : Progress) (c : Tally) (n : ℕ) (x : ℚ) : Prop where
  isPartial : p.IsPartial
  places : p.places = n
  total : p.total.IsNatural c.total
  group : p.group.IsNatural c.group
  fraction : p.fraction.toRat = x

/-- `point` in front of a digit begins a fraction without digits. -/
theorem reads_point (hp : p.Holds c) :
    Progress.Reads { p with inFraction := true, afterScale := false } c 0 0 := by
  refine ⟨isPartial_point hp.whole, hp.whole.places, hp.total, hp.group, ?_⟩
  rw [hp.whole.fraction, Magnitude.toRat]
  exact zero_div _

theorem keyword_eq_point (h : t.IsWord "point") : t.keyword = .point := by
  have hrole : Keyword.ofFolded "point" = .point := by decide +kernel
  rw [h.keyword, hrole]

/-- A whole number goes on with `point` and the digits behind it. -/
theorem passes_point (hp : p.IsWhole) (ht : t.IsWord "point") {digits : List (Fin 10)}
    (hds : Spells ds (digits.map Part.digit)) (hne : digits ≠ [])
    (h : Passes { p with inFraction := true, afterScale := false } ds q) :
    Passes p (t :: ds) q := by
  refine .cons ?_ h
  rw [step_point hp.inFraction (keyword_eq_point ht), if_pos]
  cases digits with
  | nil => exact absurd rfl hne
  | cons d digits =>
    cases hds with
    | cons hd _ => exact beq_iff_eq.mpr (Part.keyword_of_isWord hd)

/-- A digit is added in its place. -/
theorem exists_step_digit (hp : p.Reads c n x) (hn : n < maxScale) {d : Fin 10}
    (ht : t.IsWord (Part.digit d).text) (following : Option Token) :
    ∃ p', step p t following = .next p' ∧ p'.Reads c (n + 1) (x + (d : ℕ) / 10 ^ (n + 1)) := by
  have hword : t.keyword = .numberWord := Part.keyword_of_isWord ht
  have hdigit : cardinal? (Part.digit d).text = some (d : ℕ) := Part.cardinal?_text trivial
  have hfits : (d : ℕ) ≤ maxMantissa := (Part.digit d).amount_le
  have hplace : Magnitude.of? d (n + 1) = some ⟨d, n + 1, hfits, hn⟩ :=
    Magnitude.of?_eq_some hfits hn
  have hfraction : p.fraction.IsFraction n := hp.places ▸ hp.isPartial.fraction
  obtain ⟨a, ha, hless, hsum⟩ := Magnitude.exists_add?_digit_toRat hfraction d.isLt hplace
  refine ⟨{ p with fraction := a, places := p.places + 1, afterScale := false }, ?_, ?_⟩
  · rw [step_of_numberWord hword, cardinalStep, ht.text, hdigit]
    simp only [hp.isPartial.inFraction, if_true, Option.getD_some, ge_iff_le,
      if_neg (Nat.not_le_of_lt d.isLt), hp.places, hplace, ha, Step.ofOption]
  · refine ⟨⟨hp.isPartial.inFraction, ?_, ?_⟩, ?_, hp.total, hp.group, ?_⟩
    · rw [hp.places]
      exact hless
    · rw [hp.places]
      exact hn
    · rw [hp.places]
    · rw [hsum, hp.fraction]

/-- Digits that have places are all read. -/
theorem exists_passes_digits (hp : p.Reads c n x) {digits : List (Fin 10)}
    (hds : Spells ds (digits.map Part.digit)) (hn : n + digits.length ≤ maxScale) :
    ∃ q, Passes p ds q ∧ q.Reads c (n + digits.length) (x + fraction digits / 10 ^ n) := by
  induction digits generalizing p n x ds with
  | nil =>
    cases hds
    refine ⟨p, .nil, ?_⟩
    rw [fraction_nil, zero_div, add_zero]
    exact hp
  | cons d digits ih =>
    rw [List.length_cons] at hn
    cases hds with
    | cons ht hds =>
      obtain ⟨p', hstep, hp'⟩ := exists_step_digit hp (by omega) ht _
      obtain ⟨q, hpasses, hq⟩ := ih hp' hds (by omega)
      refine ⟨q, .cons hstep hpasses, ?_⟩
      have hvalue : x + fraction (d :: digits) / 10 ^ n =
          x + (d : ℕ) / 10 ^ (n + 1) + fraction digits / 10 ^ (n + 1) := by
        rw [fraction_cons, div_div, ← pow_succ', add_div, add_assoc]
      rw [hvalue, List.length_cons, Nat.add_comm digits.length, ← Nat.add_assoc]
      exact hq

/-- The value is the sum of the whole number and the fraction, rounded. -/
theorem Progress.Reads.rounds_value? (hp : p.Reads c n x) (hfits : c.value ≤ maxMantissa) :
    Rounds (c.value + x) p.value? := by
  have hwhole : p.total.add? p.group = some (.natural c.value hfits) := by
    rw [hp.total.add? hp.group]
    exact (Magnitude.isNatural_natural hfits).of?_eq
  have hrounds := Magnitude.rounds_add? (.natural c.value hfits) p.fraction
  rw [(Magnitude.isNatural_natural hfits).toRat_eq, hp.fraction] at hrounds
  rw [Progress.value?, hwhole]
  exact hrounds

end Spelled

/-- Behind a whole number, `point` and digits give one number token. It is read as the sum of both,
rounded to as many places as there is room for, and as the sum itself wherever some decimal is the
sum. -/
theorem condense_fraction {ws : List Token} {parts : List Part} (hws : Spells ws parts) {u : Token}
    {d : Decimal} (hu : condense ws = .ok [u]) (hd : u.ReadsAs d) (hsmall : d.toRat < 10 ^ 12)
    {point : Token} (hpoint : point.IsWord "point") {ds : List Token} {digits : List (Fin 10)}
    (hds : Spells ds (digits.map Part.digit)) (hne : digits ≠ []) (hlength : digits.length ≤ 28)
    {signs : List Token} {negative : Bool} (hsign : IsSign negative signs) :
    ∃ w e, condense (signs ++ (ws ++ point :: ds)) = .ok [w] ∧ w.ReadsAs e ∧
      IsRounded (withSign negative (d.toRat + fraction digits)) e.toRat e.magnitude.scale ∧
      ((∃ a : Decimal, a.toRat = withSign negative (d.toRat + fraction digits)) →
        e.toRat = withSign negative (d.toRat + fraction digits)) := by
  obtain ⟨v, vs, q, m, rfl, hkind, hword, hwhole, hvalue, hreads⟩ :=
    passes_of_condense hws.mem_roles hu hd.1
  have hq := hwhole.holds hws Spelled.holds_start
  rw [hq.value?_eq] at hvalue
  have hm := Magnitude.isNatural_of_of? hvalue
  have hwholeValue : d.toRat = (Tally.start.count parts).value := by
    rw [hd.eq hreads, hm.toRat_signed, withSign_false]
  have hfits : (Tally.start.count parts).value ≤ maxMantissa := hm.mantissa ▸ m.mantissa_le
  obtain ⟨r, hdigits, hr⟩ :=
    Spelled.exists_passes_digits (Spelled.reads_point hq) hds ((Nat.zero_add _).trans_le hlength)
  have hall := hwhole.append (Spelled.passes_point hq.whole hpoint hds hne hdigits)
    (Spelled.ne_numberWord_of_point (Spelled.keyword_eq_point hpoint))
  -- Only the sum with the whole part may be rounded: the digits of the fraction were added exactly.
  have hrounds := hr.rounds_value? hfits
  rw [pow_zero, div_one, zero_add, ← hwholeValue] at hrounds
  generalize hsum : r.value? = sum at hrounds
  cases hrounds with
  | none hlarge =>
    -- The sum is far too small for that.
    have hlt := fraction_lt_one digits
    have hmax : (10 ^ 12 + 1 : ℚ) ≤ maxMantissa := by norm_num [maxMantissa]
    linarith
  | some hrounded =>
    obtain ⟨w, hcondense, hw⟩ := condense_of_passes hsign hkind hword hall hsum
    have hsigned := hrounded.withSign negative
    rw [← Decimal.toRat_signed] at hsigned
    refine ⟨w, _, hcondense, hw, hsigned, ?_⟩
    rintro ⟨e, he⟩
    rw [← he] at hsigned ⊢
    exact IsRounded.eq hsigned

/-- Minus seven hundred and `point` with three digits. -/
theorem condense_fraction_signedDigits :
    let words := [Part.small 7, .hundred].map (Part.token ⟨1, 10, "t"⟩)
    let digits := ([2, 0, 5].map Part.digit).map (Part.token ⟨1, 30, "t"⟩)
    (∃ u d, condense words = .ok [u] ∧ u.ReadsAs d ∧ d.toRat = 700) ∧
      ∃ w e, condense ([.ofText .word "negative" ⟨1, 1, "t"⟩] ++
          (words ++ .ofText .word "point" ⟨1, 24, "t"⟩ :: digits)) = .ok [w] ∧
        w.ReadsAs e ∧ e.toRat = -(700205 / 1000) := by
  have hcondense : condense ([Part.small 7, .hundred].map (Part.token ⟨1, 10, "t"⟩)) =
      .ok [(Decimal.mk false (.natural 700)).token ⟨1, 10, "t"⟩] := by
    refine eq_ok_of_toOption ?_
    decide +kernel
  have hreads := readsAs_token false (.natural 700) ⟨1, 10, "t"⟩
  have hvalue := (Magnitude.isNatural_natural (n := 700) (by decide)).toRat_signed false
  have hdigits : ((700205 : ℕ) : ℚ) / 10 ^ 3 = (700 : ℕ) + fraction [2, 0, 5] :=
    appendDigits_div 700 [2, 0, 5]
  have hsum : (Decimal.mk true ⟨700205, 3, by decide, by decide⟩).toRat =
      withSign true ((Decimal.signed false (.natural 700)).toRat + fraction [2, 0, 5]) := by
    rw [hvalue, withSign_false, ← hdigits]
    rfl
  have hpoint : (Token.ofText .word "point" ⟨1, 24, "t"⟩).IsWord "point" :=
    Token.isWord_ofText (by decide +kernel) _
  have hsmall : (Decimal.signed false (.natural 700)).toRat < 10 ^ 12 := by
    rw [hvalue, withSign_false]
    norm_num
  -- With three places there is room, so the value is the sum itself.
  obtain ⟨w, e, hall, he, -, hexact⟩ := condense_fraction (spells_map_token _ _) hcondense hreads
    hsmall hpoint (spells_map_token ⟨1, 30, "t"⟩ ([2, 0, 5].map Part.digit))
    (by decide) (by decide) (isSign_ofText ⟨1, 1, "t"⟩)
  refine ⟨⟨_, _, hcondense, hreads, hvalue⟩, w, e, hall, he, ?_⟩
  rw [hexact ⟨_, hsum⟩, ← hsum]
  norm_num [Decimal.toRat, withSign, Magnitude.toRat]

/-- Eight, `point` and twenty-eight ones are one digit too many: the last one is rounded away. -/
theorem condense_fraction_ne_eightPointOnes :
    let words := [Part.token ⟨1, 1, "t"⟩ (.small 8)]
    let digits := ((List.replicate 28 1).map Part.digit).map (Part.token ⟨1, 13, "t"⟩)
    ∃ w e, condense (words ++ .ofText .word "point" ⟨1, 7, "t"⟩ :: digits) = .ok [w] ∧
      w.ReadsAs e ∧ e.toRat ≠ 8 + fraction (List.replicate 28 1) := by
  have hcondense : condense ([Part.token ⟨1, 1, "t"⟩ (.small 8)] ++
      .ofText .word "point" ⟨1, 7, "t"⟩ ::
        ((List.replicate 28 1).map Part.digit).map (Part.token ⟨1, 13, "t"⟩)) =
      .ok [(Decimal.mk false ⟨8111111111111111111111111111, 27, by decide, by decide⟩).token
        ⟨1, 1, "t"⟩] := by
    refine eq_ok_of_toOption ?_
    decide +kernel
  have hdigits : ((81111111111111111111111111111 : ℕ) : ℚ) / 10 ^ 28 =
      (8 : ℕ) + fraction (List.replicate 28 1) :=
    appendDigits_div 8 (List.replicate 28 1)
  refine ⟨_, _, hcondense, readsAs_token false _ _, ?_⟩
  rw [← Nat.cast_ofNat (R := ℚ), ← hdigits, Decimal.toRat_signed, withSign_false]
  norm_num [Magnitude.toRat]

end Prose.Number
