import Prose.Proofs.Number.Literal

namespace Prose

open Prose.Expr Grammar

def Token.invalidNumber (t : Token) : Problem :=
  { cause := .literal (.notANumber t.text), origin := "parse_number", tokens := [t] }

namespace Number

def digitChar (d : Fin 10) : Char :=
  Nat.digitChar d

structure Digits where
  negative : Bool
  whole : List (Fin 10)
  places : List (Fin 10)
  whole_ne : whole ≠ []

namespace Digits

def tail : List (Fin 10) → List Char
  | [] => []
  | places => '.' :: places.map digitChar

def unsigned (n : Digits) : List Char :=
  n.whole.map digitChar ++ tail n.places

def text (n : Digits) : String :=
  String.ofList (if n.negative then '-' :: n.unsigned else n.unsigned)

def toRat (n : Digits) : ℚ :=
  withSign n.negative (appendDigits 0 n.whole + fraction n.places)

def token (n : Digits) (p : Position) : Token :=
  ⟨.number, n.text, .numericLiteral, p⟩

end Digits

theorem isDigit_digitChar (d : Fin 10) : (digitChar d).isDigit = true := by
  revert d
  decide

theorem digitValue_digitChar (d : Fin 10) : Magnitude.digitValue (digitChar d) = d := by
  revert d
  decide

theorem isDigit_of_mem_map {ds : List (Fin 10)} {c : Char} (hc : c ∈ ds.map digitChar) :
    c.isDigit = true := by
  obtain ⟨d, -, rfl⟩ := List.mem_map.mp hc
  exact isDigit_digitChar d

namespace Magnitude

section rounding

variable {a : Magnitude} {d : ℕ} {y : ℚ}

/-- The largest mantissa gives up its last place when it is rounded up. -/
theorem rounds_shorter (hm : a.mantissa = maxMantissa) (hscale : a.scale ≠ 0) (hhalf : 1 / 2 ≤ y)
    (hlt : y < 1) :
    Rounds ((a.mantissa + y) / 10 ^ a.scale) (of? ((a.mantissa + 5) / 10) (a.scale - 1)) := by
  obtain ⟨n, hn⟩ := Nat.exists_eq_add_one_of_ne_zero hscale
  have hle : n ≤ maxScale := Nat.le_of_succ_le (hn.symm.trans_le a.scale_le)
  have hshort : (maxMantissa + 5) / 10 ≤ maxMantissa := by decide
  have hten : 10 * (((maxMantissa + 5) / 10 : ℕ) : ℚ) = maxMantissa + 5 := by
    have hdivides : 10 * ((maxMantissa + 5) / 10) = maxMantissa + 5 := by decide
    exact_mod_cast hdivides
  have hpos : (0 : ℚ) < 10 ^ n := by positivity
  have hmax : (0 : ℚ) ≤ maxMantissa := Nat.cast_nonneg _
  have hsplit : ((maxMantissa : ℚ) + y) / 10 ^ (n + 1) = (maxMantissa + y) / 10 / 10 ^ n := by
    rw [pow_succ', div_div]
  rw [hm, hn, Nat.add_sub_cancel, of?_eq_some hshort hle]
  refine .some ⟨?_, .inr (.inr ?_)⟩ ?_
  · have hnear : |(((maxMantissa + 5) / 10 : ℕ) : ℚ) - (maxMantissa + y) / 10| ≤ 1 / 2 := by
      rw [abs_le]
      constructor <;> linarith
    rw [toRat, hsplit, ← sub_div, abs_div, abs_of_pos hpos, ← div_div]
    exact div_le_div_of_nonneg_right hnear hpos.le
  · rw [abs_of_nonneg (by positivity), div_mul_cancel₀ _ (by positivity)]
    linarith
  · have hdrop : ((maxMantissa : ℚ) + y) / 10 / 10 ^ n ≤ (maxMantissa + y) / 10 :=
      div_pow_ten_le (by positivity) n
    rw [hsplit]
    linarith

/-- Rounding by the first digit left over is rounding to the nearest, if `y` in the next place is
left over and there is no room for more of it. -/
theorem rounds_roundUp? (hy : 0 ≤ y) (hlt : y < 1) (hdown : d < 5 → y < 1 / 2)
    (hup : 5 ≤ d → 1 / 2 ≤ y)
    (hfull : a.scale = maxScale ∨ (maxMantissa : ℚ) < (a.mantissa + y) * 10) :
    Rounds ((a.mantissa + y) / 10 ^ a.scale) (roundUp? a d) := by
  have hpos : (0 : ℚ) < 10 ^ a.scale := by positivity
  have hle : (a.mantissa + y) / 10 ^ a.scale ≤ a.mantissa + y := div_pow_ten_le (by positivity) _
  have hmantissa : (a.mantissa : ℚ) ≤ maxMantissa := by exact_mod_cast a.mantissa_le
  -- One more place would be one too many, or would make the mantissa too large.
  have hroom : a.scale = maxScale ∨
      (maxMantissa : ℚ) < |(a.mantissa + y) / 10 ^ a.scale| * 10 ^ (a.scale + 1) := by
    refine hfull.imp_right fun h => ?_
    rw [abs_of_nonneg (by positivity), pow_succ, ← mul_assoc, div_mul_cancel₀ _ hpos.ne']
    exact h
  have hnear (k : ℚ) (hk : |k - y| ≤ 1 / 2) :
      |(a.mantissa + k) / 10 ^ a.scale - (a.mantissa + y) / 10 ^ a.scale| ≤
        1 / (2 * 10 ^ a.scale) := by
    rw [← sub_div, abs_div, abs_of_pos hpos, add_sub_add_left_eq_sub, ← div_div]
    exact div_le_div_of_nonneg_right hk hpos.le
  rw [roundUp?]
  split
  · rename_i hsmall
    have hhalf := hdown hsmall
    have hzero := hnear 0 (by rw [abs_le]; constructor <;> linarith)
    rw [add_zero] at hzero
    exact .some ⟨hzero, .inr hroom⟩ (by linarith)
  rename_i hlarge
  have hhalf := hup (Nat.le_of_not_lt hlarge)
  split
  · rename_i hfits
    have hfits' : (a.mantissa : ℚ) + 1 ≤ maxMantissa := by exact_mod_cast hfits
    have hone := hnear 1 (by rw [abs_le]; constructor <;> linarith)
    rw [of?_eq_some hfits a.scale_le]
    refine .some ⟨?_, .inr hroom⟩ (by linarith)
    rw [toRat]
    push_cast
    exact hone
  rename_i hmax
  -- The mantissa cannot be rounded up any more, so a place is given up if there is one.
  have hmax : a.mantissa = maxMantissa := Nat.le_antisymm a.mantissa_le (Nat.le_of_not_lt hmax)
  split
  · rename_i hscale
    refine .none ?_
    rw [hscale, pow_zero, div_one, hmax]
    linarith
  · rename_i hscale
    exact rounds_shorter hmax hscale hhalf hlt

end rounding

section reading

variable {a b : Magnitude} {d : ℕ}

theorem isRest_map_digitChar (places : List (Fin 10)) :
    isRest (places.map digitChar) = true := by
  refine List.all_eq_true.mpr fun c hc => ?_
  rw [isDigit_of_mem_map hc, Bool.true_or]

/-- A digit is left over where there is no place for it or no room in the mantissa. -/
theorem push?_point_eq_none (h : push? true a d = none) :
    a.scale = maxScale ∨ maxMantissa < a.mantissa * 10 + d := by
  rw [push?, if_pos rfl] at h
  split at h
  · rename_i hscale
    exact .inl hscale
  · rename_i hscale
    refine .inr (Nat.lt_of_not_le fun hle => ?_)
    rw [of?_eq_some hle (Nat.lt_of_le_of_ne a.scale_le hscale)] at h
    cases h

theorem eq_of_push?_point (h : push? true a d = some b) :
    b.mantissa = a.mantissa * 10 + d ∧ b.scale = a.scale + 1 := by
  rw [push?, if_pos rfl] at h
  split at h
  · cases h
  · exact eq_of_of? h

/-- The digits behind the point are read as their number, rounded. -/
theorem rounds_places (a : Magnitude) (places : List (Fin 10)) :
    Rounds (a.toRat + fraction places / 10 ^ a.scale)
      (readFrom true true a (places.map digitChar)) := by
  induction places generalizing a with
  | nil =>
    rw [fraction_nil, zero_div, add_zero]
    exact a.rounds_self
  | cons d places ih =>
    rw [List.map_cons, readFrom, if_pos (isDigit_digitChar d), digitValue_digitChar]
    cases hpush : push? true a d with
    | some b =>
      obtain ⟨hmantissa, hscale⟩ := eq_of_push?_point hpush
      have hvalue : a.toRat + fraction (d :: places) / 10 ^ a.scale =
          b.toRat + fraction places / 10 ^ b.scale := by
        rw [toRat, toRat, hmantissa, hscale, fraction_cons, pow_succ]
        push_cast
        field_simp
        ring
      rw [hvalue]
      exact ih b
    | none =>
      -- There is no room for the digit: it rounds, and the digits behind it are passed over.
      have hnonneg := fraction_nonneg places
      have hlt := fraction_lt_one places
      have hvalue : a.toRat + fraction (d :: places) / 10 ^ a.scale =
          (a.mantissa + fraction (d :: places)) / 10 ^ a.scale := by
        rw [toRat, ← add_div]
      simp only [Bool.true_and, isRest_map_digitChar, if_true]
      rw [hvalue]
      refine rounds_roundUp? (fraction_nonneg _) (fraction_lt_one _) (fun hd => ?_)
        (fun hd => ?_) ?_
      · have hd : ((d : ℕ) : ℚ) ≤ 4 := by exact_mod_cast Nat.le_of_lt_succ hd
        rw [fraction_cons]
        linarith
      · have hd : (5 : ℚ) ≤ (d : ℕ) := by exact_mod_cast hd
        rw [fraction_cons]
        linarith
      · refine (push?_point_eq_none hpush).imp_right fun hlarge => ?_
        have hlarge : (maxMantissa : ℚ) < a.mantissa * 10 + (d : ℕ) := by exact_mod_cast hlarge
        rw [fraction_cons]
        linarith

/-- The digits of a number are read as the number, rounded. -/
theorem rounds_readFrom {whole : List (Fin 10)} {seen : Bool} (hseen : seen = true ∨ whole ≠ [])
    (ha : a.scale = 0) (places : List (Fin 10)) :
    Rounds (appendDigits a.mantissa whole + fraction places)
      (readFrom false seen a (whole.map digitChar ++ Digits.tail places)) := by
  induction whole generalizing a seen with
  | nil =>
    have hvalue : (appendDigits a.mantissa [] : ℚ) = a.toRat := by
      rw [toRat, ha, pow_zero, div_one]
      rfl
    rw [hvalue, List.map_nil, List.nil_append, hseen.resolve_right fun hne => hne rfl]
    cases places with
    | nil =>
      rw [fraction_nil, add_zero]
      exact a.rounds_self
    | cons d places =>
      have hplaces := a.rounds_places (d :: places)
      rw [ha, pow_zero, div_one] at hplaces
      exact hplaces
  | cons d whole ih =>
    rw [List.map_cons, List.cons_append, readFrom, if_pos (isDigit_digitChar d),
      digitValue_digitChar, appendDigits_cons, Nat.mul_comm 10]
    cases hpush : push? false a d with
    | some b =>
      obtain ⟨hmantissa, hscale⟩ := eq_of_of? hpush
      rw [← hmantissa]
      exact ih (.inl rfl) hscale
    | none =>
      -- Before the point nothing is rounded, and further digits leave the number too large.
      have hlarge : maxMantissa < a.mantissa * 10 + d := of?_natural_eq_none_iff.mp hpush
      have hmore := Nat.le_trans hlarge (le_appendDigits (a.mantissa * 10 + d) whole)
      have hmore : (maxMantissa : ℚ) + 1 ≤ appendDigits (a.mantissa * 10 + d) whole := by
        exact_mod_cast hmore
      have hnonneg := fraction_nonneg places
      exact .none (by linarith)

end reading

end Magnitude

namespace Digits

theorem exists_unsigned (n : Digits) : ∃ c cs, n.unsigned = c :: cs ∧ c.isDigit = true := by
  obtain ⟨d, ds, hwhole⟩ := List.exists_cons_of_ne_nil n.whole_ne
  rw [unsigned, hwhole]
  exact ⟨_, _, rfl, isDigit_digitChar d⟩

theorem isUnsigned_unsigned (n : Digits) : Shape.isUnsigned n.unsigned = true := by
  have hwhole : ∀ c ∈ n.whole.map digitChar, c.isDigit = true := fun c hc => isDigit_of_mem_map hc
  have hne : n.whole.map digitChar ≠ [] := fun h => n.whole_ne (List.map_eq_nil_iff.mp h)
  rw [unsigned]
  cases n.places with
  | nil =>
    rw [tail, List.append_nil]
    exact Shape.isUnsigned_of_digits hne hwhole
  | cons d places =>
    exact Shape.isUnsigned_of_decimal hne hwhole (List.cons_ne_nil _ _) fun c hc =>
      isDigit_of_mem_map hc

theorem ofText_text (n : Digits) : Shape.ofText n.text = .number := by
  obtain ⟨c, cs, hcs, hc⟩ := n.exists_unsigned
  have hshape := n.isUnsigned_unsigned
  rw [hcs] at hshape
  refine if_pos ?_
  rw [text, String.toList_ofList, hcs]
  exact isNumber_of_isUnsigned hc hshape n.negative

/-- The text is read as the digits, with the sign. -/
theorem read?_text (n : Digits) :
    Decimal.read? n.text.toList = (Magnitude.read? n.unsigned).map (.signed n.negative) := by
  obtain ⟨c, cs, hcs, hc⟩ := n.exists_unsigned
  rw [text, String.toList_ofList, hcs, Decimal.read?_of_isDigit hc]

theorem rounds_read? (n : Digits) :
    Rounds (appendDigits 0 n.whole + fraction n.places) (Magnitude.read? n.unsigned) :=
  Magnitude.rounds_readFrom (a := .zero) (.inr n.whole_ne) rfl n.places

end Digits

section other

variable {cs : List Char}

theorem exists_digitChar {c : Char} (hc : c.isDigit = true) : ∃ d, c = digitChar d := by
  have hall : ∀ d : Fin 10, Char.ofNat (48 + d) = digitChar d := by decide
  obtain ⟨hlow, hhigh⟩ : 48 ≤ c.toNat ∧ c.toNat ≤ 57 := by
    rw [Char.isDigit, Bool.and_eq_true, decide_eq_true_iff, decide_eq_true_iff] at hc
    exact hc
  refine ⟨⟨c.toNat - 48, by omega⟩, ?_⟩
  rw [← hall, Nat.add_sub_cancel' hlow, Char.ofNat_toNat]

theorem exists_map_digitChar (h : ∀ c ∈ cs, c.isDigit = true) :
    ∃ ds : List (Fin 10), cs = ds.map digitChar := by
  induction cs with
  | nil => exact ⟨[], rfl⟩
  | cons c cs ih =>
    obtain ⟨hc, hcs⟩ := List.forall_mem_cons.mp h
    obtain ⟨d, rfl⟩ := exists_digitChar hc
    obtain ⟨ds, rfl⟩ := ih hcs
    exact ⟨d :: ds, rfl⟩

/-- Of the digits of all scripts, only those of the ASCII alphabet are read. -/
theorem isDigit_of_readFrom {point seen : Bool} {a b : Magnitude}
    (h : Magnitude.readFrom point seen a cs = some b)
    (hcs : ∀ c ∈ cs, Text.isDecimalDigit c = true ∨ c = '.') :
    ∀ c ∈ cs, c.isDigit = true ∨ c = '.' := by
  have hplain {c : Char} (hc : Text.isDecimalDigit c = true ∨ c = '.') : c ≠ '_' := by
    rintro rfl
    exact absurd hc (by decide +kernel)
  induction cs generalizing point seen a with
  | nil => exact List.forall_mem_nil _
  | cons c cs ih =>
    obtain ⟨hc, hcs⟩ := List.forall_mem_cons.mp hcs
    refine List.forall_mem_cons.mpr ?_
    rw [Magnitude.readFrom] at h
    split at h
    · rename_i hdigit
      refine ⟨.inl hdigit, ?_⟩
      split at h
      · exact ih h hcs
      · -- A digit may be the last one that there is room for, behind which the rest is only looked
        -- over.
        split at h
        · rename_i hrest
          rw [Bool.and_eq_true, Magnitude.isRest, List.all_eq_true] at hrest
          intro d hd
          have hrest := hrest.2 d hd
          rw [Bool.or_eq_true, beq_iff_eq] at hrest
          exact .inl (hrest.resolve_right (hplain (hcs d hd)))
        · cases h
    · split at h
      · rename_i hunderscore
        rw [Bool.and_eq_true, beq_iff_eq] at hunderscore
        exact absurd hunderscore.1 (hplain hc)
      · split at h
        · rename_i hpoint
          rw [Bool.and_eq_true, beq_iff_eq] at hpoint
          exact ⟨.inr hpoint.1, ih h hcs⟩
        · cases h

/-- What has the shape of a number is digits of any script, and perhaps a point and more of them. -/
theorem exists_of_isUnsigned (h : Shape.isUnsigned cs = true) :
    ∃ whole places, cs = whole ++ (if places = [] then [] else '.' :: places) ∧ whole ≠ [] ∧
      (∀ c ∈ whole, Text.isDecimalDigit c = true) ∧
      ∀ c ∈ places, Text.isDecimalDigit c = true := by
  have hdigits {ds : List Char} (h : Shape.isDigits ds = true) :
      ds ≠ [] ∧ ∀ c ∈ ds, Text.isDecimalDigit c = true := by
    rw [Shape.isDigits, Bool.and_eq_true, Bool.not_eq_true', List.isEmpty_eq_false_iff,
      List.all_eq_true] at h
    exact h
  rw [Shape.isUnsigned] at h
  split at h
  · obtain ⟨hne, hall⟩ := hdigits h
    exact ⟨cs, [], by rw [if_pos rfl, List.append_nil], hne, hall, List.forall_mem_nil _⟩
  · rename_i p places hsplit
    rw [Bool.and_eq_true] at h
    obtain ⟨hne, hwhole⟩ := hdigits h.1
    obtain ⟨hne', hplaces⟩ := hdigits h.2
    have hp : p = '.' := by
      have hhead := List.head?_dropWhile_not (· != '.') cs
      rw [hsplit] at hhead
      simpa using hhead
    subst hp
    refine ⟨_, places, ?_, hne, hwhole, hplaces⟩
    rw [if_neg hne', ← hsplit, List.takeWhile_append_dropWhile]

theorem exists_unsigned_eq {m : Magnitude} (hshape : Shape.isUnsigned cs = true)
    (h : Magnitude.read? cs = some m) (negative : Bool) :
    ∃ n : Digits, n.negative = negative ∧ n.unsigned = cs := by
  obtain ⟨whole, places, rfl, hne, hwhole, hplaces⟩ := exists_of_isUnsigned hshape
  have hdigits := isDigit_of_readFrom h fun c hc => by
    rcases List.mem_append.mp hc with hc | hc
    · exact .inl (hwhole c hc)
    · split at hc
      · cases hc
      · rcases List.mem_cons.mp hc with hc | hc
        · exact .inr hc
        · exact .inl (hplaces c hc)
  -- A point is no digit, so that both parts are made of digits alone.
  have hplain {c : Char} (hc : Text.isDecimalDigit c = true) : c ≠ '.' := by
    rintro rfl
    exact absurd hc (by decide +kernel)
  obtain ⟨ws, rfl⟩ := exists_map_digitChar fun c hc =>
    (hdigits c (List.mem_append_left _ hc)).resolve_right (hplain (hwhole c hc))
  obtain ⟨ps, rfl⟩ : ∃ ps : List (Fin 10), places = ps.map digitChar := by
    refine exists_map_digitChar fun c hc => ?_
    have hmem : c ∈ if places = [] then [] else '.' :: places := by
      rw [if_neg (List.ne_nil_of_mem hc)]
      exact List.mem_cons_of_mem _ hc
    exact (hdigits c (List.mem_append_right _ hmem)).resolve_right (hplain (hplaces c hc))
  refine ⟨⟨negative, ws, ps, fun h => hne (List.map_eq_nil_iff.mpr h)⟩, rfl, ?_⟩
  cases ps with
  | nil => rfl
  | cons d ps => rfl

theorem isNumber_of_ofText {text : String} (h : Shape.ofText text = .number) :
    Shape.isNumber text.toList = true := by
  rw [Shape.ofText] at h
  split at h
  · assumption
  · split_ifs at h
    split at h <;> cases h

/-- What is read is the text of a number in digits. -/
theorem exists_text_eq {d : Decimal} (hshape : Shape.isNumber cs = true)
    (h : Decimal.read? cs = some d) : ∃ n : Digits, n.text = String.ofList cs := by
  rw [Shape.isNumber.eq_def] at hshape
  split at hshape
  · rw [Decimal.read?] at h
    obtain ⟨m, hm, -⟩ := Option.map_eq_some_iff.mp h
    obtain ⟨n, hnegative, hunsigned⟩ := exists_unsigned_eq hshape hm true
    exact ⟨n, by rw [Digits.text, hnegative, hunsigned, if_pos rfl]⟩
  · rename_i hminus
    rw [Decimal.read?.eq_def] at h
    split at h
    · exact absurd rfl (hminus _)
    · rename_i cs _
      obtain ⟨whole, places, hcs, hne, hwhole, -⟩ := exists_of_isUnsigned hshape
      obtain ⟨c, whole, rfl⟩ := List.exists_cons_of_ne_nil hne
      rw [List.cons_append] at hcs
      have hplus := hwhole c (List.mem_cons_self ..)
      rw [← (List.cons.inj hcs).1] at hplus
      exact absurd hplus (by decide +kernel)
    · obtain ⟨m, hm, -⟩ := Option.map_eq_some_iff.mp h
      obtain ⟨n, hnegative, hunsigned⟩ := exists_unsigned_eq hshape hm false
      exact ⟨n, by rw [Digits.text, hnegative, hunsigned, if_neg Bool.false_ne_true]⟩

end other

section token

variable {t : Token}

/-- Alone, a number token is its value, or a problem where it has none. -/
theorem alone_number_eq (ht : t.kind = .number) (o : Options) (observers a : ℕ) :
    Form.number.alone o observers ⟨a, [t]⟩ =
      match if Shape.ofText t.text = .number then Decimal.read? t.text.toList else none with
      | some d => .ok (some (.literal t.position (.number d)))
      | none => .error t.invalidNumber := by
  simp only [Form.alone, Form.read, readNumber, readToken, if_pos ht, literalOr, Token.numberValue]
  cases if Shape.ofText t.text = .number then Decimal.read? t.text.toList else none with
  | some d => rfl
  | none => rfl

end token

/-- Alone, a number token in digits is read as the number, rounded to as many places as there is
room for, and as the number itself wherever some decimal is it. It is refused if it is too large, and
so is every number token that is not in digits. -/
theorem alone_number {t : Token} (ht : t.kind = .number) (o : Options) (observers a : ℕ) :
    (∀ n : Digits, t.text = n.text →
      (∃ d : Decimal, Form.number.alone o observers ⟨a, [t]⟩ =
            .ok (some (.literal t.position (.number d))) ∧
          |n.toRat| < maxMantissa + 1 / 2 ∧ IsRounded n.toRat d.toRat d.magnitude.scale ∧
          ((∃ e : Decimal, e.toRat = n.toRat) → d.toRat = n.toRat)) ∨
        Form.number.alone o observers ⟨a, [t]⟩ = .error t.invalidNumber ∧
          maxMantissa + 1 / 2 ≤ |n.toRat|) ∧
      ((∀ n : Digits, t.text ≠ n.text) →
        Form.number.alone o observers ⟨a, [t]⟩ = .error t.invalidNumber) := by
  rw [alone_number_eq ht]
  constructor
  · rintro n hn
    have hrounds := n.rounds_read?
    rw [hn, if_pos n.ofText_text, n.read?_text]
    have habs : |n.toRat| = appendDigits 0 n.whole + fraction n.places := by
      rw [Digits.toRat, abs_withSign, abs_of_nonneg]
      exact add_nonneg (Nat.cast_nonneg _) (fraction_nonneg _)
    rw [habs]
    -- The sign is put on last: what is read and rounded is the magnitude.
    cases hread : Magnitude.read? n.unsigned with
    | none =>
      rw [hread] at hrounds
      cases hrounds with
      | none hlarge => exact .inr ⟨rfl, hlarge⟩
    | some m =>
      rw [hread] at hrounds
      cases hrounds with
      | some hrounded hsmall =>
        have hsigned : IsRounded n.toRat (Decimal.signed n.negative m).toRat m.scale := by
          rw [Decimal.toRat_signed]
          exact hrounded.withSign n.negative
        refine .inl ⟨_, rfl, hsmall, hsigned, ?_⟩
        rintro ⟨e, he⟩
        rw [← he] at hsigned ⊢
        exact IsRounded.eq hsigned
  · intro hother
    split
    · rename_i d hvalue
      split at hvalue
      · rename_i hshape
        -- Only a text in digits has the shape of a number and a value.
        obtain ⟨n, hn⟩ := exists_text_eq (isNumber_of_ofText hshape) hvalue
        rw [String.ofList_toList] at hn
        exact absurd hn.symm (hother n)
      · cases hvalue
    · rfl

def fullDigits : Digits :=
  ⟨true, [7], [9, 2, 2, 8, 1, 6, 2, 5, 1, 4, 2, 6, 4, 3, 3, 7, 5, 9, 3, 5, 4, 3, 9, 5, 0, 3, 3, 5],
    by decide⟩

/-- It is read exactly. -/
theorem alone_number_fullDigits :
    fullDigits.text = "-7.9228162514264337593543950335" ∧
      ∃ d : Decimal, Form.number.alone {} 0 ⟨0, [fullDigits.token ⟨1, 1, "t"⟩]⟩ =
          .ok (some (.literal ⟨1, 1, "t"⟩ (.number d))) ∧
        d.toRat = -(79228162514264337593543950335 / 10 ^ 28) := by
  have hvalue : (Decimal.mk true ⟨maxMantissa, 28, by decide, by decide⟩).toRat =
      fullDigits.toRat := by
    have hdigits : (maxMantissa : ℚ) / 10 ^ 28 = (7 : ℕ) + fraction fullDigits.places :=
      appendDigits_div 7 fullDigits.places
    exact congrArg (withSign true) hdigits
  refine ⟨by decide +kernel, ?_⟩
  rcases (alone_number (t := fullDigits.token ⟨1, 1, "t"⟩) rfl {} 0 0).1 fullDigits rfl with
    ⟨d, hd, -, -, hexact⟩ | ⟨-, hlarge⟩
  · refine ⟨d, hd, ?_⟩
    rw [hexact ⟨_, hvalue⟩, ← hvalue]
    norm_num [Decimal.toRat, withSign, Magnitude.toRat, maxMantissa]
  · rw [← hvalue, Decimal.toRat, abs_withSign] at hlarge
    norm_num [Magnitude.toRat, maxMantissa] at hlarge

def tinyDigits : Digits :=
  ⟨false, [0], List.replicate 28 0 ++ [1], by decide⟩

/-- It is rounded to zero. -/
theorem alone_number_ne_tinyDigits :
    tinyDigits.text = "0.00000000000000000000000000001" ∧
      ∃ d : Decimal, Form.number.alone {} 0 ⟨0, [tinyDigits.token ⟨1, 1, "t"⟩]⟩ =
          .ok (some (.literal ⟨1, 1, "t"⟩ (.number d))) ∧
        d.toRat ≠ tinyDigits.toRat := by
  have hread : (if Shape.ofText tinyDigits.text = .number then
      Decimal.read? tinyDigits.text.toList else none) =
        some ⟨false, 0, 28, by decide, by decide⟩ := by
    decide +kernel
  refine ⟨by decide +kernel, ⟨false, 0, 28, by decide, by decide⟩, ?_, ?_⟩
  · have halone := alone_number_eq (t := tinyDigits.token ⟨1, 1, "t"⟩) rfl {} 0 0
    rw [show (tinyDigits.token ⟨1, 1, "t"⟩).text = tinyDigits.text from rfl, hread] at halone
    exact halone
  · have hdigits : ((1 : ℕ) : ℚ) / 10 ^ 29 = (0 : ℕ) + fraction tinyDigits.places :=
      appendDigits_div 0 tinyDigits.places
    have hvalue : tinyDigits.toRat = ((1 : ℕ) : ℚ) / 10 ^ 29 := hdigits.symm
    rw [hvalue]
    norm_num [Decimal.toRat, withSign, Magnitude.toRat]

end Number

end Prose
