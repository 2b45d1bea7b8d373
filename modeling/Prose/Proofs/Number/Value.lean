import Mathlib.Algebra.Order.Field.Rat
import Mathlib.Data.Nat.Cast.Order.Field
import Mathlib.Tactic.FieldSimp
import Mathlib.Tactic.Linarith
import Mathlib.Tactic.NormNum
import Mathlib.Tactic.Ring
import Prose.Proofs.Number.Overlong

namespace Prose.Number

def withSign (negative : Bool) (x : ℚ) : ℚ :=
  if negative then -x else x

def Magnitude.toRat (a : Magnitude) : ℚ :=
  a.mantissa / 10 ^ a.scale

def Decimal.toRat (d : Decimal) : ℚ :=
  withSign d.negative d.magnitude.toRat

/-- `q` is `x` rounded to so many decimal places, and with one more place the mantissa would be too
large. -/
structure IsRounded (x q : ℚ) (places : ℕ) : Prop where
  near : |q - x| ≤ 1 / (2 * 10 ^ places)
  full : q = x ∨ places = maxScale ∨ (maxMantissa : ℚ) < |x| * 10 ^ (places + 1)

/-- The answer is `x` rounded to a magnitude, or there is none because `x` is too large. -/
inductive Rounds (x : ℚ) : Option Magnitude → Prop
  | some {a} (h : IsRounded x a.toRat a.scale) (hx : x < maxMantissa + 1 / 2) : Rounds x (some a)
  | none (hx : maxMantissa + 1 / 2 ≤ x) : Rounds x none

section sign

variable {b : Bool} {x q : ℚ} {n : ℕ}

theorem withSign_false (x : ℚ) : withSign false x = x :=
  rfl

theorem abs_withSign (b : Bool) (x : ℚ) : |withSign b x| = |x| := by
  cases b with
  | false => rfl
  | true => exact abs_neg x

theorem withSign_sub (b : Bool) (x q : ℚ) : withSign b q - withSign b x = withSign b (q - x) := by
  cases b with
  | false => rfl
  | true => exact (neg_sub_neg q x).trans (neg_sub q x).symm

theorem withSign_inj : withSign b q = withSign b x ↔ q = x := by
  cases b with
  | false => rfl
  | true => exact neg_inj

theorem IsRounded.refl (x : ℚ) (n : ℕ) : IsRounded x x n := by
  refine ⟨?_, .inl rfl⟩
  rw [sub_self, abs_zero]
  positivity

/-- Rounding is the same on both sides of zero. -/
theorem IsRounded.withSign (h : IsRounded x q n) (b : Bool) :
    IsRounded (withSign b x) (withSign b q) n := by
  refine ⟨?_, ?_⟩
  · rw [withSign_sub, abs_withSign]
    exact h.near
  · rw [withSign_inj, abs_withSign]
    exact h.full

end sign

section exact

/-- Multiples of one decimal place that are nearer than half of it are the same. -/
theorem eq_of_near {i j : ℤ} {n : ℕ} (h : |(i : ℚ) / 10 ^ n - j / 10 ^ n| ≤ 1 / (2 * 10 ^ n)) :
    i = j := by
  have hpos : (0 : ℚ) < 10 ^ n := by positivity
  rw [← sub_div, abs_div, abs_of_pos hpos, div_le_div_iff₀ hpos (by positivity)] at h
  have hhalf : |(i : ℚ) - j| ≤ 1 / 2 := by
    nlinarith
  have hlt : |i - j| < 1 := by
    have hcast : ((|i - j| : ℤ) : ℚ) < 1 := by
      push_cast
      linarith
    exact_mod_cast hcast
  exact sub_eq_zero.mp (Int.abs_lt_one_iff.mp hlt)

theorem Magnitude.toRat_nonneg (a : Magnitude) : 0 ≤ a.toRat := by
  unfold Magnitude.toRat
  positivity

/-- A magnitude is a multiple of each place that is no larger than its last one. -/
theorem Magnitude.toRat_eq_div {a : Magnitude} {n : ℕ} (h : a.scale ≤ n) :
    a.toRat = ((a.mantissa * 10 ^ (n - a.scale) : ℕ) : ℚ) / 10 ^ n := by
  obtain ⟨k, rfl⟩ := Nat.exists_eq_add_of_le h
  rw [Nat.add_sub_cancel_left, Magnitude.toRat]
  push_cast
  rw [pow_add, mul_div_mul_right _ _ (by positivity)]

theorem Decimal.exists_toRat_eq_div {d : Decimal} {n : ℕ} (h : d.magnitude.scale ≤ n) :
    ∃ i : ℤ, d.toRat = i / 10 ^ n := by
  rw [Decimal.toRat, Magnitude.toRat_eq_div h]
  cases d.negative with
  | false => exact ⟨(d.magnitude.mantissa * 10 ^ (n - d.magnitude.scale) : ℕ), by push_cast; rfl⟩
  | true =>
    refine ⟨-(d.magnitude.mantissa * 10 ^ (n - d.magnitude.scale) : ℕ), ?_⟩
    rw [Number.withSign, if_pos rfl]
    push_cast
    ring

/-- What some decimal is worth is not changed by rounding. -/
theorem IsRounded.eq {d e : Decimal} (h : IsRounded e.toRat d.toRat d.magnitude.scale) :
    d.toRat = e.toRat := by
  have hplaces : d.toRat = e.toRat ∨ e.magnitude.scale ≤ d.magnitude.scale := by
    rcases h.full with heq | hmax | hlarge
    · exact .inl heq
    · rw [hmax]
      exact .inr e.magnitude.scale_le
    · -- With more places than `d` has, the mantissa of `e` would be too large.
      refine .inr (Nat.le_of_not_lt fun hlt => ?_)
      have hmantissa : (e.magnitude.mantissa : ℚ) ≤ maxMantissa := by
        exact_mod_cast e.magnitude.mantissa_le
      have hpow : (10 : ℚ) ^ (d.magnitude.scale + 1) ≤ 10 ^ e.magnitude.scale :=
        pow_le_pow_right₀ (by norm_num) hlt
      have hpos : (0 : ℚ) < 10 ^ e.magnitude.scale := by positivity
      have hle : e.magnitude.toRat * 10 ^ (d.magnitude.scale + 1) ≤ maxMantissa := by
        calc e.magnitude.toRat * 10 ^ (d.magnitude.scale + 1)
            ≤ e.magnitude.toRat * 10 ^ e.magnitude.scale :=
              mul_le_mul_of_nonneg_left hpow e.magnitude.toRat_nonneg
          _ = e.magnitude.mantissa := div_mul_cancel₀ _ hpos.ne'
          _ ≤ maxMantissa := hmantissa
      rw [Decimal.toRat, abs_withSign, abs_of_nonneg e.magnitude.toRat_nonneg] at hlarge
      exact absurd hle (not_le.mpr hlarge)
  rcases hplaces with heq | hle
  · exact heq
  · obtain ⟨i, hi⟩ := Decimal.exists_toRat_eq_div (Nat.le_refl d.magnitude.scale)
    obtain ⟨j, hj⟩ := Decimal.exists_toRat_eq_div hle
    have hnear := h.near
    rw [hi, hj] at hnear ⊢
    rw [eq_of_near hnear]

theorem IsRounded.eq_magnitude {a b : Magnitude} (h : IsRounded b.toRat a.toRat a.scale) :
    a.toRat = b.toRat :=
  IsRounded.eq (d := ⟨false, a⟩) (e := ⟨false, b⟩) h

end exact

section quotient

variable {n d : ℕ}

/-- The quotient is rounded to a nearest number. -/
theorem abs_divideHalfEven_sub_le (n : ℕ) (hd : 0 < d) :
    |(divideHalfEven n d : ℚ) - n / d| ≤ 1 / 2 := by
  have hpos : (0 : ℚ) < d := by exact_mod_cast hd
  have hdivision : (d : ℚ) * (n / d : ℕ) + (n % d : ℕ) = n := by exact_mod_cast Nat.div_add_mod n d
  have hlt : ((n % d : ℕ) : ℚ) < d := by exact_mod_cast Nat.mod_lt n hd
  have hnonneg : (0 : ℚ) ≤ (n % d : ℕ) := Nat.cast_nonneg _
  -- Multiplied by the divisor, the claim is one about the remainder.
  have hscaled (q : ℚ) (h : |2 * (q * d - n)| ≤ d) : |q - n / d| ≤ 1 / 2 := by
    rw [← mul_div_cancel_right₀ q hpos.ne', ← sub_div, abs_div, abs_of_pos hpos,
      div_le_div_iff₀ hpos two_pos]
    rw [abs_mul, abs_two] at h
    linarith
  refine hscaled _ ?_
  rw [abs_le, divideHalfEven]
  split
  · rename_i hup
    have hhalf : d ≤ 2 * (n % d) := by
      simp only [gt_iff_lt, Bool.or_eq_true, decide_eq_true_eq, Bool.and_eq_true,
        beq_iff_eq] at hup
      omega
    have hhalf' : (d : ℚ) ≤ 2 * (n % d : ℕ) := by exact_mod_cast hhalf
    push_cast at *
    constructor <;> linarith
  · rename_i hdown
    have hhalf : 2 * (n % d) ≤ d := by
      simp only [gt_iff_lt, Bool.or_eq_true, decide_eq_true_eq, Bool.and_eq_true,
        beq_iff_eq, not_or, not_lt] at hdown
      exact hdown.1
    have hhalf' : 2 * ((n % d : ℕ) : ℚ) ≤ d := by exact_mod_cast hhalf
    constructor <;> linarith

/-- A half above an odd number is rounded away from it. -/
theorem divideHalfEven_le_iff {m : ℕ} (hm : m % 2 = 1) (hd : 0 < d) :
    divideHalfEven n d ≤ m ↔ 2 * n < (2 * m + 1) * d := by
  have hdivision := Nat.div_add_mod n d
  have hlt := Nat.mod_lt n hd
  rw [divideHalfEven]
  rcases Nat.lt_trichotomy (n / d) m with hq | hq | hq
  · refine iff_of_true ?_ ?_
    · split <;> omega
    · have hle : d * (n / d + 1) ≤ d * m := Nat.mul_le_mul_left d hq
      rw [Nat.mul_succ] at hle
      rw [Nat.add_mul, Nat.mul_assoc, Nat.mul_comm m d]
      omega
  · simp only [gt_iff_lt, Bool.or_eq_true, decide_eq_true_eq, Bool.and_eq_true, beq_iff_eq, hq, hm,
      and_true]
    rw [hq] at hdivision
    rw [Nat.add_mul, Nat.mul_assoc, Nat.mul_comm m d]
    split <;> omega
  · refine iff_of_false ?_ ?_
    · split <;> omega
    · have hle : d * (m + 1) ≤ d * (n / d) := Nat.mul_le_mul_left d hq
      rw [Nat.mul_succ] at hle
      rw [Nat.add_mul, Nat.mul_assoc, Nat.mul_comm m d]
      omega

end quotient

namespace Magnitude

variable {a b : Magnitude} {m n : ℕ}

/-- A mantissa fits, after some places are dropped, if what is rounded is small enough. -/
theorem divideHalfEven_le_maxMantissa_iff (m n : ℕ) :
    divideHalfEven m (10 ^ n) ≤ maxMantissa ↔ (m : ℚ) / 10 ^ n < maxMantissa + 1 / 2 := by
  have hpos : (0 : ℚ) < 10 ^ n := by positivity
  rw [divideHalfEven_le_iff (by decide) (by positivity), div_lt_iff₀ hpos,
    ← mul_lt_mul_iff_of_pos_left (two_pos : (0 : ℚ) < 2), ← mul_assoc, mul_add,
    mul_one_div_cancel two_ne_zero]
  exact_mod_cast Iff.rfl

/-- What is found in a range is found at the first place where there is something. -/
theorem exists_first_of_findSome? {α : Type} {f : ℕ → Option α} {c : α}
    (h : (List.range n).findSome? f = some c) :
    ∃ k, k < n ∧ f k = some c ∧ ∀ j, j < k → f j = none := by
  obtain ⟨before, k, behind, hrange, hk, hbefore⟩ := List.findSome?_eq_some_iff.mp h
  have hsorted : (before ++ k :: behind).Pairwise (· < ·) := hrange ▸ List.pairwise_lt_range
  have hbehind := (List.pairwise_cons.mp (List.pairwise_append.mp hsorted).2.1).1
  have hmem : k ∈ List.range n := by
    rw [hrange]
    exact List.mem_append_right _ (List.mem_cons_self ..)
  refine ⟨k, List.mem_range.mp hmem, hk, fun j hj => hbefore j ?_⟩
  have hj' : j ∈ before ++ k :: behind := by
    rw [← hrange, List.mem_range]
    exact Nat.lt_trans hj (List.mem_range.mp hmem)
  rcases List.mem_append.mp hj' with hj' | hj'
  · exact hj'
  · rcases List.mem_cons.mp hj' with rfl | hj'
    · exact absurd hj (Nat.lt_irrefl _)
    · exact absurd hj (Nat.lt_asymm (hbehind j hj'))

theorem eq_of_of? (h : of? m n = some a) : a.mantissa = m ∧ a.scale = n := by
  rw [of?] at h
  split at h
  · cases h
    exact ⟨rfl, rfl⟩
  · cases h

/-- A natural number does not fit if it is too large. -/
theorem of?_natural_eq_none_iff : of? n 0 = none ↔ maxMantissa < n := by
  constructor
  · refine fun h => Nat.lt_of_not_le fun hle => ?_
    rw [of?_eq_some hle (Nat.zero_le _)] at h
    cases h
  · exact fun h => dif_neg fun hfits => Nat.not_le_of_lt h hfits.1

/-- A number without some of its places does not fit if it is too large. -/
theorem of?_dropped_eq_none_iff {k : ℕ} (m : ℕ) (hn : n ≤ maxScale) :
    of? (divideHalfEven m (Nat.pow 10 k)) (n - k) = none ↔
      (maxMantissa : ℚ) + 1 / 2 ≤ m / 10 ^ k := by
  have hscale : n - k ≤ maxScale := Nat.le_trans (Nat.sub_le n k) hn
  rw [← not_lt, ← divideHalfEven_le_maxMantissa_iff, of?, Nat.pow_eq]
  split
  · rename_i hfits
    exact iff_of_false (Option.some_ne_none _) (not_not_intro hfits.1)
  · rename_i hfits
    exact iff_of_true rfl fun hle => hfits ⟨hle, hscale⟩

/-- What is divided by a power of ten becomes no larger. -/
theorem div_pow_ten_le {x : ℚ} (hx : 0 ≤ x) (n : ℕ) : x / 10 ^ n ≤ x :=
  div_le_self hx (one_le_pow₀ (by norm_num))

/-- As few places are dropped as make the number fit. -/
theorem rounds_fit? (m : ℕ) (hn : n ≤ maxScale) : Rounds (m / 10 ^ n) (fit? m n) := by
  cases hfit : fit? m n with
  | none =>
    rw [fit?, List.findSome?_eq_none_iff] at hfit
    have hlast := hfit n (List.mem_range.mpr (Nat.lt_succ_self n))
    exact .none ((of?_dropped_eq_none_iff m hn).mp hlast)
  | some a =>
    obtain ⟨k, hk, ha, hbefore⟩ := exists_first_of_findSome? hfit
    obtain ⟨gap, rfl⟩ := Nat.exists_eq_add_of_le (Nat.le_of_lt_succ hk)
    have hfits : (m : ℚ) / 10 ^ k < maxMantissa + 1 / 2 := by
      rw [← not_le, ← of?_dropped_eq_none_iff m hn, ha]
      exact Option.some_ne_none a
    obtain ⟨hmantissa, hscale⟩ := eq_of_of? ha
    rw [Nat.add_sub_cancel_left] at hscale
    have hsplit : (m : ℚ) / 10 ^ (k + gap) = m / 10 ^ k / 10 ^ gap := by
      rw [pow_add, div_div]
    have hpos : (0 : ℚ) < 10 ^ gap := by positivity
    refine .some ⟨?_, ?_⟩ ?_
    · have hnear := abs_divideHalfEven_sub_le m (Nat.pow_pos (Nat.succ_pos 9) : 0 < 10 ^ k)
      rw [Nat.cast_pow, Nat.cast_ofNat] at hnear
      rw [toRat, hmantissa, hscale, hsplit, ← sub_div, abs_div, abs_of_pos hpos, ← div_div]
      exact div_le_div_of_nonneg_right hnear hpos.le
    · cases k with
      | zero =>
        left
        rw [toRat, hmantissa, hscale, Nat.zero_add, show Nat.pow 10 0 = 1 from rfl,
          divideHalfEven_one]
      | succ k =>
        -- With one place less dropped, the rounded number would be too large.
        have hlarge := (of?_dropped_eq_none_iff m hn).mp (hbefore k (Nat.lt_succ_self k))
        have hshift : (m : ℚ) / 10 ^ (k + 1 + gap) * 10 ^ (gap + 1) = m / 10 ^ k := by
          rw [Nat.add_assoc, Nat.add_comm 1 gap, pow_add, ← div_div,
            div_mul_cancel₀ _ (by positivity)]
        right; right
        rw [hscale, abs_of_nonneg (by positivity), hshift]
        linarith
    · rw [hsplit]
      exact lt_of_le_of_lt (div_pow_ten_le (by positivity) _) hfits

/-- A magnitude is rounded to itself. -/
theorem rounds_self (a : Magnitude) : Rounds a.toRat (some a) := by
  refine .some (.refl _ _) ?_
  have hle : (a.mantissa : ℚ) ≤ maxMantissa := by exact_mod_cast a.mantissa_le
  have hdiv : a.toRat ≤ a.mantissa := div_pow_ten_le (Nat.cast_nonneg _) _
  linarith

/-- The sum of two magnitudes is their sum rounded. -/
theorem rounds_add? (a b : Magnitude) : Rounds (a.toRat + b.toRat) (a.add? b) := by
  have hzero {c : Magnitude} (h : c.isZero = true) : c.toRat = 0 := by
    rw [toRat, beq_iff_eq.mp h, Nat.cast_zero, zero_div]
  rw [add?]
  split
  · rename_i ha
    rw [hzero ha, zero_add]
    exact rounds_self b
  split
  · rename_i hb
    rw [hzero hb, add_zero]
    exact rounds_self a
  · have hscale : max a.scale b.scale ≤ maxScale := Nat.max_le.mpr ⟨a.scale_le, b.scale_le⟩
    rw [toRat_eq_div (Nat.le_max_left a.scale b.scale),
      toRat_eq_div (Nat.le_max_right a.scale b.scale), ← add_div, ← Nat.cast_add]
    exact rounds_fit? _ hscale

end Magnitude

section digits

def fraction (digits : List (Fin 10)) : ℚ :=
  digits.foldr (fun d x => (d + x) / 10) 0

def appendDigits (n : ℕ) (digits : List (Fin 10)) : ℕ :=
  digits.foldl (fun m d => 10 * m + d) n

theorem fraction_nil : fraction [] = 0 :=
  rfl

theorem fraction_cons (d : Fin 10) (digits : List (Fin 10)) :
    fraction (d :: digits) = ((d : ℕ) + fraction digits) / 10 :=
  rfl

theorem appendDigits_cons (n : ℕ) (d : Fin 10) (digits : List (Fin 10)) :
    appendDigits n (d :: digits) = appendDigits (10 * n + d) digits :=
  rfl

/-- Further digits make a number no smaller. -/
theorem le_appendDigits (n : ℕ) (digits : List (Fin 10)) : n ≤ appendDigits n digits := by
  induction digits generalizing n with
  | nil => exact Nat.le_refl n
  | cons d digits ih =>
    have hrest := ih (10 * n + d)
    rw [appendDigits_cons]
    omega

theorem fraction_nonneg (digits : List (Fin 10)) : 0 ≤ fraction digits := by
  induction digits with
  | nil => exact le_refl _
  | cons d digits ih =>
    rw [fraction_cons]
    positivity

theorem fraction_lt_one (digits : List (Fin 10)) : fraction digits < 1 := by
  induction digits with
  | nil => exact one_pos
  | cons d digits ih =>
    have hd : ((d : ℕ) : ℚ) ≤ 9 := by exact_mod_cast d.is_le
    rw [fraction_cons, div_lt_one (by norm_num)]
    linarith

/-- In as many places as there are digits, a number with the digits behind it is the sum of the
number and their fraction. -/
theorem appendDigits_div (n : ℕ) (digits : List (Fin 10)) :
    (appendDigits n digits : ℚ) / 10 ^ digits.length = n + fraction digits := by
  induction digits generalizing n with
  | nil => exact (div_one _).trans (add_zero _).symm
  | cons d digits ih =>
    rw [appendDigits_cons, fraction_cons, List.length_cons, pow_succ, ← div_div, ih]
    push_cast
    ring

end digits

end Prose.Number
