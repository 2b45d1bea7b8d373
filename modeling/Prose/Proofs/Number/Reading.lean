import Prose.Number.Decimal

namespace Prose.Number

/-- Further digits make a number no smaller. -/
theorem le_ofDigitChars (cs : List Char) (n : Nat) : n ≤ Nat.ofDigitChars 10 cs n := by
  induction cs generalizing n with
  | nil => exact Nat.le_refl n
  | cons c cs ih =>
    have hrest := ih (10 * n + (c.toNat - '0'.toNat))
    rw [Nat.ofDigitChars_cons]
    omega

namespace Magnitude

theorem ext {a b : Magnitude} (hm : a.mantissa = b.mantissa) (hs : a.scale = b.scale) : a = b := by
  cases a
  cases b
  cases hm
  cases hs
  rfl

/-- A digit is taken where what it makes, and all that comes of it, is a number. -/
theorem exists_push? (point : Bool) {a b : Magnitude} {d : Nat}
    (hm : 10 * a.mantissa + d ≤ b.mantissa) (hs : point = true → a.scale < b.scale) :
    ∃ a', push? point a d = some a' ∧ a'.mantissa = 10 * a.mantissa + d ∧
      a'.scale = if point then a.scale + 1 else 0 := by
  have hmantissa : a.mantissa * 10 + d ≤ maxMantissa := by
    have hle := b.mantissa_le
    omega
  cases point with
  | false =>
    refine ⟨⟨a.mantissa * 10 + d, 0, hmantissa, Nat.zero_le _⟩, ?_, ?_, rfl⟩
    · exact dif_pos ⟨hmantissa, Nat.zero_le _⟩
    · exact congrArg (· + d) (Nat.mul_comm ..)
  | true =>
    have hlt := Nat.lt_of_lt_of_le (hs rfl) b.scale_le
    refine ⟨⟨a.mantissa * 10 + d, a.scale + 1, hmantissa, hlt⟩, ?_, ?_, rfl⟩
    · rw [push?, if_pos rfl, if_neg (Nat.ne_of_lt hlt)]
      exact dif_pos ⟨hmantissa, hlt⟩
    · exact congrArg (· + d) (Nat.mul_comm ..)

/-- A row of digits is taken whole where the number that it makes is one. -/
theorem readFrom_digits (point : Bool) {cs : List Char} (hcs : ∀ c ∈ cs, c.isDigit = true)
    {a b : Magnitude} (ha : point = false → a.scale = 0)
    (hm : b.mantissa = Nat.ofDigitChars 10 cs a.mantissa)
    (hs : b.scale = if point then a.scale + cs.length else 0) (seen : Bool) (rest : List Char) :
    readFrom point seen a (cs ++ rest) = readFrom point (seen || !cs.isEmpty) b rest := by
  induction cs generalizing a seen with
  | nil =>
    have hab : a = b := by
      refine ext hm.symm ?_
      cases point with
      | false => rw [ha rfl, hs]; rfl
      | true => exact hs.symm
    rw [hab, List.isEmpty_nil, Bool.not_true, Bool.or_false, List.nil_append]
  | cons c cs ih =>
    obtain ⟨hc, hcs⟩ := List.forall_mem_cons.mp hcs
    rw [Nat.ofDigitChars_cons] at hm
    -- The digits to come only make the number larger, so no digit leaves the range.
    have hle := le_ofDigitChars cs (10 * a.mantissa + (c.toNat - '0'.toNat))
    rw [← hm] at hle
    obtain ⟨a', hpush, hm', hs'⟩ := exists_push? point hle (fun hpoint => by
      rw [hs, if_pos hpoint, List.length_cons]
      omega)
    rw [List.cons_append, readFrom, if_pos hc, digitValue, hpush]
    simp only
    rw [ih hcs (a := a') (fun hpoint => by rw [hs', hpoint]; rfl) (by rw [hm', hm])]
    · rw [Bool.true_or, List.isEmpty_cons, Bool.not_false, Bool.or_true]
    · rw [hs, hs', List.length_cons]
      split
      · omega
      · rfl

def padded (a : Magnitude) : List Char :=
  List.replicate (a.scale + 1 - (Nat.toDigits 10 a.mantissa).length) '0' ++
    Nat.toDigits 10 a.mantissa

theorem isDigit_padded (a : Magnitude) : ∀ c ∈ a.padded, c.isDigit = true := by
  intro c hc
  rcases List.mem_append.mp hc with hc | hc
  · rw [List.eq_of_mem_replicate hc]
    rfl
  · exact Nat.isDigit_of_mem_toDigits (by decide) (by decide) hc

theorem ofDigitChars_padded (a : Magnitude) : Nat.ofDigitChars 10 a.padded 0 = a.mantissa := by
  rw [padded, Nat.ofDigitChars_append, Nat.ofDigitChars_replicate_zero, Nat.mul_zero,
    Nat.ofDigitChars_ten_toDigits]

theorem scale_lt_length_padded (a : Magnitude) : a.scale < a.padded.length := by
  rw [padded, List.length_append, List.length_replicate]
  omega

theorem digits_eq (a : Magnitude) :
    a.digits = a.padded.take (a.padded.length - a.scale) ++
      if a.scale = 0 then [] else '.' :: a.padded.drop (a.padded.length - a.scale) := by
  simp only [digits, positional, padded]
  split
  · rw [List.append_nil]
  · rfl

theorem exists_digits (a : Magnitude) : ∃ c cs, a.digits = c :: cs ∧ c.isDigit = true := by
  have hlength := a.scale_lt_length_padded
  obtain ⟨c, cs, hcs⟩ : ∃ c cs, a.padded = c :: cs := by
    refine List.exists_cons_of_ne_nil (List.ne_nil_of_length_pos ?_)
    omega
  have hc := a.isDigit_padded c (by rw [hcs]; exact List.mem_cons_self ..)
  obtain ⟨n, hn⟩ : ∃ n, a.padded.length - a.scale = n + 1 := ⟨a.padded.length - a.scale - 1, by omega⟩
  rw [digits_eq, hn, hcs, List.take_succ_cons]
  exact ⟨c, _, rfl, hc⟩

/-- The digits are read back with all places. -/
theorem read?_digits (a : Magnitude) : read? a.digits = some a := by
  have hlength := a.scale_lt_length_padded
  have hwhole : ∀ c ∈ a.padded.take (a.padded.length - a.scale), c.isDigit = true :=
    fun c hc => a.isDigit_padded c (List.mem_of_mem_take hc)
  have hplaces : ∀ c ∈ a.padded.drop (a.padded.length - a.scale), c.isDigit = true :=
    fun c hc => a.isDigit_padded c (List.mem_of_mem_drop hc)
  have hvalue := a.ofDigitChars_padded
  rw [← List.take_append_drop (a.padded.length - a.scale) a.padded, Nat.ofDigitChars_append] at hvalue
  have hle := le_ofDigitChars (a.padded.drop (a.padded.length - a.scale))
    (Nat.ofDigitChars 10 (a.padded.take (a.padded.length - a.scale)) 0)
  rw [hvalue] at hle
  -- What stands before the point is a number of its own.
  obtain ⟨b, hbm, hbs⟩ : ∃ b : Magnitude,
      b.mantissa = Nat.ofDigitChars 10 (a.padded.take (a.padded.length - a.scale)) 0 ∧ b.scale = 0 :=
    ⟨⟨_, 0, Nat.le_trans hle a.mantissa_le, Nat.zero_le _⟩, rfl, rfl⟩
  have hseen : (false || !(a.padded.take (a.padded.length - a.scale)).isEmpty) = true := by
    have hne : a.padded.take (a.padded.length - a.scale) ≠ [] := by
      refine List.ne_nil_of_length_pos ?_
      rw [List.length_take]
      omega
    simpa using hne
  rw [read?, digits_eq, readFrom_digits false hwhole (fun _ => rfl) hbm hbs, hseen]
  split
  · rename_i hscale
    have hab : b = a := by
      refine ext ?_ (hbs.trans hscale.symm)
      rw [hbm, ← hvalue, hscale, Nat.sub_zero, List.drop_length]
      rfl
    rw [hab]
    rfl
  · have hpoint (cs : List Char) : readFrom false true b ('.' :: cs) = readFrom true true b cs := rfl
    have hread := readFrom_digits true hplaces (a := b) (b := a) (fun h => by cases h)
      (by rw [hbm, hvalue]) (by rw [hbs, List.length_drop, if_pos rfl]; omega) true []
    rw [List.append_nil, Bool.true_or] at hread
    rw [hpoint, hread]
    rfl

end Magnitude

namespace Decimal

def IsProper (d : Decimal) : Prop :=
  d.negative = true → d.magnitude.isZero = false

theorem isProper_signed (negative : Bool) (m : Magnitude) : (signed negative m).IsProper := by
  intro h
  rw [signed, Bool.and_eq_true, Bool.not_eq_true'] at h
  exact h.2

theorem IsProper.signed_eq {d : Decimal} (h : d.IsProper) : signed d.negative d.magnitude = d := by
  obtain ⟨negative, m⟩ := d
  cases negative with
  | false => rfl
  | true => rw [signed, show m.isZero = false from h rfl]; rfl

/-- Digits are read with the minus sign before them, or without one. -/
theorem read?_of_isDigit {c : Char} (hc : c.isDigit = true) (cs : List Char) (negative : Bool) :
    read? (if negative then '-' :: c :: cs else c :: cs) =
      (Magnitude.read? (c :: cs)).map (signed negative) := by
  cases negative with
  | true => rfl
  | false =>
    rw [if_neg Bool.false_ne_true, read?]
    · rintro ds ⟨⟩
      cases hc
    · rintro ds ⟨⟩
      cases hc

/-- A decimal is read back from its text, but for the sign of a zero. -/
theorem read?_render (negative : Bool) (m : Magnitude) :
    read? (mk negative m).render.toList = some (signed negative m) := by
  obtain ⟨c, cs, hcs, hc⟩ := m.exists_digits
  have hdigits := m.read?_digits
  rw [hcs] at hdigits
  rw [render, String.toList_ofList, hcs, read?_of_isDigit hc, hdigits, Option.map_some]

/-- A decimal without a signed zero is read back from its text. -/
theorem IsProper.read?_render {d : Decimal} (h : d.IsProper) : read? d.render.toList = some d := by
  rw [Decimal.read?_render, h.signed_eq]

theorem IsProper.of_read? {cs : List Char} {d : Decimal} (h : read? cs = some d) : d.IsProper := by
  unfold read? at h
  split at h <;>
  · obtain ⟨m, -, rfl⟩ := Option.map_eq_some_iff.mp h
    exact isProper_signed _ m

theorem IsProper.of_ofNat? {n : Nat} {d : Decimal} (h : ofNat? n = some d) : d.IsProper := by
  obtain ⟨m, -, rfl⟩ := Option.map_eq_some_iff.mp h
  exact fun h => by cases h

end Decimal

end Prose.Number
