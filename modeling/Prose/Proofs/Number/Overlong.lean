import Mathlib.Tactic.SplitIfs
import Prose.Proofs.Condense.Group

/-! Fractions with more digit words than there are decimal places. A spelled-out number has no answer
where, behind a whole part that can be read and `point`, one digit word too many stands; no other
number lacks one. The sum of a fraction never overflows. -/
namespace Prose.Number

/-- A failure is the same failure whatever result it stands in the place of. -/
theorem error_eq_error_iff {α β : Type} {e e' : CondenseFailure} :
    (.error e : Except CondenseFailure α) = .error e' ↔
      (.error e : Except CondenseFailure β) = .error e' := by
  rw [Except.error.injEq, Except.error.injEq]

theorem ok_ne_error {α : Type} {a : α} {e : CondenseFailure} :
    (.ok a : Except CondenseFailure α) ≠ .error e := by
  intro h
  cases h

namespace Magnitude

structure IsFraction (a : Magnitude) (n : Nat) : Prop where
  scale_le : a.scale ≤ n
  mantissa_lt : a.mantissa < Nat.pow 10 a.scale

theorem isFraction_zero (n : Nat) : zero.IsFraction n :=
  ⟨Nat.zero_le n, Nat.one_pos⟩

variable {a b : Magnitude} {m n d : Nat}

theorem of?_eq_some (hm : m ≤ maxMantissa) (hn : n ≤ maxScale) : of? m n = some ⟨m, n, hm, hn⟩ :=
  dif_pos ⟨hm, hn⟩

/-- A digit has a place, unless all places are taken. -/
theorem of?_digit_eq_none_iff (hd : d < 10) : of? d n = none ↔ maxScale < n := by
  have hfits : d ≤ maxMantissa := Nat.le_trans (Nat.le_of_lt hd) (by decide)
  constructor
  · intro h
    apply Nat.lt_of_not_le
    intro hn
    rw [of?_eq_some hfits hn] at h
    cases h
  · intro hn
    exact dif_neg fun h => Nat.not_le_of_lt hn h.2

theorem divideHalfEven_one (m : Nat) : divideHalfEven m 1 = m := by
  simp only [divideHalfEven, Nat.div_one, Nat.mod_one]
  rfl

/-- A mantissa that fits in its places is not rounded. -/
theorem fit?_eq_some (hm : m ≤ maxMantissa) (hn : n ≤ maxScale) :
    fit? m n = some ⟨m, n, hm, hn⟩ := by
  have hfirst : of? (divideHalfEven m (Nat.pow 10 0)) (n - 0) = some ⟨m, n, hm, hn⟩ := by
    rw [show Nat.pow 10 0 = 1 from rfl, divideHalfEven_one]
    exact of?_eq_some hm hn
  rw [fit?, List.range_succ_eq_map, List.findSome?_cons, hfirst]

theorem pow_le_maxMantissa (hn : n ≤ maxScale) : Nat.pow 10 n ≤ maxMantissa :=
  Nat.le_trans (Nat.pow_le_pow_right (by decide) hn) (by decide)

/-- A digit in the place behind some places that hold less than one leaves less than one. -/
theorem mul_pow_add_digit_lt {k gap : Nat} (hm : m < Nat.pow 10 k) (hd : d < 10) :
    m * Nat.pow 10 (gap + 1) + d < Nat.pow 10 (k + gap + 1) := by
  have hten : 10 ≤ Nat.pow 10 (gap + 1) := Nat.le_self_pow (Nat.succ_ne_zero gap) 10
  calc m * Nat.pow 10 (gap + 1) + d
      < m * Nat.pow 10 (gap + 1) + Nat.pow 10 (gap + 1) :=
        Nat.add_lt_add_left (Nat.lt_of_lt_of_le hd hten) _
    _ = (m + 1) * Nat.pow 10 (gap + 1) := (Nat.succ_mul m _).symm
    _ ≤ Nat.pow 10 k * Nat.pow 10 (gap + 1) := Nat.mul_le_mul_right _ hm
    _ = Nat.pow 10 (k + gap + 1) := (Nat.pow_add 10 k (gap + 1)).symm

/-- A digit in the next place leaves less than one. -/
theorem IsFraction.mantissa_add_digit_lt (ha : a.IsFraction n) (hd : d < 10) :
    a.mantissa * Nat.pow 10 (n + 1 - a.scale) + d < Nat.pow 10 (n + 1) := by
  obtain ⟨gap, rfl⟩ := Nat.exists_eq_add_of_le ha.scale_le
  have hgap : a.scale + gap + 1 - a.scale = gap + 1 := by omega
  rw [hgap]
  exact mul_pow_add_digit_lt ha.mantissa_lt hd

/-- One more digit behind a fraction gives a fraction: the sum does not overflow. -/
theorem exists_add?_digit (ha : a.IsFraction n) (hd : d < 10) (hb : of? d (n + 1) = some b) :
    ∃ c, a.add? b = some c ∧ c.IsFraction (n + 1) := by
  have hn : n + 1 ≤ maxScale := by
    apply Nat.le_of_not_lt
    intro hn
    rw [(of?_digit_eq_none_iff hd).mpr hn] at hb
    cases hb
  have hfits : d ≤ maxMantissa := Nat.le_trans (Nat.le_of_lt hd) (by decide)
  rw [of?_eq_some hfits hn] at hb
  cases hb
  have hscale := ha.scale_le
  have hmantissa := ha.mantissa_lt
  rw [add?]
  split
  -- In front of the digit there are only zeros, so it is the sum.
  · refine ⟨_, rfl, Nat.le_refl _, Nat.lt_of_lt_of_le hd ?_⟩
    exact Nat.le_self_pow (Nat.succ_ne_zero n) 10
  split
  -- A zero is not added, and its place is not counted.
  · exact ⟨a, rfl, Nat.le_succ_of_le hscale, hmantissa⟩
  · have hmax : max a.scale (n + 1) = n + 1 := Nat.max_eq_right (Nat.le_succ_of_le hscale)
    simp only [hmax, Nat.sub_self]
    have hshift := ha.mantissa_add_digit_lt hd
    rw [show Nat.pow 10 0 = 1 from rfl, Nat.mul_one]
    rw [fit?_eq_some (Nat.le_trans (Nat.le_of_lt hshift) (pow_le_maxMantissa hn)) hn]
    exact ⟨_, rfl, Nat.le_refl _, hshift⟩

end Magnitude

namespace Spelled

open Magnitude

def IsDigitWord (t : Token) : Prop :=
  t.keyword = .numberWord ∧ (cardinal? (Text.fold t.text)).getD 0 < 10

instance (t : Token) : Decidable (IsDigitWord t) :=
  inferInstanceAs (Decidable (_ ∧ _))

inductive Passes : Progress → List Token → Progress → Prop
  | nil {p} : Passes p [] p
  | cons {p p' q t ts} (ht : step p t ts.head? = .next p') (hts : Passes p' ts q) :
      Passes p (t :: ts) q

/-- The tokens complete a whole number, of which `p` has been read, and go on with `point` and with
more digit words than there are places. -/
def OverlongFrom (p : Progress) (ts : List Token) : Prop :=
  ∃ whole point digits rest q, ts = whole ++ point :: (digits ++ rest) ∧ Passes p whole q ∧
    q.inFraction = false ∧ point.keyword = .point ∧ digits.length = maxScale + 1 ∧
      ∀ t ∈ digits, IsDigitWord t

/-- The tokens begin with a whole number, `point` and more digit words than there are places. -/
def IsOverlong (ts : List Token) : Prop :=
  OverlongFrom .start ts

structure Progress.IsWhole (p : Progress) : Prop where
  inFraction : p.inFraction = false
  fraction : p.fraction = .zero
  places : p.places = 0

def Step.IsWhole : Step → Prop
  | next p => p.IsWhole
  | placesExhausted => False
  | stop | fault _ => True

structure Progress.IsPartial (p : Progress) : Prop where
  inFraction : p.inFraction = true
  fraction : p.fraction.IsFraction p.places
  places_le : p.places ≤ maxScale

theorem Progress.isWhole_start : Progress.start.IsWhole :=
  ⟨rfl, rfl, rfl⟩

section steps

variable {p p' : Progress} {t : Token} {following : Option Token}

section whole

theorem isWhole_ofOption {f : Magnitude → Progress} (hf : ∀ a, (f a).IsWhole)
    (m : Option Magnitude) : (Step.ofOption f m).IsWhole := by
  cases m with
  | none => trivial
  | some a => exact hf a

/-- What goes on with a whole number, other than `point`, leaves it whole, and places do not matter
to it. -/
theorem isWhole_step (following : Option Token) (hp : p.IsWhole) (ht : t.keyword ≠ .point) :
    (step p t following).IsWhole := by
  have hkeeps (total group : Magnitude) (afterScale : Bool) :
      Progress.IsWhole ⟨total, group, p.fraction, p.places, false, afterScale⟩ :=
    ⟨rfl, hp.fraction, hp.places⟩
  -- A scale word closes the group, or multiplies it if it is `hundred`.
  have hscale : (scaleStep p t).IsWhole := by
    unfold scaleStep
    simp only [hp.inFraction, Bool.false_eq_true, if_false]
    generalize (if p.group.isZero = true then one else p.group).times? _ = scaled
    by_cases hhundred : t.keyword = .hundred
    · rw [if_pos hhundred]
      exact isWhole_ofOption (fun a => hkeeps p.total a true) scaled
    · rw [if_neg hhundred]
      exact isWhole_ofOption (fun a => hkeeps a .zero true) _
  unfold step
  split
  · unfold cardinalStep
    simp only [hp.inFraction, Bool.false_eq_true, if_false]
    exact isWhole_ofOption (fun a => hkeeps p.total a false) _
  · exact hscale
  · exact hscale
  · exact hscale
  · exact hscale
  · simp only
    split
    · exact ⟨hp.inFraction, hp.fraction, hp.places⟩
    · trivial
  · exact absurd ‹_› ht
  · trivial

/-- `point` begins the fraction if a number word follows it. -/
theorem step_point (hp : p.inFraction = false) (ht : t.keyword = .point) :
    step p t following =
      if following.any (·.keyword == .numberWord) then
        .next { p with inFraction := true, afterScale := false }
      else .stop := by
  unfold step
  simp only [ht, hp, Bool.false_eq_true, if_false]

end whole

section fraction

/-- In a fraction only digit words go on. -/
theorem step_of_not_isDigitWord (following : Option Token) (hp : p.inFraction = true)
    (ht : ¬ IsDigitWord t) :
    step p t following = .stop ∨ ∃ f, step p t following = .fault f := by
  unfold step cardinalStep scaleStep
  simp only [hp, if_true, Bool.not_true, Bool.and_false, Bool.false_and]
  split
  · rename_i hword
    have hlarge : (cardinal? (Text.fold t.text)).getD 0 ≥ 10 :=
      Nat.le_of_not_lt fun hd => ht ⟨hword, hd⟩
    rw [if_pos hlarge]
    exact .inr ⟨_, rfl⟩
  · exact .inr ⟨_, rfl⟩
  · exact .inr ⟨_, rfl⟩
  · exact .inr ⟨_, rfl⟩
  · exact .inr ⟨_, rfl⟩
  · exact .inl rfl
  · exact .inr ⟨_, rfl⟩
  · exact .inl rfl

/-- A digit word takes the next place, if there is one. -/
theorem step_of_isDigitWord (following : Option Token) (hp : p.IsPartial) (ht : IsDigitWord t) :
    p.places = maxScale ∧ step p t following = .placesExhausted ∨
      ∃ p', step p t following = .next p' ∧ p'.IsPartial ∧ p'.places = p.places + 1 := by
  have hstep : step p t following = cardinalStep p t := by
    unfold step
    rw [ht.1]
  rw [hstep, cardinalStep]
  simp only [hp.inFraction, if_true]
  rw [if_neg (Nat.not_le_of_lt ht.2)]
  cases hdigit : Magnitude.of? ((cardinal? (Text.fold t.text)).getD 0) (p.places + 1) with
  | none =>
    have hfull := (of?_digit_eq_none_iff ht.2).mp hdigit
    exact .inl ⟨Nat.le_antisymm hp.places_le (Nat.le_of_lt_succ hfull), rfl⟩
  | some digit =>
    have hfree : p.places + 1 ≤ maxScale := by
      apply Nat.le_of_not_lt
      intro hfull
      rw [(of?_digit_eq_none_iff ht.2).mpr hfull] at hdigit
      cases hdigit
    obtain ⟨sum, hsum, hfraction⟩ := exists_add?_digit hp.fraction ht.2 hdigit
    simp only [hsum]
    exact .inr ⟨_, rfl, ⟨rfl, hfraction, hfree⟩, rfl⟩

/-- Behind `point` a fraction without places begins. -/
theorem isPartial_point (hp : p.IsWhole) :
    Progress.IsPartial { p with inFraction := true, afterScale := false } := by
  refine ⟨rfl, ?_, ?_⟩
  · simp only [hp.fraction, hp.places]
    exact isFraction_zero 0
  · simp only [hp.places]
    exact Nat.zero_le _

/-- What goes on with a fraction leaves it a fraction. -/
theorem isPartial_of_step (hp : p.IsPartial) (h : step p t following = .next p') :
    p'.IsPartial := by
  by_cases ht : IsDigitWord t
  · rcases step_of_isDigitWord following hp ht with ⟨-, hstep⟩ | ⟨p'', hstep, hp', -⟩
    · rw [hstep] at h
      cases h
    · rw [hstep] at h
      cases h
      exact hp'
  · rcases step_of_not_isDigitWord following hp.inFraction ht with
      hstep | ⟨f, hstep⟩
    · rw [hstep] at h
      cases h
    · rw [hstep] at h
      cases h

end fraction

theorem ofOption_ne_stop (f : Magnitude → Progress) (m : Option Magnitude) :
    Step.ofOption f m ≠ .stop := by
  cases m <;> exact Step.noConfusion

/-- A number word does not end a number. -/
theorem step_ne_stop (ht : t.keyword = .numberWord) : step p t following ≠ .stop := by
  unfold step
  rw [ht]
  simp only
  unfold cardinalStep
  simp only
  split
  · split
    · exact Step.noConfusion
    · split
      · exact Step.noConfusion
      · exact ofOption_ne_stop _ _
  · exact ofOption_ne_stop _ _

/-- Of the token behind it a step looks only at whether it is a number word. -/
theorem step_congr {following' : Option Token}
    (h : following.any (·.keyword == .numberWord) = following'.any (·.keyword == .numberWord)) :
    step p t following = step p t following' := by
  unfold step
  rw [h]

end steps

theorem Passes.isPartial {p q : Progress} {ts : List Token} (h : Passes p ts q)
    (hp : p.IsPartial) : q.IsPartial := by
  induction h with
  | nil => exact hp
  | cons ht _ ih => exact ih (isPartial_of_step hp ht)

section read

variable {run ts : List Token} {p q : Progress} {k n : Nat}

/-- With some places read, the answer is missing if digit words for one place too many follow. -/
theorem read_isPartial (hp : p.IsPartial) :
    read run p k ts = .error .placesExhausted ↔
      ∃ digits rest, ts = digits ++ rest ∧ p.places + digits.length = maxScale + 1 ∧
        ∀ t ∈ digits, IsDigitWord t := by
  induction ts generalizing p k with
  | nil =>
    constructor
    · intro h
      cases h
    · rintro ⟨digits, rest, hts, hlength, -⟩
      obtain ⟨rfl, -⟩ := List.append_eq_nil_iff.mp hts.symm
      have hle := hp.places_le
      rw [List.length_nil] at hlength
      omega
  | cons t ts ih =>
    have hle := hp.places_le
    by_cases ht : IsDigitWord t
    · -- A digit word takes the next place, or there is no place left for it.
      rcases step_of_isDigitWord ts.head? hp ht with ⟨hfull, hstep⟩ | hnext
      · rw [read, hstep]
        refine iff_of_true rfl ⟨[t], ts, rfl, ?_, ?_⟩
        · rw [hfull]
          rfl
        · intro u hu
          rw [List.mem_singleton.mp hu]
          exact ht
      · obtain ⟨p', hstep, hp', hplaces⟩ := hnext
        rw [read, hstep]
        simp only
        rw [ih hp']
        constructor
        · rintro ⟨digits, rest, rfl, hlength, hdigits⟩
          refine ⟨t :: digits, rest, rfl, ?_, List.forall_mem_cons.mpr ⟨ht, hdigits⟩⟩
          rw [List.length_cons]
          omega
        · rintro ⟨digits, rest, hts, hlength, hdigits⟩
          cases digits with
          | nil =>
            rw [List.length_nil] at hlength
            omega
          | cons u digits =>
            obtain ⟨rfl, rfl⟩ := List.cons.inj hts
            refine ⟨digits, rest, rfl, ?_, (List.forall_mem_cons.mp hdigits).2⟩
            rw [List.length_cons] at hlength
            omega
    · -- Here the number ends or is spoilt, and the digits would have to begin here.
      have hread : read run p k (t :: ts) ≠ .error .placesExhausted := by
        rw [read]
        rcases step_of_not_isDigitWord ts.head? hp.inFraction ht with
          hstep | ⟨f, hstep⟩
        · rw [hstep]
          intro h
          cases h
        · rw [hstep]
          intro h
          cases h
      refine iff_of_false hread ?_
      rintro ⟨digits, rest, hts, hlength, hdigits⟩
      cases digits with
      | nil =>
        rw [List.length_nil] at hlength
        omega
      | cons u digits =>
        obtain ⟨rfl, -⟩ := List.cons.inj hts
        exact ht (hdigits t (List.mem_cons_self ..))

/-- What is no number word is as good as the end of the tokens, whatever stands before it. -/
theorem step_head?_append {t : Token} {rest : List Token}
    (hrest : ∀ u ∈ rest.head?, u.keyword ≠ .numberWord) (ws : List Token) :
    step p t (ws ++ rest).head? = step p t ws.head? := by
  apply step_congr
  cases ws with
  | nil =>
    rw [List.nil_append, List.head?_nil, Option.any_none, Option.any_eq_false]
    exact fun u hu => beq_eq_false_iff_ne.mpr (hrest u hu)
  | cons w ws => rfl

/-- Tokens that go on with the number are read, and then what stands behind them. -/
theorem Passes.read_append {rest : List Token} (h : Passes p ts q)
    (hrest : ∀ u ∈ rest.head?, u.keyword ≠ .numberWord) (run : List Token) (k : Nat) :
    read run p k (ts ++ rest) = read run q (k + ts.length) rest := by
  induction h generalizing k with
  | nil => rfl
  | cons ht hts ih =>
    rw [List.cons_append, read, step_head?_append hrest, ht]
    simp only
    rw [ih, List.length_cons, Nat.add_assoc, Nat.add_comm 1]

/-- Tokens that all go on may be followed by others that do. -/
theorem Passes.append {r : Progress} {us : List Token} (h : Passes p ts q) (h' : Passes q us r)
    (hus : ∀ u ∈ us.head?, u.keyword ≠ .numberWord) : Passes p (ts ++ us) r := by
  induction h with
  | nil => exact h'
  | cons ht _ ih =>
    exact .cons ((step_head?_append hus _).trans ht) (ih h')

/-- Where all tokens are taken, all of them go on with the number. -/
theorem passes_of_read (h : read run p k ts = .ok (q, k + ts.length)) : Passes p ts q := by
  induction ts generalizing p k with
  | nil =>
    cases h
    exact .nil
  | cons t ts ih =>
    rw [read] at h
    cases hstep : step p t ts.head? with
    | stop =>
      rw [hstep] at h
      simp only [Except.ok.injEq, Prod.mk.injEq, List.length_cons] at h
      omega
    | next p' =>
      rw [hstep] at h
      refine .cons hstep (ih (k := k + 1) ?_)
      rw [Nat.add_assoc, Nat.add_comm 1, ← List.length_cons (a := t)]
      exact h
    | fault f =>
      rw [hstep] at h
      cases h
    | placesExhausted =>
      rw [hstep] at h
      cases h

theorem ne_numberWord_of_point {point : Token} {us : List Token} (hpoint : point.keyword = .point) :
    ∀ u ∈ (point :: us).head?, u.keyword ≠ .numberWord := by
  rintro u ⟨⟩
  rw [hpoint]
  decide

/-- A step that does not go on is none of an overlong number, unless the number is complete. -/
theorem OverlongFrom.next {t : Token} (h : OverlongFrom p (t :: ts)) (ht : t.keyword ≠ .point) :
    ∃ p', step p t ts.head? = .next p' ∧ OverlongFrom p' ts := by
  obtain ⟨whole, point, digits, rest, q, hts, hpasses, hq, hpoint, hdigits⟩ := h
  cases hpasses with
  | nil =>
    obtain ⟨rfl, -⟩ := List.cons.inj hts
    exact absurd hpoint ht
  | cons hstep hpasses =>
    rw [List.cons_append] at hts
    obtain ⟨rfl, rfl⟩ := List.cons.inj hts
    refine ⟨_, ?_, _, point, digits, rest, q, rfl, hpasses, hq, hpoint, hdigits⟩
    rw [step_head?_append (ne_numberWord_of_point hpoint)]
    exact hstep

theorem OverlongFrom.cons {t : Token} {p' : Progress} (ht : step p t ts.head? = .next p')
    (h : OverlongFrom p' ts) : OverlongFrom p (t :: ts) := by
  obtain ⟨whole, point, digits, rest, q, rfl, hpasses, hq, hpoint, hdigits⟩ := h
  rw [step_head?_append (ne_numberWord_of_point hpoint)] at ht
  exact ⟨t :: whole, point, digits, rest, q, rfl, .cons ht hpasses, hq, hpoint, hdigits⟩

/-- At `point` the number is overlong if the fraction is. -/
theorem overlongFrom_point {t : Token} (hp : p.IsWhole) (ht : t.keyword = .point) :
    OverlongFrom p (t :: ts) ↔ ∃ digits rest, ts = digits ++ rest ∧
      digits.length = maxScale + 1 ∧ ∀ t ∈ digits, IsDigitWord t := by
  constructor
  · rintro ⟨whole, point, digits, rest, q, hts, hpasses, hq, hpoint, hdigits⟩
    cases hpasses with
    | nil =>
      obtain ⟨rfl, rfl⟩ := List.cons.inj hts
      exact ⟨digits, rest, rfl, hdigits⟩
    | cons hstep hpasses =>
      -- Behind `point` the number would not be whole.
      obtain ⟨rfl, -⟩ := List.cons.inj hts
      rw [step_point hp.inFraction ht] at hstep
      split at hstep
      · cases hstep
        have hpartial := hpasses.isPartial (isPartial_point hp)
        rw [hpartial.inFraction] at hq
        cases hq
      · cases hstep
  · rintro ⟨digits, rest, rfl, hdigits⟩
    exact ⟨[], t, digits, rest, p, rfl, .nil, hp.inFraction, ht, hdigits⟩

/-- With nothing of a fraction read, the answer is missing if the rest of the number is overlong. -/
theorem read_isWhole (hp : p.IsWhole) :
    read run p k ts = .error .placesExhausted ↔ OverlongFrom p ts := by
  induction ts generalizing p k with
  | nil =>
    constructor
    · intro h
      cases h
    · rintro ⟨whole, point, digits, rest, q, hts, -⟩
      cases whole <;> cases hts
  | cons t ts ih =>
    by_cases ht : t.keyword = .point
    · -- Behind the point the digit words are counted. A point without any is not part of the
      -- number.
      rw [overlongFrom_point hp ht, read, step_point hp.inFraction ht]
      split_ifs with hfollows
      · simp only
        rw [read_isPartial (isPartial_point hp)]
        simp only [hp.places, Nat.zero_add]
      · refine iff_of_false not_false ?_
        rintro ⟨digits, rest, rfl, hlength, hdigits⟩
        cases digits with
        | nil => cases hlength
        | cons u digits =>
          apply hfollows
          rw [List.cons_append, List.head?_cons, Option.any_some,
            (hdigits u (List.mem_cons_self ..)).1]
          rfl
    · -- In front of the point nothing is counted, and the rest is overlong if what is behind the
      -- step is.
      have hwhole := isWhole_step ts.head? hp ht
      rw [read]
      cases hstep : step p t ts.head? with
      | next p' =>
        rw [hstep] at hwhole
        simp only
        rw [ih hwhole]
        constructor
        · exact OverlongFrom.cons hstep
        · intro h
          obtain ⟨p'', hnext, hlater⟩ := h.next ht
          rw [hstep] at hnext
          cases hnext
          exact hlater
      | placesExhausted =>
        rw [hstep] at hwhole
        cases hwhole
      | stop =>
        refine iff_of_false ok_ne_error fun h => ?_
        obtain ⟨p', hnext, -⟩ := h.next ht
        rw [hstep] at hnext
        cases hnext
      | fault f =>
        refine iff_of_false (fun h => by cases h) fun h => ?_
        obtain ⟨p', hnext, -⟩ := h.next ht
        rw [hstep] at hnext
        cases hnext

end read

section number

variable {run : List Token} {k n : Nat} {q : Progress}

/-- A number that is read has an answer, if only that it is too large. -/
theorem token_eq_error_iff (negative : Bool) (run : List Token) (k : Nat) (place : Position) :
    token negative run k place = .error .placesExhausted ↔ IsOverlong (run.drop k) := by
  have hread : read run .start k (run.drop k) = .error .placesExhausted ↔
      OverlongFrom .start (run.drop k) := read_isWhole Progress.isWhole_start
  rw [IsOverlong, ← hread, token]
  cases read run .start k (run.drop k) with
  | error e => exact error_eq_error_iff
  | ok r =>
    obtain ⟨progress, taken⟩ := r
    simp only [bind, Except.bind]
    cases progress.value? with
    | none => exact iff_of_false (fun h => by cases h) ok_ne_error
    | some m => exact iff_of_false ok_ne_error ok_ne_error

/-- What has been taken stays taken. -/
theorem le_of_read {p : Progress} {ts : List Token} (h : read run p k ts = .ok (q, n)) :
    k ≤ n := by
  induction ts generalizing p k with
  | nil =>
    cases h
    exact Nat.le_refl _
  | cons t ts ih =>
    rw [read] at h
    cases hstep : step p t ts.head? with
    | stop =>
      rw [hstep] at h
      cases h
      exact Nat.le_refl _
    | next p' =>
      rw [hstep] at h
      exact Nat.le_of_succ_le (ih h)
    | fault f =>
      rw [hstep] at h
      cases h
    | placesExhausted =>
      rw [hstep] at h
      cases h

/-- A number word at the beginning is taken. -/
theorem pos_of_read (hk : 0 < k ∨ ∃ u us, run = u :: us ∧ u.keyword = .numberWord)
    (h : read run .start k (run.drop k) = .ok (q, n)) : 0 < n := by
  have hle := le_of_read h
  rcases hk with hk | ⟨u, us, rfl, hu⟩
  · exact Nat.lt_of_lt_of_le hk hle
  · cases k with
    | succ k => exact Nat.lt_of_lt_of_le (Nat.succ_pos k) hle
    | zero =>
      rw [List.drop_zero, read] at h
      cases hstep : step .start u us.head? with
      | stop => exact absurd hstep (step_ne_stop hu)
      | next p' =>
        rw [hstep] at h
        exact le_of_read h
      | fault f =>
        rw [hstep] at h
        cases h
      | placesExhausted =>
        rw [hstep] at h
        cases h

theorem pos_of_token {negative : Bool} {place : Position} {t : Token}
    (hk : 0 < k ∨ ∃ u us, run = u :: us ∧ u.keyword = .numberWord)
    (h : token negative run k place = .ok (t, n)) : 0 < n := by
  obtain ⟨q, m, hread, -, -⟩ := exists_of_token h
  exact pos_of_read hk hread

end number

end Spelled

/-- The tokens begin with an overlong number, behind a sign or without one. -/
inductive BeginsOverlong : List Token → Prop
  | unsigned {t ts} (ht : t.keyword = .numberWord) (h : Spelled.IsOverlong (t :: ts)) :
      BeginsOverlong (t :: ts)
  | signed {sign t ts} (hsign : sign.keyword = .negative) (ht : t.keyword = .numberWord)
      (hliteral : t.kind = .number → t.text.toList.head? = some '-')
      (h : Spelled.IsOverlong (t :: ts)) : BeginsOverlong (sign :: t :: ts)

theorem map_some_eq_error_iff {α : Type} {r : Except CondenseFailure α} {e : CondenseFailure} :
    r.map some = .error e ↔ r = .error e := by
  cases r with
  | error e' => exact error_eq_error_iff
  | ok a => exact iff_of_false ok_ne_error ok_ne_error

/-- The only numbers without an answer are the overlong ones. -/
theorem spelled?_eq_error_iff (ts : List Token) :
    spelled? ts = .error .placesExhausted ↔ BeginsOverlong ts := by
  cases ts with
  | nil => exact iff_of_false ok_ne_error fun h => by cases h
  | cons first ts =>
    rw [spelled?.eq_def]
    simp only
    by_cases hsign : first.keyword = .negative
    · rw [if_pos hsign]
      -- Words of the grammar are one keyword, so a sign is no number word.
      have hunsigned : first.keyword ≠ .numberWord := by
        rw [hsign]
        decide
      cases ts with
      | nil =>
        refine iff_of_false ok_ne_error fun h => ?_
        cases h with
        | unsigned ht => exact hunsigned ht
      | cons t ts =>
        simp only
        split_ifs with hliteral hword
        · refine iff_of_false not_false fun h => ?_
          cases h with
          | unsigned ht => exact hunsigned ht
          | signed _ _ h => exact hliteral.2 (h hliteral.1)
        · rw [map_some_eq_error_iff, Spelled.token_eq_error_iff]
          constructor
          · intro h
            refine BeginsOverlong.signed hsign hword ?_ h
            intro hkind
            apply Decidable.not_not.mp
            intro htext
            exact hliteral ⟨hkind, htext⟩
          · intro h
            cases h with
            | unsigned ht => exact absurd ht hunsigned
            | signed _ _ _ h => exact h
        · refine iff_of_false not_false fun h => ?_
          cases h with
          | unsigned ht => exact hunsigned ht
          | signed _ ht => exact hword ht
    · rw [if_neg hsign]
      by_cases hword : first.keyword = .numberWord
      · rw [if_pos hword, map_some_eq_error_iff, Spelled.token_eq_error_iff]
        constructor
        · exact BeginsOverlong.unsigned hword
        · intro h
          cases h with
          | unsigned _ h => exact h
          | signed hnegative => exact absurd hnegative hsign
      · rw [if_neg hword]
        refine iff_of_false ok_ne_error fun h => ?_
        cases h with
        | unsigned ht => exact hword ht
        | signed hnegative => exact hsign hnegative

/-- A number has a token. -/
theorem pos_of_spelled? {ts : List Token} {u : Token} {n : Nat}
    (h : spelled? ts = .ok (some (u, n))) : 0 < n := by
  have htoken {negative : Bool} {run : List Token} {k : Nat} {place : Position}
      (hk : 0 < k ∨ ∃ u us, run = u :: us ∧ u.keyword = .numberWord)
      (h : (Spelled.token negative run k place).map some = .ok (some (u, n))) : 0 < n :=
    Spelled.pos_of_token hk (eq_ok_of_map h)
  rw [spelled?.eq_def] at h
  cases ts with
  | nil => cases h
  | cons first ts =>
    simp only at h
    split_ifs at h with hsign hword
    · cases ts with
      | nil => cases h
      | cons t ts =>
        simp only at h
        split_ifs at h
        · cases h
          exact Nat.two_pos
        · exact htoken (.inl Nat.one_pos) h
        · cases h
    · exact htoken (.inr ⟨first, ts, rfl, hword⟩) h
    · cases h

end Prose.Number
