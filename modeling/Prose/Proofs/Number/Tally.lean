import Prose.Proofs.Number.Literal

/-! The words of whole numbers and what they add up to. Reading such words keeps a tally in natural
numbers, and it ends early only where the tally is too large for a decimal. -/
namespace Prose.Number

inductive Scale where
  | thousand | million | billion
  deriving DecidableEq

def Scale.factor : Scale → ℕ
  | thousand => 1000
  | million => 1000000
  | billion => 1000000000

/-- The words that whole numbers are made of: those for the numbers below twenty, those for the tens
from twenty on, `hundred`, the words that close a group, and `and`. -/
inductive Part where
  | small (n : Fin 20)
  | tens (n : Fin 8)
  | hundred
  | scale (s : Scale)
  | joint
  deriving DecidableEq

namespace Part

def smallWords : List String :=
  ["zero", "one", "two", "three", "four", "five", "six", "seven", "eight", "nine", "ten", "eleven",
    "twelve", "thirteen", "fourteen", "fifteen", "sixteen", "seventeen", "eighteen", "nineteen"]

def tensWords : List String :=
  ["twenty", "thirty", "forty", "fifty", "sixty", "seventy", "eighty", "ninety"]

def text : Part → String
  | small n => smallWords.get n
  | tens n => tensWords.get n
  | hundred => "hundred"
  | scale .thousand => "thousand"
  | scale .million => "million"
  | scale .billion => "billion"
  | joint => "and"

def amount : Part → ℕ
  | small n => n
  | tens n => 10 * (n + 2)
  | _ => 0

def IsNumber : Part → Prop
  | small _ | tens _ => True
  | _ => False

def IsScale : Part → Prop
  | hundred | scale _ => True
  | _ => False

instance : DecidablePred IsScale := fun x => by
  cases x <;> unfold IsScale <;> infer_instance

def role : Part → Keyword
  | small _ | tens _ => .numberWord
  | hundred => .hundred
  | scale .thousand => .thousand
  | scale .million => .million
  | scale .billion => .billion
  | joint => .andWord

theorem ofFolded_text (x : Part) : Keyword.ofFolded x.text = x.role := by
  have hsmall : ∀ n, Keyword.ofFolded (small n).text = .numberWord := by decide +kernel
  have htens : ∀ n, Keyword.ofFolded (tens n).text = .numberWord := by decide +kernel
  cases x with
  | small n => exact hsmall n
  | tens n => exact htens n
  | hundred => decide +kernel
  | scale s => cases s <;> decide +kernel
  | joint => decide +kernel

/-- A token that is the word plays its role. -/
theorem keyword_of_isWord {t : Token} {x : Part} (h : t.IsWord x.text) : t.keyword = x.role := by
  rw [h.keyword, x.ofFolded_text]

theorem role_mem_roles (x : Part) : x.role ∈ roles := by
  have hword : Keyword.numberWord ∈ roles := by decide
  cases x with
  | small n => exact hword
  | tens n => exact hword
  | scale s => cases s <;> decide
  | hundred | joint => decide

theorem role_eq_numberWord_iff {x : Part} : x.role = .numberWord ↔ x.IsNumber := by
  cases x with
  | small | tens => exact iff_of_true rfl trivial
  | scale s => exact iff_of_false (by cases s <;> decide) id
  | hundred | joint => exact iff_of_false (by decide) id

theorem isScale_role {x : Part} : x.role.isScale = true ↔ x.IsScale := by
  cases x with
  | scale s => exact iff_of_true (by cases s <;> rfl) trivial
  | hundred => exact iff_of_true rfl trivial
  | small | tens | joint => exact iff_of_false nofun id

theorem role_eq_andWord_iff {x : Part} : x.role = .andWord ↔ x = .joint := by
  cases x with
  | scale s => exact iff_of_false (by cases s <;> decide) nofun
  | joint => exact iff_of_true rfl rfl
  | small | tens | hundred => exact iff_of_false nofun nofun

theorem role_ne_point (x : Part) : x.role ≠ .point := by
  cases x with
  | scale s => cases s <;> decide
  | small | tens | hundred | joint => exact nofun

theorem IsNumber.ne_joint {x : Part} (hx : x.IsNumber) : x ≠ .joint := by
  rintro rfl
  exact hx

theorem IsScale.ne_joint {x : Part} (hx : x.IsScale) : x ≠ .joint := by
  rintro rfl
  exact hx

theorem IsNumber.not_isScale {x : Part} (hx : x.IsNumber) : ¬ x.IsScale := by
  cases x with
  | small | tens => exact id
  | hundred | scale | joint => exact hx.elim

theorem cardinal?_text {x : Part} (hx : x.IsNumber) : cardinal? x.text = some x.amount := by
  have hsmall : ∀ n, cardinal? (small n).text = some (small n).amount := by decide +kernel
  have htens : ∀ n, cardinal? (tens n).text = some (tens n).amount := by decide +kernel
  cases x with
  | small n => exact hsmall n
  | tens n => exact htens n
  | hundred | scale | joint => exact hx.elim

theorem amount_le (x : Part) : x.amount ≤ maxMantissa := by
  have hle : x.amount ≤ 90 := by
    cases x with
    | small n => exact Nat.le_trans n.is_le (by decide)
    | tens n => exact Nat.mul_le_mul_left 10 (Nat.add_le_add_right n.is_le 2)
    | hundred | scale | joint => exact Nat.zero_le _
  exact Nat.le_trans hle (by decide)

theorem fold_text (x : Part) : Text.fold x.text = x.text := by
  have hsmall : ∀ n, Text.fold (small n).text = (small n).text := by decide +kernel
  have htens : ∀ n, Text.fold (tens n).text = (tens n).text := by decide +kernel
  cases x with
  | small n => exact hsmall n
  | tens n => exact htens n
  | scale s => cases s <;> decide +kernel
  | hundred | joint => decide +kernel

theorem scale?_text (s : Scale) : scale? (scale s).text = some s.factor := by
  cases s <;> decide +kernel

end Part

def Spells (ts : List Token) (parts : List Part) : Prop :=
  List.Forall₂ (fun t x => t.IsWord x.text) ts parts

def Part.token (place : Position) (x : Part) : Token :=
  .ofText .word x.text place

theorem Part.isWord_token (place : Position) (x : Part) : (x.token place).IsWord x.text :=
  Token.isWord_ofText x.fold_text place

theorem spells_map_token (place : Position) (parts : List Part) :
    Spells (parts.map (Part.token place)) parts := by
  rw [Spells, List.forall₂_map_left_iff, List.forall₂_same]
  exact fun x _ => x.isWord_token place

theorem Spells.mem_roles {ts : List Token} {parts : List Part} (h : Spells ts parts) :
    ∀ t ∈ ts, t.kind = .word ∧ t.keyword ∈ roles := by
  induction h with
  | nil => exact List.forall_mem_nil _
  | @cons t x ts parts ht _ ih =>
    refine List.forall_mem_cons.mpr ⟨⟨ht.kind, ?_⟩, ih⟩
    rw [Part.keyword_of_isWord ht]
    exact x.role_mem_roles

/-- What words come to: the sum of the closed groups, and the open group. -/
structure Tally where
  total : ℕ
  group : ℕ

namespace Tally

def start : Tally :=
  ⟨0, 0⟩

def value (c : Tally) : ℕ :=
  c.total + c.group

def base (c : Tally) : ℕ :=
  if c.group = 0 then 1 else c.group

def after (c : Tally) (x : Part) : Tally :=
  match x with
  | .small _ | .tens _ => { c with group := c.group + x.amount }
  | .hundred => { c with group := c.base * 100 }
  | .scale s => ⟨c.total + c.base * s.factor, 0⟩
  | .joint => c

def count (c : Tally) (parts : List Part) : Tally :=
  parts.foldl after c

theorem group_le_base_mul (c : Tally) {k : ℕ} (hk : 0 < k) : c.group ≤ c.base * k := by
  rw [base]
  split
  · rename_i hzero
    rw [hzero]
    exact Nat.zero_le _
  · exact Nat.le_mul_of_pos_right _ hk

/-- A tally never falls. -/
theorem value_le_value_after (c : Tally) (x : Part) : c.value ≤ (c.after x).value := by
  cases x with
  | small | tens => exact Nat.add_le_add_left (Nat.le_add_right _ _) _
  | hundred => exact Nat.add_le_add_left (c.group_le_base_mul (by decide)) _
  | scale s => exact Nat.add_le_add_left (c.group_le_base_mul (by cases s <;> decide)) _
  | joint => exact Nat.le_refl _

theorem value_le_value_count (c : Tally) (parts : List Part) : c.value ≤ (c.count parts).value := by
  induction parts generalizing c with
  | nil => exact Nat.le_refl _
  | cons x parts ih => exact Nat.le_trans (c.value_le_value_after x) (ih (c.after x))

end Tally

namespace Magnitude

structure IsNatural (a : Magnitude) (n : ℕ) : Prop where
  mantissa : a.mantissa = n
  scale : a.scale = 0

variable {a b : Magnitude} {m n : ℕ}

def natural (n : ℕ) (hn : n ≤ maxMantissa := by decide) : Magnitude :=
  ⟨n, 0, hn, Nat.zero_le _⟩

theorem isNatural_natural (hn : n ≤ maxMantissa) : (natural n hn).IsNatural n :=
  ⟨rfl, rfl⟩

theorem IsNatural.of?_eq (h : a.IsNatural n) : of? n 0 = some a := by
  obtain ⟨rfl, hscale⟩ := h
  rw [← hscale]
  exact of?_eq_some a.mantissa_le a.scale_le

theorem isNatural_of_of? (h : of? n 0 = some a) : a.IsNatural n :=
  ⟨(eq_of_of? h).1, (eq_of_of? h).2⟩

theorem IsNatural.toRat_eq (h : a.IsNatural n) : a.toRat = n := by
  rw [toRat, h.mantissa, h.scale, pow_zero, div_one]

theorem IsNatural.toRat_signed (h : a.IsNatural n) (negative : Bool) :
    (Decimal.signed negative a).toRat = withSign negative n := by
  rw [Decimal.toRat_signed, h.toRat_eq]

theorem IsNatural.isZero_iff (h : a.IsNatural n) : a.isZero = true ↔ n = 0 := by
  rw [isZero, h.mantissa, beq_iff_eq]

theorem IsNatural.times? (h : a.IsNatural m) (k : ℕ) : a.times? k = of? (m * k) 0 := by
  rw [Magnitude.times?, h.mantissa, h.scale]

theorem fit?_natural (m : ℕ) : fit? m 0 = of? m 0 := by
  rw [fit?, List.range_one, List.findSome?_cons, show Nat.pow 10 0 = 1 from rfl, divideHalfEven_one]
  cases of? m (0 - 0) <;> rfl

theorem IsNatural.add? (ha : a.IsNatural m) (hb : b.IsNatural n) : a.add? b = of? (m + n) 0 := by
  rw [Magnitude.add?]
  split
  · rename_i hzero
    rw [ha.isZero_iff.mp hzero, Nat.zero_add, hb.of?_eq]
  split
  · rename_i hzero
    rw [hb.isZero_iff.mp hzero, Nat.add_zero, ha.of?_eq]
  · simp only [ha.mantissa, ha.scale, hb.mantissa, hb.scale, Nat.max_self, Nat.sub_self]
    rw [show Nat.pow 10 0 = 1 from rfl, Nat.mul_one, Nat.mul_one, fit?_natural]

end Magnitude

namespace Spelled

structure Progress.Holds (p : Progress) (c : Tally) : Prop where
  whole : p.IsWhole
  total : p.total.IsNatural c.total
  group : p.group.IsNatural c.group

variable {p p' q : Progress} {c : Tally} {t : Token} {x : Part} {following : Option Token}
  {ts : List Token} {parts : List Part}

theorem holds_start : Progress.start.Holds .start :=
  ⟨Progress.isWhole_start, ⟨rfl, rfl⟩, ⟨rfl, rfl⟩⟩

/-- The value of a whole number is its tally. -/
theorem Progress.Holds.value?_eq (h : p.Holds c) : p.value? = Magnitude.of? c.value 0 := by
  rw [Progress.value?, h.total.add? h.group, ← Tally.value]
  cases hvalue : Magnitude.of? c.value 0 with
  | none => rfl
  | some a =>
    have ha := Magnitude.isNatural_of_of? hvalue
    have hzero : Magnitude.zero.IsNatural 0 := ⟨rfl, rfl⟩
    rw [Option.bind_some, h.whole.fraction, ha.add? hzero, Nat.add_zero, hvalue]

/-- The step goes on with this tally, behind a scale word or not, or the tally is too large. -/
inductive Step.Counts (c : Tally) (scaled : Bool) : Step → Prop
  | next {p : Progress} (hp : p.Holds c) (hscaled : p.afterScale = scaled) :
      Counts c scaled (.next p)
  | tooLarge (h : maxMantissa < c.value) : Counts c scaled (.fault .tooLarge)

theorem counts_ofOption {f : Magnitude → Progress} {n : ℕ} {scaled : Bool} (hn : n ≤ c.value)
    (hf : ∀ a : Magnitude, a.IsNatural n → (f a).Holds c ∧ (f a).afterScale = scaled) :
    (Step.ofOption f (Magnitude.of? n 0)).Counts c scaled := by
  cases hof : Magnitude.of? n 0 with
  | none => exact .tooLarge (Nat.lt_of_lt_of_le (Magnitude.of?_natural_eq_none_iff.mp hof) hn)
  | some a =>
    obtain ⟨hp, hscaled⟩ := hf a (Magnitude.isNatural_of_of? hof)
    exact .next hp hscaled

/-- A number word is added to the open group. -/
theorem step_number (hp : p.Holds c) (ht : t.IsWord x.text) (hx : x.IsNumber)
    (following : Option Token) :
    step p t following = .ofOption (fun a => { p with group := a, afterScale := false })
      (Magnitude.of? (c.group + x.amount) 0) := by
  have hword : t.keyword = .numberWord :=
    (Part.keyword_of_isWord ht).trans (Part.role_eq_numberWord_iff.mpr hx)
  obtain ⟨a, ha⟩ : ∃ a, Magnitude.of? x.amount 0 = some a :=
    ⟨_, Magnitude.of?_eq_some x.amount_le (Nat.zero_le _)⟩
  rw [step_of_numberWord hword, cardinalStep, ht.text, Part.cardinal?_text hx]
  simp only [hp.whole.inFraction, Bool.false_eq_true, if_false, Option.getD_some, ha,
    Option.bind_some, hp.group.add? (Magnitude.isNatural_of_of? ha)]

theorem isNatural_base (h : p.group.IsNatural c.group) :
    (if p.group.isZero then Magnitude.one else p.group).IsNatural c.base := by
  rw [Tally.base]
  by_cases hzero : c.group = 0
  · rw [if_pos hzero, if_pos (h.isZero_iff.mpr hzero)]
    exact ⟨rfl, rfl⟩
  · rw [if_neg hzero, if_neg fun hz => hzero (h.isZero_iff.mp hz)]
    exact h

/-- `hundred` multiplies the open group. -/
theorem step_hundred (hp : p.Holds c) (ht : t.IsWord Part.hundred.text)
    (following : Option Token) :
    step p t following = .ofOption (fun a => { p with group := a, afterScale := true })
      (Magnitude.of? (c.base * 100) 0) := by
  have hword : t.keyword = .hundred := Part.keyword_of_isWord ht
  have hfactor : scale? Part.hundred.text = some 100 := by decide +kernel
  rw [step_of_isScale (isScale_iff.mpr (.inl hword)), scaleStep, ht.text, hfactor]
  simp only [hp.whole.inFraction, Bool.false_eq_true, if_false, if_pos hword, Option.getD_some,
    (isNatural_base hp.group).times?]

/-- A word that closes a group multiplies it and adds it to the others. -/
theorem step_scale {s : Scale} (hp : p.Holds c) (ht : t.IsWord (Part.scale s).text)
    (following : Option Token) :
    step p t following =
      .ofOption (fun a => { p with total := a, group := .zero, afterScale := true })
        (Magnitude.of? (c.total + c.base * s.factor) 0) := by
  have hword : t.keyword = (Part.scale s).role := Part.keyword_of_isWord ht
  have hscale : t.keyword.isScale = true ∧ t.keyword ≠ .hundred := by
    rw [hword]
    cases s <;> decide
  have hsum : (Magnitude.of? (c.base * s.factor) 0).bind p.total.add? =
      Magnitude.of? (c.total + c.base * s.factor) 0 := by
    cases hproduct : Magnitude.of? (c.base * s.factor) 0 with
    | some a => exact hp.total.add? (Magnitude.isNatural_of_of? hproduct)
    | none =>
      have hlarge := Magnitude.of?_natural_eq_none_iff.mp hproduct
      rw [Option.bind_none, eq_comm, Magnitude.of?_natural_eq_none_iff]
      exact Nat.lt_of_lt_of_le hlarge (Nat.le_add_left _ _)
  rw [step_of_isScale hscale.1, scaleStep, ht.text, Part.scale?_text]
  simp only [hp.whole.inFraction, Bool.false_eq_true, if_false, if_neg hscale.2, Option.getD_some,
    (isNatural_base hp.group).times?, hsum]

/-- A word other than `and` counts. -/
theorem counts_step (hp : p.Holds c) (ht : t.IsWord x.text) (hx : x ≠ .joint)
    (following : Option Token) : (step p t following).Counts (c.after x) (decide x.IsScale) := by
  have hwhole (total group : Magnitude) (afterScale : Bool) :
      Progress.IsWhole ⟨total, group, p.fraction, p.places, p.inFraction, afterScale⟩ :=
    ⟨hp.whole.inFraction, hp.whole.fraction, hp.whole.places⟩
  cases x with
  | small n =>
    rw [step_number hp ht trivial]
    exact counts_ofOption (Nat.le_add_left _ _) fun a ha => ⟨⟨hwhole _ _ _, hp.total, ha⟩, rfl⟩
  | tens n =>
    rw [step_number hp ht trivial]
    exact counts_ofOption (Nat.le_add_left _ _) fun a ha => ⟨⟨hwhole _ _ _, hp.total, ha⟩, rfl⟩
  | hundred =>
    rw [step_hundred hp ht]
    exact counts_ofOption (Nat.le_add_left _ _) fun a ha => ⟨⟨hwhole _ _ _, hp.total, ha⟩, rfl⟩
  | scale s =>
    rw [step_scale hp ht]
    exact counts_ofOption (Nat.le_refl _) fun a ha => ⟨⟨hwhole _ _ _, ha, ⟨rfl, rfl⟩⟩, rfl⟩
  | joint => exact absurd rfl hx

/-- `and` counts nothing where it joins a number word to a scale word. -/
theorem step_joint (hp : p.Holds c) (ht : t.IsWord Part.joint.text) (hscaled : p.afterScale = true)
    (hfollows : following.any (·.keyword == .numberWord) = true) :
    step p t following = .next { p with afterScale := false } := by
  have hword : t.keyword = .andWord := Part.keyword_of_isWord ht
  rw [step_of_andWord hword hp.whole.inFraction, if_pos ⟨hscaled, hfollows⟩]

/-- Every word that goes on is counted. -/
theorem holds_of_step (hp : p.Holds c) (ht : t.IsWord x.text) (h : step p t following = .next p') :
    p'.Holds (c.after x) := by
  by_cases hx : x = .joint
  · subst hx
    have hword : t.keyword = .andWord := Part.keyword_of_isWord ht
    rw [step_of_andWord hword hp.whole.inFraction] at h
    split at h
    · cases h
      exact ⟨⟨hp.whole.inFraction, hp.whole.fraction, hp.whole.places⟩, hp.total, hp.group⟩
    · cases h
  · have hcounts := counts_step hp ht hx following
    rw [h] at hcounts
    cases hcounts with
    | next hp' => exact hp'

/-- Words that all go on are all counted. -/
theorem Passes.holds (h : Passes p ts q) (hts : Spells ts parts) (hp : p.Holds c) :
    q.Holds (c.count parts) := by
  induction h generalizing parts c with
  | nil =>
    cases hts
    exact hp
  | cons hstep _ ih =>
    cases hts with
    | cons ht hts =>
      have hq := ih hts (holds_of_step hp ht hstep)
      exact hq

/-- A word other than `and` goes on, if what it comes to is not too large. -/
theorem exists_step (hp : p.Holds c) (ht : t.IsWord x.text) (hx : x ≠ .joint)
    (hfits : (c.after x).value ≤ maxMantissa) (following : Option Token) :
    ∃ p', step p t following = .next p' ∧ p'.Holds (c.after x) ∧
      p'.afterScale = decide x.IsScale := by
  have hcounts := counts_step hp ht hx following
  generalize step p t following = s at hcounts ⊢
  cases hcounts with
  | @next p' hp' hscaled => exact ⟨p', rfl, hp', hscaled⟩
  | tooLarge hlarge => exact absurd hfits (Nat.not_le_of_lt hlarge)

/-- Words in the order of a number all go on, if what they come to is not too large. -/
theorem exists_passes {scaled : Bool} (h : GoesOn scaled ts) (hts : Spells ts parts)
    (hp : p.Holds c) (hscaled : p.afterScale = scaled)
    (hfits : (c.count parts).value ≤ maxMantissa) : ∃ q, Passes p ts q := by
  have hfirst {c : Tally} {x : Part} {parts : List Part}
      (hfits : (c.count (x :: parts)).value ≤ maxMantissa) : (c.after x).value ≤ maxMantissa :=
    Nat.le_trans ((c.after x).value_le_value_count parts) hfits
  -- By induction on the order of the words: a tally never falls, so what all of them come to bounds
  -- what each step comes to.
  induction h generalizing p c parts with
  | nil => exact ⟨p, .nil⟩
  | word hword _ ih =>
    cases hts with
    | cons ht hts =>
      have hx := Part.role_eq_numberWord_iff.mp ((Part.keyword_of_isWord ht).symm.trans hword)
      obtain ⟨p', hstep, hp', hscaled'⟩ := exists_step hp ht hx.ne_joint (hfirst hfits) _
      rw [decide_eq_false hx.not_isScale] at hscaled'
      obtain ⟨q, hq⟩ := ih hts hp' hscaled' hfits
      exact ⟨q, .cons hstep hq⟩
  | scale hscale _ ih =>
    cases hts with
    | cons ht hts =>
      have hx := Part.isScale_role.mp ((Part.keyword_of_isWord ht) ▸ hscale)
      obtain ⟨p', hstep, hp', hscaled'⟩ := exists_step hp ht hx.ne_joint (hfirst hfits) _
      rw [decide_eq_true hx] at hscaled'
      obtain ⟨q, hq⟩ := ih hts hp' hscaled' hfits
      exact ⟨q, .cons hstep hq⟩
  | @joined a t _ ha hword _ ih =>
    cases hts with
    | cons hjoint hts =>
      cases hts with
      | cons ht hts =>
        have hx := Part.role_eq_numberWord_iff.mp ((Part.keyword_of_isWord ht).symm.trans hword)
        have hand := Part.role_eq_andWord_iff.mp ((Part.keyword_of_isWord hjoint).symm.trans ha)
        subst hand
        -- `and` leaves the tally as it is, and the number word behind it goes on.
        have hjoins : step p a (some t) = .next { p with afterScale := false } :=
          step_joint hp hjoint hscaled (beq_iff_eq.mpr hword)
        have hp' := holds_of_step hp hjoint hjoins
        obtain ⟨p'', hstep, hp'', hscaled'⟩ := exists_step hp' ht hx.ne_joint (hfirst hfits) _
        rw [decide_eq_false hx.not_isScale] at hscaled'
        obtain ⟨q, hq⟩ := ih hts hp'' hscaled' hfits
        exact ⟨q, .cons hjoins (.cons hstep hq)⟩
  | point hpoint =>
    cases hts with
    | cons ht _ =>
      exact absurd ((Part.keyword_of_isWord ht).symm.trans hpoint) (Part.role_ne_point _)

end Spelled

end Prose.Number
