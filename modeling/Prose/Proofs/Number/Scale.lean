import Prose.Proofs.Number.Tally

namespace Prose.Number

/-- The words are condensed to one number token that is read as `n`, or `n` is too large. -/
inductive Amounts (ts : List Token) (n : ℕ) : Prop
  | number {u d} (h : condense ts = .ok [u]) (hu : u.ReadsAs d) (hd : d.toRat = n)
  | tooLarge (h : condense ts = .error (Spelled.problem .tooLarge ts ts.length))
      (hn : maxMantissa < n)

variable {t : Token} {ts ws : List Token} {parts : List Part} {s : Scale}

/-- Words that all go on with a number amount to their tally. -/
theorem amounts_of_read {q : Spelled.Progress} {c : Tally} (hkind : t.kind = .word)
    (hword : t.keyword = .numberWord)
    (hread : Spelled.read (t :: ts) .start 0 (t :: ts) = .ok (q, (t :: ts).length))
    (hq : q.Holds c) : Amounts (t :: ts) c.value := by
  have hvalue := hq.value?_eq
  cases hm : Magnitude.of? c.value 0 with
  | some m =>
    rw [hm] at hvalue
    have hread' : Spelled.read (t :: ts) .start 0 (t :: ts) = .ok (q, 0 + (t :: ts).length) := by
      rw [hread, Nat.zero_add]
    obtain ⟨u, hcondense, hreads⟩ :=
      condense_of_passes .positive hkind hword (Spelled.passes_of_read hread') hvalue
    refine .number hcondense hreads ?_
    rw [(Magnitude.isNatural_of_of? hm).toRat_signed, withSign_false]
  | none =>
    rw [hm] at hvalue
    refine .tooLarge (condense_of_token hkind hword fun p => ?_)
      (Magnitude.of?_natural_eq_none_iff.mp hm)
    rw [Spelled.token, List.drop_zero, hread]
    simp only [bind, Except.bind, hvalue]

/-- Words that are too large at the last of them amount to too much. -/
theorem amounts_of_read_error {n : ℕ} (hkind : t.kind = .word) (hword : t.keyword = .numberWord)
    (hread : Spelled.read (t :: ts) .start 0 (t :: ts) =
      .error (Spelled.problem .tooLarge (t :: ts) (t :: ts).length))
    (hn : maxMantissa < n) : Amounts (t :: ts) n := by
  refine .tooLarge (condense_of_token hkind hword fun p => ?_) hn
  rw [Spelled.token, List.drop_zero, hread]
  rfl

/-- Without a word that closes a group nothing is in the closed groups. -/
theorem total_count (c : Tally) (h : ∀ s, .scale s ∉ parts) : (c.count parts).total = c.total := by
  induction parts generalizing c with
  | nil => rfl
  | cons x parts ih =>
    have hrest : (c.count (x :: parts)).total = (c.after x).total :=
      ih (c.after x) fun s hs => h s (List.mem_cons_of_mem _ hs)
    rw [hrest]
    cases x with
    | small | tens | hundred | joint => rfl
    | scale s => exact absurd (List.mem_cons_self ..) (h s)

/-- A word that closes a group, behind words that all go on, multiplies what they come to. -/
theorem amounts_concat {q : Spelled.Progress} (hkind : t.kind = .word)
    (hword : t.keyword = .numberWord) (hpasses : Spelled.Passes .start (t :: ts) q)
    (hts : Spells (t :: ts) parts) (hplain : ∀ s, .scale s ∉ parts) {v : Token}
    (hv : v.IsWord (Part.scale s).text) :
    Amounts (t :: ts ++ [v]) ((Tally.start.count parts).base * s.factor) := by
  have hscale : v.keyword = (Part.scale s).role := Part.keyword_of_isWord hv
  have hrest : ∀ u ∈ [v].head?, u.keyword ≠ .numberWord := by
    rintro u ⟨⟩
    rw [hscale]
    cases s <;> decide
  have htally : ((Tally.start.count parts).after (.scale s)).value =
      (Tally.start.count parts).base * s.factor := by
    have htotal : (Tally.start.count parts).total = 0 := total_count .start hplain
    show (Tally.start.count parts).total + _ + 0 = _
    rw [htotal, Nat.zero_add, Nat.add_zero]
  have hread := hpasses.read_append hrest (t :: ts ++ [v]) 0
  have hcounts := Spelled.counts_step (hpasses.holds hts Spelled.holds_start) hv nofun none
  have hlength : 0 + (t :: ts).length + 1 = (t :: ts ++ [v]).length := by
    rw [List.length_append, Nat.zero_add, List.length_singleton]
  rw [Spelled.read, List.head?_nil, hlength] at hread
  -- The word is the last one: it completes the number or is where it grows too large.
  generalize Spelled.step q v none = step at hread hcounts
  rw [← htally]
  cases hcounts with
  | next hp => exact amounts_of_read hkind hword hread hp
  | tooLarge hlarge => exact amounts_of_read_error hkind hword hread hlarge

/-- A word that closes a group multiplies the number before it, and behind a zero it stands for its
own factor. -/
theorem condense_scale (hws : Spells ws parts) (hplain : ∀ s, .scale s ∉ parts) {u : Token}
    {d : Decimal} (hu : condense ws = .ok [u]) (hd : u.ReadsAs d)
    (ht : t.IsWord (Part.scale s).text) :
    ∃ n : ℕ, d.toRat = n ∧ (n ≠ 0 → Amounts (ws ++ [t]) (n * s.factor)) ∧
      (n = 0 → Amounts (ws ++ [t]) s.factor) := by
  obtain ⟨v, vs, q, m, rfl, hkind, hword, hpasses, hvalue, hreads⟩ :=
    passes_of_condense hws.mem_roles hu hd.1
  have hholds := hpasses.holds hws Spelled.holds_start
  have hamounts := amounts_concat hkind hword hpasses hws hplain ht
  set c := Tally.start.count parts
  -- No group is closed, so the value is the open group, which the word multiplies.
  have hgroup : c.value = c.group := by
    have htotal : c.total = 0 := total_count .start hplain
    rw [Tally.value, htotal, Nat.zero_add]
  rw [hholds.value?_eq, hgroup] at hvalue
  refine ⟨c.group, ?_, fun hpos => ?_, fun hzero => ?_⟩
  · rw [hd.eq hreads, (Magnitude.isNatural_of_of? hvalue).toRat_signed, withSign_false]
  · rwa [Tally.base, if_neg hpos] at hamounts
  · rwa [Tally.base, if_pos hzero, Nat.one_mul] at hamounts

/-- Two hundred and five, and so many millions. -/
theorem condense_scale_twoHundredAndFive :
    let words := [Part.small 2, .hundred, .joint, .small 5].map (Part.token ⟨1, 1, "t"⟩)
    (∃ u d, condense words = .ok [u] ∧ u.ReadsAs d ∧ d.toRat = 205) ∧
      Amounts (words ++ [Part.token ⟨1, 22, "t"⟩ (.scale .million)]) 205000000 := by
  have hcondense : condense ([Part.small 2, .hundred, .joint, .small 5].map
      (Part.token ⟨1, 1, "t"⟩)) = .ok [(Decimal.mk false (.natural 205)).token ⟨1, 1, "t"⟩] := by
    refine eq_ok_of_toOption ?_
    decide +kernel
  have hreads := readsAs_token false (.natural 205) ⟨1, 1, "t"⟩
  have hvalue := (Magnitude.isNatural_natural (n := 205) (by decide)).toRat_signed false
  obtain ⟨n, hn, hscaled, -⟩ := condense_scale (s := .million) (spells_map_token _ _)
    (fun s => by cases s <;> decide) hcondense hreads (Part.isWord_token ⟨1, 22, "t"⟩ _)
  rw [hvalue, withSign_false] at hn
  have hn : n = 205 := by exact_mod_cast hn.symm
  subst hn
  exact ⟨⟨_, _, hcondense, hreads, hvalue⟩, hscaled (by decide)⟩

/-- A thousand behind a zero is one thousand. -/
theorem not_amounts_zeroThousand :
    let zero := Part.token ⟨1, 1, "t"⟩ (.small 0)
    (∃ u d, condense [zero] = .ok [u] ∧ u.ReadsAs d ∧ d.toRat = 0) ∧
      ¬ Amounts ([zero] ++ [Part.token ⟨1, 6, "t"⟩ (.scale .thousand)])
        (0 * Scale.thousand.factor) := by
  have hzero : condense [Part.token ⟨1, 1, "t"⟩ (.small 0)] =
      .ok [(Decimal.mk false (.natural 0)).token ⟨1, 1, "t"⟩] := by
    refine eq_ok_of_toOption ?_
    decide +kernel
  have hthousand : condense [Part.token ⟨1, 1, "t"⟩ (.small 0),
      Part.token ⟨1, 6, "t"⟩ (.scale .thousand)] =
      .ok [(Decimal.mk false (.natural 1000)).token ⟨1, 1, "t"⟩] := by
    refine eq_ok_of_toOption ?_
    decide +kernel
  refine ⟨⟨_, _, hzero, readsAs_token false (.natural 0) ⟨1, 1, "t"⟩,
    (Magnitude.isNatural_natural _).toRat_signed false⟩, fun hamounts => ?_⟩
  cases hamounts with
  | number h hu hd =>
    rw [List.singleton_append, hthousand] at h
    cases h
    rw [hu.eq (readsAs_token false (.natural 1000) ⟨1, 1, "t"⟩),
      (Magnitude.isNatural_natural _).toRat_signed, withSign_false, Nat.zero_mul] at hd
    exact absurd hd (by norm_num)
  | tooLarge h =>
    rw [List.singleton_append, hthousand] at h
    cases h

end Prose.Number
