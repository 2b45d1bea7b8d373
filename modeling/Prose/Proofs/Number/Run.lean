import Prose.Proofs.Number.Overlong

namespace Prose

def Keyword.isScale (k : Keyword) : Bool :=
  k ∈ [Keyword.hundred, .thousand, .million, .billion]

namespace Number

/-- What goes on with a number: number words and scale words, `and` between a scale word and a number
word, and at the end perhaps `point` with number words behind it. `scaled` says that a scale word stands
in front. -/
inductive GoesOn : Bool → List Token → Prop
  | nil {scaled} : GoesOn scaled []
  | word {scaled t ts} (ht : t.keyword = .numberWord) (h : GoesOn false ts) :
      GoesOn scaled (t :: ts)
  | scale {scaled t ts} (ht : t.keyword.isScale = true) (h : GoesOn true ts) :
      GoesOn scaled (t :: ts)
  | joined {a t ts} (ha : a.keyword = .andWord) (ht : t.keyword = .numberWord)
      (h : GoesOn false ts) : GoesOn true (a :: t :: ts)
  | point {scaled p d ds} (hp : p.keyword = .point)
      (hds : ∀ t ∈ d :: ds, t.keyword = .numberWord) : GoesOn scaled (p :: d :: ds)

inductive IsRun : List Token → Prop
  | mk {t ts} (ht : t.keyword = .numberWord) (h : GoesOn false ts) : IsRun (t :: ts)

/-- A number in words that cannot take any of the tokens `rest` behind it. -/
structure IsLongestRun (run rest : List Token) : Prop where
  isRun : IsRun run
  longest : ∀ more, more <+: run ++ rest → IsRun more → more.length ≤ run.length

def roles : List Keyword :=
  [.numberWord, .hundred, .thousand, .million, .billion, .andWord, .point]

theorem isScale_iff {k : Keyword} : k.isScale = true ↔
    k = .hundred ∨ k = .thousand ∨ k = .million ∨ k = .billion := by
  simp [Keyword.isScale]

theorem mem_roles_of_isScale {k : Keyword} (h : k.isScale = true) : k ∈ roles := by
  rcases isScale_iff.mp h with rfl | rfl | rfl | rfl <;> decide

section goesOn

variable {scaled : Bool} {t : Token} {ts taken : List Token}

theorem GoesOn.mem_roles (h : GoesOn scaled ts) : ∀ t ∈ ts, t.keyword ∈ roles := by
  have hword {t : Token} (ht : t.keyword = .numberWord) : t.keyword ∈ roles := by
    rw [ht]
    decide
  induction h with
  | nil => exact List.forall_mem_nil _
  | word ht _ ih => exact List.forall_mem_cons.mpr ⟨hword ht, ih⟩
  | scale ht _ ih => exact List.forall_mem_cons.mpr ⟨mem_roles_of_isScale ht, ih⟩
  | joined ha ht _ ih =>
    refine List.forall_mem_cons.mpr ⟨?_, List.forall_mem_cons.mpr ⟨hword ht, ih⟩⟩
    rw [ha]
    decide
  | point hp hds =>
    refine List.forall_mem_cons.mpr ⟨?_, fun d hd => hword (hds d hd)⟩
    rw [hp]
    decide

theorem IsRun.mem_roles (h : IsRun ts) : ∀ t ∈ ts, t.keyword ∈ roles := by
  obtain ⟨ht, h⟩ := h
  have hgoes : GoesOn false (_ :: _) := .word ht h
  exact hgoes.mem_roles

theorem GoesOn.of_word (h : GoesOn scaled (t :: ts)) (ht : t.keyword = .numberWord) :
    GoesOn false ts := by
  cases h with
  | word _ h => exact h
  | scale hscale => simp [ht, Keyword.isScale] at hscale
  | joined hand => simp [ht] at hand
  | point hpoint => simp [ht] at hpoint

theorem GoesOn.of_scale (h : GoesOn scaled (t :: ts)) (ht : t.keyword.isScale = true) :
    GoesOn true ts := by
  cases h with
  | word hword => simp [hword, Keyword.isScale] at ht
  | scale _ h => exact h
  | joined hand => simp [hand, Keyword.isScale] at ht
  | point hpoint => simp [hpoint, Keyword.isScale] at ht

theorem GoesOn.of_andWord (h : GoesOn scaled (t :: ts)) (ht : t.keyword = .andWord) :
    GoesOn false ts := by
  cases h with
  | word hword => simp [ht] at hword
  | scale hscale => simp [ht, Keyword.isScale] at hscale
  | joined _ hu h => exact .word hu h
  | point hpoint => simp [ht] at hpoint

theorem GoesOn.of_point (h : GoesOn scaled (t :: ts)) (ht : t.keyword = .point) :
    ∀ u ∈ ts, u.keyword = .numberWord := by
  cases h with
  | word hword => simp [ht] at hword
  | scale hscale => simp [ht, Keyword.isScale] at hscale
  | joined hand => simp [ht] at hand
  | point _ hds => exact hds

/-- What goes on is no longer than `t :: taken`, if behind `t` it is no longer than `taken`. -/
theorem length_le_cons
    (h : ∀ more, more <+: ts → GoesOn scaled (t :: more) → more.length ≤ taken.length) :
    ∀ more, more <+: t :: ts → GoesOn scaled more → more.length ≤ (t :: taken).length := by
  intro more hmore hgoes
  cases more with
  | nil => exact Nat.zero_le _
  | cons u more =>
    rw [List.cons_prefix_cons] at hmore
    obtain ⟨rfl, hmore⟩ := hmore
    exact Nat.succ_le_succ (h more hmore hgoes)

theorem add_length_cons {k : Nat} : k + 1 + taken.length = k + (t :: taken).length := by
  rw [List.length_cons]
  omega

end goesOn

namespace Spelled

variable {p p' q : Progress} {t : Token} {following : Option Token} {run ts : List Token}
  {k n : Nat}

section steps

/-- How a whole number goes on: with a number word or a scale word, or with `and` or `point` in front of
a number word. -/
inductive GoesOnWith (p : Progress) (t : Token) (following : Option Token) (p' : Progress) : Prop
  | word (ht : t.keyword = .numberWord) (hwhole : p'.inFraction = false)
      (hscale : p'.afterScale = false)
  | scale (ht : t.keyword.isScale = true) (hwhole : p'.inFraction = false)
      (hscale : p'.afterScale = true)
  | joined (ht : t.keyword = .andWord) (hp : p.afterScale = true)
      (hword : following.any (·.keyword == .numberWord) = true) (hwhole : p'.inFraction = false)
      (hscale : p'.afterScale = false)
  | point (ht : t.keyword = .point) (hword : following.any (·.keyword == .numberWord) = true)
      (hfraction : p'.inFraction = true)

/-- A step that goes on has found a value. -/
theorem exists_of_ofOption {f : Magnitude → Progress} {m : Option Magnitude}
    (h : Step.ofOption f m = .next p') : ∃ a, p' = f a := by
  cases m with
  | none => cases h
  | some a =>
    cases h
    exact ⟨a, rfl⟩

theorem step_of_isScale (ht : t.keyword.isScale = true) : step p t following = scaleStep p t := by
  rcases isScale_iff.mp ht with h | h | h | h <;> rw [step.eq_def, h]

theorem step_of_numberWord (ht : t.keyword = .numberWord) :
    step p t following = cardinalStep p t := by
  rw [step.eq_def, ht]

theorem step_of_andWord (ht : t.keyword = .andWord) (hp : p.inFraction = false) :
    step p t following =
      if p.afterScale = true ∧ following.any (·.keyword == .numberWord) = true then
        .next { p with afterScale := false }
      else .stop := by
  rw [step.eq_def, ht]
  simp only [hp, Bool.not_false, Bool.and_true, Bool.and_eq_true]

/-- Any other token ends the number. -/
theorem step_of_other (hword : t.keyword ≠ .numberWord) (hscale : t.keyword.isScale = false)
    (hand : t.keyword ≠ .andWord) (hpoint : t.keyword ≠ .point) :
    step p t following = .stop := by
  rw [step.eq_def]
  cases hk : t.keyword <;> simp_all [Keyword.isScale]

theorem scaleStep_ne_stop (p : Progress) (t : Token) : scaleStep p t ≠ .stop := by
  unfold scaleStep
  split
  · exact Step.noConfusion
  · simp only
    split
    · exact ofOption_ne_stop _ _
    · exact ofOption_ne_stop _ _

theorem goesOnWith_of_step (hp : p.inFraction = false) (h : step p t following = .next p') :
    GoesOnWith p t following p' := by
  -- By the role of the token, in the order in which a step looks at it.
  by_cases hword : t.keyword = .numberWord
  · rw [step_of_numberWord hword, cardinalStep] at h
    simp only [hp, Bool.false_eq_true, if_false] at h
    obtain ⟨a, rfl⟩ := exists_of_ofOption h
    exact .word hword rfl rfl
  by_cases hscale : t.keyword.isScale = true
  · rw [step_of_isScale hscale, scaleStep] at h
    simp only [hp, Bool.false_eq_true, if_false] at h
    split at h
    · obtain ⟨a, rfl⟩ := exists_of_ofOption h
      exact .scale hscale rfl rfl
    · obtain ⟨a, rfl⟩ := exists_of_ofOption h
      exact .scale hscale rfl rfl
  by_cases hand : t.keyword = .andWord
  · rw [step_of_andWord hand hp] at h
    split at h
    · rename_i hjoins
      cases h
      exact .joined hand hjoins.1 hjoins.2 hp rfl
    · cases h
  by_cases hpoint : t.keyword = .point
  · rw [step_point hp hpoint] at h
    split at h
    · rename_i hfollows
      cases h
      exact .point hpoint hfollows rfl
    · cases h
  rw [step_of_other hword (Bool.eq_false_iff.mpr hscale) hand hpoint] at h
  cases h

/-- In a fraction only number words go on. -/
theorem numberWord_of_step (hp : p.inFraction = true) (h : step p t following = .next p') :
    t.keyword = .numberWord ∧ p'.inFraction = true := by
  have ht : IsDigitWord t := by
    refine Decidable.not_not.mp fun ht => ?_
    rcases step_of_not_isDigitWord following hp ht with hstep | ⟨f, hstep⟩
    · rw [hstep] at h
      cases h
    · rw [hstep] at h
      cases h
  refine ⟨ht.1, ?_⟩
  rw [step_of_numberWord ht.1, cardinalStep] at h
  simp only [hp, if_true] at h
  rw [if_neg (Nat.not_le_of_lt ht.2)] at h
  split at h
  · cases h
  · obtain ⟨a, rfl⟩ := exists_of_ofOption h
    rfl

end steps

section longest

theorem exists_of_any_head? (h : ts.head?.any (·.keyword == .numberWord) = true) :
    ∃ u us, ts = u :: us ∧ u.keyword = .numberWord := by
  cases ts with
  | nil => cases h
  | cons u us => exact ⟨u, us, rfl, beq_iff_eq.mp h⟩

/-- Where a number stops, nothing goes on with it. -/
theorem eq_nil_of_step (hp : p.inFraction = false) (hstep : step p t ts.head? = .stop)
    {more : List Token} (hmore : more <+: t :: ts) (h : GoesOn p.afterScale more) : more = [] := by
  have hfollows {u us} (hu : u.keyword = .numberWord) (hus : u :: us <+: ts) :
      ts.head?.any (·.keyword == .numberWord) = true := by
    obtain ⟨rest, rfl⟩ := hus
    rw [List.cons_append, List.head?_cons, Option.any_some, hu]
    rfl
  -- By what could go on with the number: the step would have taken each of them.
  generalize hscaled : p.afterScale = scaled at h
  cases h with
  | nil => rfl
  | word ht _ =>
    rw [List.cons_prefix_cons] at hmore
    obtain ⟨rfl, -⟩ := hmore
    exact absurd hstep (step_ne_stop ht)
  | scale ht _ =>
    rw [List.cons_prefix_cons] at hmore
    obtain ⟨rfl, -⟩ := hmore
    rw [step_of_isScale ht] at hstep
    exact absurd hstep (scaleStep_ne_stop p _)
  | joined ha ht _ =>
    rw [List.cons_prefix_cons] at hmore
    obtain ⟨rfl, hmore⟩ := hmore
    rw [step_of_andWord ha hp, if_pos ⟨hscaled, hfollows ht hmore⟩] at hstep
    cases hstep
  | point hpoint hds =>
    rw [List.cons_prefix_cons] at hmore
    obtain ⟨rfl, hmore⟩ := hmore
    rw [step_point hp hpoint, if_pos (hfollows (hds _ (List.mem_cons_self ..)) hmore)] at hstep
    cases hstep

/-- A fraction takes the number words in front of it, and all of them. -/
theorem digits_of_read (hp : p.inFraction = true) (h : read run p k ts = .ok (q, n)) :
    ∃ ds rest, ts = ds ++ rest ∧ n = k + ds.length ∧ (∀ t ∈ ds, t.keyword = .numberWord) ∧
      ∀ t ∈ rest.head?, t.keyword ≠ .numberWord := by
  induction ts generalizing p k with
  | nil =>
    cases h
    exact ⟨[], [], rfl, rfl, List.forall_mem_nil _, fun t ht => by cases ht⟩
  | cons t ts ih =>
    rw [read] at h
    cases hstep : step p t ts.head? with
    | stop =>
      rw [hstep] at h
      cases h
      refine ⟨[], t :: ts, rfl, rfl, List.forall_mem_nil _, ?_⟩
      rintro _ ⟨⟩ hword
      exact step_ne_stop hword hstep
    | next p' =>
      rw [hstep] at h
      -- Behind the point a step takes nothing but a number word, and stays there.
      obtain ⟨ht, hp'⟩ := numberWord_of_step hp hstep
      obtain ⟨ds, rest, rfl, rfl, hds, hrest⟩ := ih hp' h
      exact ⟨t :: ds, rest, rfl, add_length_cons, List.forall_mem_cons.mpr ⟨ht, hds⟩, hrest⟩
    | fault f =>
      rw [hstep] at h
      cases h
    | placesExhausted =>
      rw [hstep] at h
      cases h

/-- Number words that stand in front take no more than all of them. -/
theorem length_le_of_numberWords {ds more rest : List Token} (hmore : more <+: ds ++ rest)
    (hwords : ∀ t ∈ more, t.keyword = .numberWord)
    (hrest : ∀ t ∈ rest.head?, t.keyword ≠ .numberWord) : more.length ≤ ds.length := by
  induction ds generalizing more with
  | nil =>
    cases more with
    | nil => exact Nat.le_refl _
    | cons t more =>
      obtain ⟨later, rfl⟩ := hmore
      exact absurd (hwords t (List.mem_cons_self ..)) (hrest t rfl)
  | cons d ds ih =>
    cases more with
    | nil => exact Nat.zero_le _
    | cons t more =>
      rw [List.cons_append, List.cons_prefix_cons] at hmore
      exact Nat.succ_le_succ (ih hmore.2 fun u hu => hwords u (List.mem_cons_of_mem _ hu))

/-- What a whole number takes goes on with it, and it takes as much as it can. -/
theorem goesOn_of_read (hp : p.inFraction = false) (h : read run p k ts = .ok (q, n)) :
    ∃ taken rest, ts = taken ++ rest ∧ n = k + taken.length ∧ GoesOn p.afterScale taken ∧
      ∀ more, more <+: ts → GoesOn p.afterScale more → more.length ≤ taken.length := by
  induction ts generalizing p k with
  | nil =>
    cases h
    refine ⟨[], [], rfl, rfl, .nil, fun more hmore _ => ?_⟩
    exact Nat.le_of_eq (congrArg List.length (List.prefix_nil.mp hmore))
  | cons t ts ih =>
    rw [read] at h
    cases hstep : step p t ts.head? with
    | stop =>
      rw [hstep] at h
      cases h
      refine ⟨[], t :: ts, rfl, rfl, .nil, fun more hmore hgoes => ?_⟩
      exact Nat.le_of_eq (congrArg List.length (eq_nil_of_step hp hstep hmore hgoes))
    | next p' =>
      rw [hstep] at h
      cases goesOnWith_of_step hp hstep with
      | word ht hwhole hscale =>
        obtain ⟨taken, rest, rfl, rfl, hgoes, hlongest⟩ := ih hwhole h
        rw [hscale] at hgoes hlongest
        refine ⟨t :: taken, rest, rfl, add_length_cons, .word ht hgoes, length_le_cons ?_⟩
        exact fun more hmore hgoes => hlongest more hmore (hgoes.of_word ht)
      | scale ht hwhole hscale =>
        obtain ⟨taken, rest, rfl, rfl, hgoes, hlongest⟩ := ih hwhole h
        rw [hscale] at hgoes hlongest
        refine ⟨t :: taken, rest, rfl, add_length_cons, .scale ht hgoes, length_le_cons ?_⟩
        exact fun more hmore hgoes => hlongest more hmore (hgoes.of_scale ht)
      | joined ht hscaled hword hwhole hscale =>
        obtain ⟨u, us, rfl, hu⟩ := exists_of_any_head? hword
        obtain ⟨taken, rest, htaken, rfl, hgoes, hlongest⟩ := ih hwhole h
        rw [hscale] at hgoes hlongest
        -- The number word behind `and` alone goes on with the number, so it is taken.
        have hpos : [u].length ≤ taken.length :=
          hlongest [u] ⟨us, rfl⟩ (.word hu .nil)
        cases taken with
        | nil => cases hpos
        | cons v taken =>
          obtain ⟨rfl, rfl⟩ := List.cons.inj htaken
          refine ⟨t :: u :: taken, rest, rfl, add_length_cons, ?_, length_le_cons ?_⟩
          · rw [hscaled]
            exact .joined ht hu (hgoes.of_word hu)
          · exact fun more hmore hgoes => hlongest more hmore (hgoes.of_andWord ht)
      | point ht hword hfraction =>
        obtain ⟨u, us, rfl, hu⟩ := exists_of_any_head? hword
        obtain ⟨ds, rest, hds, rfl, hwords, hrest⟩ := digits_of_read hfraction h
        cases ds with
        | nil =>
          rw [List.nil_append] at hds
          subst hds
          exact absurd hu (hrest u rfl)
        | cons d ds =>
          obtain ⟨rfl, rfl⟩ := List.cons.inj hds
          refine ⟨t :: u :: ds, rest, rfl, add_length_cons, .point ht hwords, length_le_cons ?_⟩
          exact fun more hmore hgoes =>
            length_le_of_numberWords hmore (hgoes.of_point ht) hrest
    | fault f =>
      rw [hstep] at h
      cases h
    | placesExhausted =>
      rw [hstep] at h
      cases h

/-- A number is read from all the words in front that make up a number. -/
theorem isLongestRun_of_read (hstart : t.keyword = .numberWord)
    (h : read run .start k (t :: ts) = .ok (q, n)) :
    ∃ words rest, t :: ts = words ++ rest ∧ n = k + words.length ∧ IsLongestRun words rest := by
  obtain ⟨taken, rest, htaken, rfl, hgoes, hlongest⟩ := goesOn_of_read rfl h
  have hone : [t].length ≤ taken.length := hlongest [t] ⟨ts, rfl⟩ (.word hstart .nil)
  cases taken with
  | nil => cases hone
  | cons u taken =>
    obtain ⟨rfl, rfl⟩ := List.cons.inj htaken
    refine ⟨t :: taken, rest, rfl, rfl, ⟨⟨hstart, hgoes.of_word hstart⟩, ?_⟩⟩
    rintro more hmore ⟨hlead, hmoreGoes⟩
    exact hlongest _ hmore (.word hlead hmoreGoes)

/-- The number token of a number in words stands for all the words in front that make up a number. -/
theorem isLongestRun_of_token {negative : Bool} {place : Position} {u : Token}
    (hrun : run.drop k = t :: ts) (ht : t.keyword = .numberWord)
    (h : token negative run k place = .ok (u, n)) :
    ∃ words rest m, t :: ts = words ++ rest ∧ n = k + words.length ∧ IsLongestRun words rest ∧
      u = ⟨.number, (Decimal.mk negative m).render, .numericLiteral, place⟩ := by
  obtain ⟨q, m, hread, -, hu⟩ := exists_of_token h
  rw [hrun] at hread
  obtain ⟨words, rest, hwords, hn, hlongest⟩ := isLongestRun_of_read ht hread
  exact ⟨words, rest, m, hwords, hn, hlongest, hu⟩

end longest

end Spelled

end Number

end Prose
