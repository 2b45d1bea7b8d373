import Prose.Proofs.Number.Tally

namespace Prose.Number

def units (n : ℕ) : List Part :=
  if n = 0 then [] else [.small (Fin.ofNat 20 n)]

def belowHundred (n : ℕ) : List Part :=
  if n < 20 then units n else .tens (Fin.ofNat 8 (n / 10 - 2)) :: units (n % 10)

def belowThousand (n : ℕ) : List Part :=
  if n < 100 then belowHundred n else units (n / 100) ++ .hundred :: belowHundred (n % 100)

/-- The words of a group and the word that closes it; none for zero. -/
def closed (n : ℕ) (s : Scale) : List Part :=
  if n = 0 then [] else belowThousand n ++ [.scale s]

/-- The name of a number below a million million. -/
def name (n : ℕ) : List Part :=
  if n = 0 then [.small 0]
  else closed (n / 1000000000) .billion ++ (closed (n / 1000000 % 1000) .million ++
    (closed (n / 1000 % 1000) .thousand ++ belowThousand (n % 1000)))

/-- The second words are the first ones with `and` at some of the places where it may stand: between
a scale word and a number word. -/
inductive Joins : List Part → List Part → Prop
  | nil : Joins [] []
  | word {x parts joined} (h : Joins parts joined) : Joins (x :: parts) (x :: joined)
  | joint {x y parts joined} (hx : x.IsScale) (hy : y.IsNumber)
      (h : Joins (y :: parts) (y :: joined)) : Joins (x :: y :: parts) (x :: .joint :: y :: joined)

section count

variable {n : ℕ} (c : Tally)

theorem Tally.count_append (xs ys : List Part) : c.count (xs ++ ys) = (c.count xs).count ys :=
  List.foldl_append

/-- A number below twenty is added to the open group. -/
theorem count_units (hn : n < 20) : c.count (units n) = { c with group := c.group + n } := by
  rw [units]
  split
  · rename_i hzero
    rw [hzero]
    rfl
  · show ({ c with group := c.group + n % 20 } : Tally) = _
    rw [Nat.mod_eq_of_lt hn]

/-- A number below one hundred is added to the open group. -/
theorem count_belowHundred (hn : n < 100) :
    c.count (belowHundred n) = { c with group := c.group + n } := by
  rw [belowHundred]
  split
  · rename_i hsmall
    exact count_units c hsmall
  · rename_i hlarge
    have htens : (n / 10 - 2) % 8 = n / 10 - 2 := Nat.mod_eq_of_lt (by omega)
    have hsum : c.group + 10 * ((n / 10 - 2) % 8 + 2) + n % 10 = c.group + n := by omega
    exact (count_units _ (by omega)).trans (congrArg (Tally.mk c.total) hsum)

/-- A number below one thousand becomes the open group, if nothing was in it. -/
theorem count_belowThousand (hn : n < 1000) (hc : c.group = 0) :
    c.count (belowThousand n) = { c with group := n } := by
  rw [belowThousand]
  split
  · rename_i hsmall
    rw [count_belowHundred c hsmall, hc, Nat.zero_add]
  · rename_i hlarge
    have hpos : n / 100 ≠ 0 := by omega
    have hbase : (⟨c.total, n / 100⟩ : Tally).base = n / 100 := if_neg hpos
    have hsum : n / 100 * 100 + n % 100 = n := by omega
    rw [Tally.count_append, count_units c (by omega), hc, Nat.zero_add]
    refine (count_belowHundred _ (Nat.mod_lt n (by decide))).trans (congrArg (Tally.mk c.total) ?_)
    show (⟨c.total, n / 100⟩ : Tally).base * 100 + n % 100 = n
    rw [hbase, hsum]

/-- A group that is closed is multiplied and added to the others. -/
theorem count_closed (hn : n < 1000) (hc : c.group = 0) (s : Scale) :
    c.count (closed n s) = { c with total := c.total + n * s.factor } := by
  rw [closed]
  split
  · rename_i hzero
    rw [hzero, Nat.zero_mul]
    rfl
  · rename_i hpos
    have hbase : (⟨c.total, n⟩ : Tally).base = n := if_neg hpos
    rw [Tally.count_append, count_belowThousand c hn hc, hc]
    show (⟨c.total + (⟨c.total, n⟩ : Tally).base * s.factor, 0⟩ : Tally) = _
    rw [hbase]

/-- The words of a name come to the number. -/
theorem value_count_name (hn : n < 10 ^ 12) : (Tally.start.count (name n)).value = n := by
  rw [name]
  split
  · rename_i hzero
    rw [hzero]
    rfl
  · have hsum : n / 1000000000 * 1000000000 + n / 1000000 % 1000 * 1000000 +
        n / 1000 % 1000 * 1000 + n % 1000 = n := by omega
    rw [Tally.count_append, count_closed _ (by omega) rfl, Tally.count_append,
      count_closed _ (by omega) rfl, Tally.count_append, count_closed _ (by omega) rfl,
      count_belowThousand _ (by omega) rfl]
    show 0 + n / 1000000000 * 1000000000 + n / 1000000 % 1000 * 1000000 +
      n / 1000 % 1000 * 1000 + n % 1000 = n
    rw [Nat.zero_add, hsum]

/-- `and` makes no difference to what words come to. -/
theorem Joins.count_eq {parts joined : List Part} (h : Joins parts joined) :
    c.count joined = c.count parts := by
  induction h generalizing c with
  | nil => rfl
  | word _ ih => exact ih (c.after _)
  | @joint x _ _ _ _ _ _ ih => exact ih (c.after x)

end count

section order

variable {n : ℕ} {xs ys parts joined : List Part}

/-- There are no words, or the first is a number word; and `and` is not among them. -/
structure Opens (parts : List Part) : Prop where
  head : ∀ x ∈ parts.head?, x.IsNumber
  plain : Part.joint ∉ parts

theorem opens_units (n : ℕ) : Opens (units n) := by
  rw [units]
  split
  · exact ⟨nofun, List.not_mem_nil⟩
  · refine ⟨?_, ?_⟩
    · rintro _ ⟨⟩
      trivial
    · rw [List.mem_singleton]
      nofun

theorem opens_belowHundred (n : ℕ) : Opens (belowHundred n) := by
  rw [belowHundred]
  split
  · exact opens_units n
  · refine ⟨?_, List.not_mem_cons_of_ne_of_not_mem nofun (opens_units _).plain⟩
    rintro _ ⟨⟩
    trivial

/-- Behind words that open a group there may be any words but `and`. -/
theorem Opens.append (hxs : Opens xs) (hne : xs ≠ []) (hys : Part.joint ∉ ys) :
    Opens (xs ++ ys) := by
  refine ⟨?_, ?_⟩
  · rw [List.head?_append_of_ne_nil _ hne]
    exact hxs.head
  · rw [List.mem_append]
    exact not_or_intro hxs.plain hys

theorem opens_belowThousand (n : ℕ) : Opens (belowThousand n) := by
  rw [belowThousand]
  split
  · exact opens_belowHundred n
  · rename_i hlarge
    have hne : units (n / 100) ≠ [] := by
      rw [units, if_neg (by omega)]
      exact List.cons_ne_nil _ _
    exact (opens_units _).append hne
      (List.not_mem_cons_of_ne_of_not_mem nofun (opens_belowHundred _).plain)

/-- The words of a number above zero are some words. -/
theorem ne_nil_of_count {parts : List Part} {k : ℕ} (hk : k ≠ 0)
    (h : (Tally.start.count parts).value = k) : parts ≠ [] := by
  rintro rfl
  exact hk h.symm

theorem opens_closed (hn : n < 1000) (s : Scale) : Opens (closed n s) := by
  rw [closed]
  split
  · exact ⟨nofun, List.not_mem_nil⟩
  · rename_i hpos
    have hcount : (Tally.start.count (belowThousand n)).value = n := by
      rw [count_belowThousand _ hn rfl]
      exact Nat.zero_add n
    refine (opens_belowThousand n).append (ne_nil_of_count hpos hcount) ?_
    rw [List.mem_singleton]
    nofun

theorem Opens.append_opens (hxs : Opens xs) (hys : Opens ys) : Opens (xs ++ ys) := by
  by_cases hne : xs = []
  · rw [hne]
    exact hys
  · exact hxs.append hne hys.plain

/-- A name opens with a number word. -/
theorem opens_name (hn : n < 10 ^ 12) : Opens (name n) := by
  rw [name]
  split
  · refine ⟨?_, by decide⟩
    rintro _ ⟨⟩
    trivial
  · exact (opens_closed (by omega) _).append_opens ((opens_closed (by omega) _).append_opens
      ((opens_closed (by omega) _).append_opens (opens_belowThousand _)))

/-- Words without `and` go on with a number in any order, and so they do with `and` where it may
stand. -/
theorem Joins.goesOn {ts : List Token} (h : Joins parts joined) (hplain : Part.joint ∉ parts)
    (hts : Spells ts joined) (scaled : Bool) : GoesOn scaled ts := by
  induction h generalizing ts scaled with
  | nil =>
    cases hts
    exact .nil
  | @word x _ _ _ ih =>
    rw [List.mem_cons, not_or] at hplain
    cases hts with
    | cons ht hts =>
      have hrest := ih hplain.2 hts
      by_cases hx : x.IsScale
      · exact .scale (Part.keyword_of_isWord ht ▸ Part.isScale_role.mpr hx) (hrest true)
      -- Neither a scale word nor `and` is left, so it is a number word.
      · have hnumber : x.IsNumber := by
          cases x with
          | small | tens => trivial
          | hundred | scale => exact absurd trivial hx
          | joint => exact absurd rfl hplain.1
        exact .word ((Part.keyword_of_isWord ht).trans (Part.role_eq_numberWord_iff.mpr hnumber))
          (hrest false)
  | joint hx hy _ ih =>
    -- The number word behind `and` goes on without it too; what follows is the same.
    rw [List.mem_cons, not_or] at hplain
    rcases hts with _ | ⟨ht, _ | ⟨hand, hts⟩⟩
    have hgoes := ih hplain.2 hts false
    cases hts with
    | cons hu hts =>
      have hword := (Part.keyword_of_isWord hu).trans (Part.role_eq_numberWord_iff.mpr hy)
      exact .scale (Part.keyword_of_isWord ht ▸ Part.isScale_role.mpr hx)
        (.joined (Part.keyword_of_isWord hand) hword (hgoes.of_word hword))

theorem name_ne_nil (hn : n < 10 ^ 12) : name n ≠ [] := by
  by_cases hzero : n = 0
  · rw [hzero]
    exact List.cons_ne_nil _ _
  · exact ne_nil_of_count hzero (value_count_name hn)

/-- Words that open a number begin with a number word, and `and` is not put before it. -/
theorem Joins.exists_cons {ts : List Token} (h : Joins parts joined) (hparts : Opens parts)
    (hne : parts ≠ []) (hts : Spells ts joined) :
    ∃ t us, ts = t :: us ∧ t.kind = .word ∧ t.keyword = .numberWord := by
  have hfirst {x : Part} {xs : List Part} {t : Token} (hopens : Opens (x :: xs))
      (ht : t.IsWord x.text) : t.kind = .word ∧ t.keyword = .numberWord :=
    ⟨ht.kind, (Part.keyword_of_isWord ht).trans
      (Part.role_eq_numberWord_iff.mpr (hopens.head x rfl))⟩
  cases h with
  | nil => exact absurd rfl hne
  | word =>
    cases hts with
    | cons ht _ => exact ⟨_, _, rfl, hfirst hparts ht⟩
  | joint =>
    cases hts with
    | cons ht _ => exact ⟨_, _, rfl, hfirst hparts ht⟩

end order

/-- The name of a number is condensed to one number token, which is read as the number. -/
theorem condense_name {n : ℕ} (hn : n < 10 ^ 12) {parts : List Part} (hparts : Joins (name n) parts)
    {ts signs : List Token} (hts : Spells ts parts) {negative : Bool}
    (hsign : IsSign negative signs) :
    ∃ u d, condense (signs ++ ts) = .ok [u] ∧ u.ReadsAs d ∧ d.toRat = withSign negative n ∧
      d.magnitude.scale = 0 := by
  have hopens := opens_name hn
  have hvalue : (Tally.start.count parts).value = n := by
    rw [hparts.count_eq, value_count_name hn]
  have hfits : n ≤ maxMantissa := Nat.le_trans (Nat.le_of_lt hn) (by decide)
  obtain ⟨q, hpasses⟩ := Spelled.exists_passes (hparts.goesOn hopens.plain hts false) hts
    Spelled.holds_start rfl (hvalue.trans_le hfits)
  have hnumber := (hpasses.holds hts Spelled.holds_start).value?_eq
  rw [hvalue, Magnitude.of?_eq_some hfits (Nat.zero_le _)] at hnumber
  obtain ⟨t, us, rfl, hkind, hword⟩ := hparts.exists_cons hopens (name_ne_nil hn) hts
  obtain ⟨u, hcondense, hreads⟩ := condense_of_passes hsign hkind hword hpasses hnumber
  exact ⟨u, _, hcondense, hreads, (Magnitude.isNatural_natural hfits).toRat_signed negative, rfl⟩

def joinedWords : List Part :=
  [.small 1, .scale .million, .joint, .small 2, .hundred, .small 5, .scale .thousand, .joint,
    .small 1]

/-- With a sign word in front they are one negative number. -/
theorem condense_name_joinedWords :
    1205001 < 10 ^ 12 ∧ Joins (name 1205001) joinedWords ∧
      ∃ u d, condense (.ofText .word "negative" ⟨1, 1, "t"⟩ ::
          joinedWords.map (Part.token ⟨1, 10, "t"⟩)) = .ok [u] ∧
        u.ReadsAs d ∧ d.toRat = -1205001 := by
  have hname : name 1205001 = [.small 1, .scale .million, .small 2, .hundred, .small 5,
      .scale .thousand, .small 1] := by
    decide
  have hjoins : Joins (name 1205001) joinedWords := by
    rw [hname]
    exact .word (.joint trivial trivial
      (.word (.word (.word (.joint trivial trivial (.word .nil))))))
  have hn : 1205001 < 10 ^ 12 := by decide
  obtain ⟨u, d, hcondense, hreads, hvalue, -⟩ :=
    condense_name hn hjoins (spells_map_token ⟨1, 10, "t"⟩ joinedWords) (isSign_ofText ⟨1, 1, "t"⟩)
  exact ⟨hn, hjoins, u, d, hcondense, hreads, hvalue⟩

end Prose.Number
