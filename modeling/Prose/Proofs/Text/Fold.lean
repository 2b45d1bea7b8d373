import Mathlib.Data.List.DropRight
import Prose.Text.Fold

namespace Prose.Text

section trim

variable {cs : List Char}

structure IsTrimmed (cs : List Char) : Prop where
  head : ∀ c ∈ cs.head?, isBlank c = false
  last : ∀ c ∈ cs.getLast?, isBlank c = false

theorem dropWhile_eq_self (h : ∀ c ∈ cs.head?, isBlank c = false) : cs.dropWhile isBlank = cs := by
  cases cs with
  | nil => rfl
  | cons c cs => rw [List.dropWhile_cons, h c rfl, if_neg Bool.false_ne_true]

theorem isBlank_of_mem_head?_dropWhile (cs : List Char) :
    ∀ c ∈ (cs.dropWhile isBlank).head?, isBlank c = false := by
  intro c hc
  have hnot := List.head?_dropWhile_not isBlank cs
  rwa [Option.mem_def.mp hc] at hnot

theorem IsTrimmed.trim_eq (h : IsTrimmed cs) : trim cs = cs := by
  have hlast : cs.reverse.dropWhile isBlank = cs.reverse := by
    apply dropWhile_eq_self
    rw [List.head?_reverse]
    exact h.last
  rw [trim, dropWhile_eq_self h.head, hlast, List.reverse_reverse]

theorem isTrimmed_trim (cs : List Char) : IsTrimmed (trim cs) := by
  constructor
  · intro c hc
    -- What is cut off at the end leaves the first character, if it leaves any.
    obtain ⟨cut, hcut⟩ := List.rdropWhile_prefix isBlank (cs.dropWhile isBlank)
    apply isBlank_of_mem_head?_dropWhile cs
    rw [← hcut, List.head?_append, Option.mem_def]
    exact Option.or_eq_some_iff.mpr (.inl hc)
  · intro c hc
    rw [trim, List.getLast?_reverse] at hc
    exact isBlank_of_mem_head?_dropWhile _ c hc

/-- Where every character becomes some that are no white space if it is none, the ends stay none. -/
theorem IsTrimmed.flatMap {f : Char → List Char} (hne : ∀ c, f c ≠ [])
    (hf : ∀ c, isBlank c = false → ∀ d ∈ f c, isBlank d = false) (h : IsTrimmed cs) :
    IsTrimmed (cs.flatMap f) := by
  constructor
  · cases cs with
    | nil => exact fun c hc => by cases hc
    | cons c cs =>
      intro d hd
      obtain ⟨d', ds, hds⟩ := List.exists_cons_of_ne_nil (hne c)
      rw [List.flatMap_cons, hds, List.cons_append, List.head?_cons] at hd
      cases hd
      exact hf c (h.head c rfl) d (hds ▸ List.mem_cons_self ..)
  · cases cs using List.reverseRecOn with
    | nil => exact fun c hc => by cases hc
    | append_singleton cs c =>
      intro d hd
      rw [List.flatMap_append, List.flatMap_singleton,
        List.getLast?_append_of_ne_nil _ (hne c)] at hd
      exact hf c (h.last c List.getLast?_concat) d (List.mem_of_getLast? hd)

end trim

section lowercase

namespace CaseRun

variable {r : CaseRun} {n first last step : Nat}

def lower (r : CaseRun) (n : Nat) : Nat :=
  (n + r.shift).toNat

/-- No lower case of a letter of the run is one of every `step`-th code point from `first` to `last`. -/
def misses (r : CaseRun) (first last step : Nat) : Bool :=
  r.lower r.last < first || last < r.lower r.first ||
    (first ≤ r.lower r.first && (r.step % step == 0 || r.first == r.last) &&
      (r.lower r.first - first) % step != 0)

theorem not_mem_of_misses (hshift : 0 ≤ r.first + r.shift) (hn : r.contains n = true)
    (h : r.misses first last step = true) :
    ¬ (first ≤ r.lower n ∧ r.lower n ≤ last ∧ (r.lower n - first) % step = 0) := by
  simp only [contains, Bool.and_eq_true, decide_eq_true_eq, beq_iff_eq] at hn
  obtain ⟨⟨hfirst, hlast⟩, hstep⟩ := hn
  simp only [misses, Bool.or_eq_true, Bool.and_eq_true, decide_eq_true_eq, beq_iff_eq,
    bne_iff_ne] at h
  have hlower : r.lower n = r.lower r.first + (n - r.first) := by
    unfold lower
    omega
  rintro ⟨hle, hge, hmod⟩
  rcases h with (habove | hbelow) | ⟨⟨hstart, hsteps⟩, hbetween⟩
  · have hmono : r.lower n ≤ r.lower r.last := by
      unfold lower
      omega
    omega
  · omega
  -- Both go on by the same steps, but they do not begin together.
  · have hdvd : step ∣ n - r.first := by
      rcases hsteps with hsteps | hsingle
      · exact Nat.dvd_trans (Nat.dvd_of_mod_eq_zero hsteps) (Nat.dvd_of_mod_eq_zero hstep)
      · rw [show n - r.first = 0 by omega]
        exact Nat.dvd_zero step
    have hdiff : r.lower n - first = r.lower r.first - first + (n - r.first) := by omega
    rw [hdiff] at hmod
    exact hbetween (Nat.mod_eq_zero_of_dvd
      ((Nat.dvd_add_left hdvd).mp (Nat.dvd_of_mod_eq_zero hmod)))

end CaseRun

/-- No lower case letter is in a run. -/
theorem misses_caseRuns :
    (caseRuns.all fun r => caseRuns.all fun q => r.misses q.first q.last q.step) = true := by
  decide +kernel

/-- All lower case letters are characters, and none is white space. -/
theorem misses_others :
    (caseRuns.all fun r => decide (0 ≤ r.first + r.shift) && decide (r.lower r.last < 0x110000) &&
      r.misses 0xd800 0xdfff 1 && r.misses 0x130 0x130 1 &&
        blankRanges.all fun b => r.misses b.1 b.2 1) = true := by
  decide +kernel

variable {c d : Char} {r : CaseRun} {n : Nat}

/-- A character in none of the runs is its own lower case. -/
theorem lowercase_eq_self (hc : c.toNat ≠ 0x130) (h : ∀ q ∈ caseRuns, q.contains c.toNat = false) :
    lowercase c = [c] := by
  by_cases hascii : c.toNat < 128
  · have hall : ∀ n < 128, CaseRun.contains ⟨0x41, 0x5a, 1, 32⟩ n = false →
        lowercase (Char.ofNat n) = [Char.ofNat n] := by
      decide +kernel
    have hcapitals := hall c.toNat hascii (h _ (List.mem_cons_self ..))
    rwa [Char.ofNat_toNat] at hcapitals
  · have hnone : caseRuns.find? (·.contains c.toNat) = none := by
      rw [List.find?_eq_none]
      intro q hq
      rw [h q hq]
      exact Bool.false_ne_true
    rw [lowercase, if_neg hascii, if_neg hc, hnone]

/-- The lower case of a letter in a run is its own lower case, and no white space. -/
theorem lowercase_lower (hr : r ∈ caseRuns) (hn : r.contains n = true) :
    lowercase (Char.ofNat (r.lower n)) = [Char.ofNat (r.lower n)] ∧
      isBlank (Char.ofNat (r.lower n)) = false := by
  have hothers := List.all_eq_true.mp misses_others r hr
  simp only [Bool.and_eq_true, decide_eq_true_eq] at hothers
  obtain ⟨⟨⟨⟨hshift, hmax⟩, hsurrogates⟩, hdotted⟩, hblank⟩ := hothers
  -- What the lower cases of the run miss is checked once for each run, not for each letter.
  have hmiss {first last step : Nat} (h : r.misses first last step = true) :=
    CaseRun.not_mem_of_misses hshift hn h
  -- The lower case is the code of a character, as no run comes near the surrogates.
  have hcode : (Char.ofNat (r.lower n)).toNat = r.lower n := by
    have hvalid : (r.lower n).isValidChar := by
      have hle : r.lower n ≤ r.lower r.last := by
        simp only [CaseRun.contains, Bool.and_eq_true, decide_eq_true_eq] at hn
        unfold CaseRun.lower
        omega
      have hgap := hmiss hsurrogates
      unfold Nat.isValidChar
      omega
    rw [Char.ofNat, dif_pos hvalid]
    rfl
  constructor
  · apply lowercase_eq_self
    · have hne := hmiss hdotted
      omega
    · intro q hq
      rw [hcode, ← Bool.not_eq_true]
      intro hcontains
      apply hmiss (List.all_eq_true.mp (List.all_eq_true.mp misses_caseRuns r hr) q hq)
      simpa only [CaseRun.contains, Bool.and_eq_true, decide_eq_true_eq, beq_iff_eq, and_assoc]
        using hcontains
  · rw [isBlank, inRanges, List.any_eq_false]
    intro b hb hrange
    rw [hcode, Bool.and_eq_true, decide_eq_true_eq, decide_eq_true_eq] at hrange
    exact hmiss (List.all_eq_true.mp hblank b hb) ⟨hrange.1, hrange.2, Nat.mod_one _⟩

/-- Lower case letters are their own lower case. None is white space, unless it stands for white
space. -/
theorem lowercase_of_mem_lowercase (h : d ∈ lowercase c) :
    lowercase d = [d] ∧ (isBlank c = false → isBlank d = false) := by
  by_cases hascii : c.toNat < 128
  · have hall : ∀ n < 128, lowercase (Char.ofNat n).toLower = [(Char.ofNat n).toLower] ∧
        (isBlank (Char.ofNat n) = false → isBlank (Char.ofNat n).toLower = false) := by
      decide +kernel
    have hlower := hall c.toNat hascii
    rw [Char.ofNat_toNat] at hlower
    rw [lowercase, if_pos hascii, List.mem_singleton] at h
    rwa [h]
  -- The only letter of which two are made is the capital `i` with a dot.
  by_cases hdotted : c.toNat = 0x130
  · rw [lowercase, if_neg hascii, if_pos hdotted, List.mem_pair] at h
    have hi : lowercase 'i' = ['i'] ∧ isBlank 'i' = false := by decide +kernel
    have hdot : lowercase (Char.ofNat 0x307) = [Char.ofNat 0x307] ∧
        isBlank (Char.ofNat 0x307) = false := by
      decide +kernel
    obtain rfl | rfl := h
    · exact ⟨hi.1, fun _ => hi.2⟩
    · exact ⟨hdot.1, fun _ => hdot.2⟩
  · rw [lowercase, if_neg hascii, if_neg hdotted] at h
    cases hfind : caseRuns.find? (·.contains c.toNat) with
    | some r =>
      rw [hfind, List.mem_singleton] at h
      have hcontains : r.contains c.toNat = true := by simpa using List.find?_some hfind
      obtain ⟨hd, hblank⟩ := lowercase_lower (List.mem_of_find?_eq_some hfind) hcontains
      rw [← CaseRun.lower] at h
      rw [h]
      exact ⟨hd, fun _ => hblank⟩
    | none =>
      rw [hfind, List.mem_singleton] at h
      subst h
      rw [lowercase, if_neg hascii, if_neg hdotted, hfind]
      exact ⟨rfl, id⟩

theorem lowercase_ne_nil (c : Char) : lowercase c ≠ [] := by
  unfold lowercase
  split
  · exact List.cons_ne_nil _ _
  split
  · exact List.cons_ne_nil _ _
  split
  · exact List.cons_ne_nil _ _
  · exact List.cons_ne_nil _ _

end lowercase

section plain

variable {c d : Char}

/-- The letters of the plain spellings are lower case letters with no other spelling. -/
theorem plainSpellings_settled : ∀ e ∈ plainSpellings, e.2.toList ≠ [] ∧
    ∀ d ∈ e.2.toList, lowercase d = [d] ∧ plain d = [d] ∧ isBlank d = false := by
  have hall : ∀ e ∈ plainSpellings, e.2.toList ≠ [] ∧ (e.2.toList.all fun d =>
      decide (lowercase d = [d] ∧ plain d = [d] ∧ isBlank d = false)) = true := by
    decide +kernel
  intro e he
  obtain ⟨hne, hletters⟩ := hall e he
  exact ⟨hne, fun d hd => of_decide_eq_true (List.all_eq_true.mp hletters d hd)⟩

theorem plain_cases (c : Char) :
    plain c = [c] ∨ ∃ e ∈ plainSpellings, plain c = e.2.toList := by
  unfold plain
  split
  · exact .inl rfl
  split
  · rename_i e hfind
    exact .inr ⟨e, List.mem_of_find?_eq_some hfind, rfl⟩
  · exact .inl rfl

theorem plain_ne_nil (c : Char) : plain c ≠ [] := by
  rcases plain_cases c with hself | ⟨e, he, hspelling⟩
  · rw [hself]
    exact List.cons_ne_nil _ _
  · rw [hspelling]
    exact (plainSpellings_settled e he).1

end plain

section fold

variable {c d : Char}

def foldChar (c : Char) : List Char :=
  (lowercase c).flatMap plain

theorem foldChars_eq (cs : List Char) : foldChars cs = (trim cs).flatMap foldChar :=
  List.flatMap_assoc

theorem foldChar_ne_nil (c : Char) : foldChar c ≠ [] := by
  obtain ⟨d, ds, hds⟩ := List.exists_cons_of_ne_nil (lowercase_ne_nil c)
  rw [foldChar, hds, List.flatMap_cons]
  exact List.append_ne_nil_of_left_ne_nil (plain_ne_nil d) _

/-- Folded characters fold to themselves. None is white space, unless it stands for white space. -/
theorem foldChar_of_mem_foldChar (h : d ∈ foldChar c) :
    foldChar d = [d] ∧ (isBlank c = false → isBlank d = false) := by
  obtain ⟨l, hl, hd⟩ := List.mem_flatMap.mp h
  obtain ⟨hlower, hblank⟩ := lowercase_of_mem_lowercase hl
  rcases plain_cases l with hself | ⟨e, he, hspelling⟩
  · rw [hself, List.mem_singleton] at hd
    subst hd
    rw [foldChar, hlower, List.flatMap_singleton, hself]
    exact ⟨rfl, hblank⟩
  · rw [hspelling] at hd
    obtain ⟨hlower, hplain, hblank⟩ := (plainSpellings_settled e he).2 d hd
    rw [foldChar, hlower, List.flatMap_singleton, hplain]
    exact ⟨rfl, fun _ => hblank⟩

theorem foldChars_foldChars (cs : List Char) : foldChars (foldChars cs) = foldChars cs := by
  have htrimmed : IsTrimmed (foldChars cs) := by
    rw [foldChars_eq]
    exact (isTrimmed_trim cs).flatMap foldChar_ne_nil fun c hc d hd =>
      (foldChar_of_mem_foldChar hd).2 hc
  have hfolded : ∀ d ∈ foldChars cs, foldChar d = [d] := by
    rw [foldChars_eq, List.forall_mem_flatMap]
    exact fun c _ d hd => (foldChar_of_mem_foldChar hd).1
  rw [foldChars_eq (foldChars cs), htrimmed.trim_eq, List.flatMap_congr hfolded,
    List.flatMap_singleton']

theorem fold_fold (text : String) : fold (fold text) = fold text := by
  rw [fold, fold, String.toList_ofList, foldChars_foldChars]

end fold

end Prose.Text
