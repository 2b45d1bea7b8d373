import Prose.Proofs.Expr.Head

namespace Prose

open Prose.Expr Grammar

variable {f g : Form} {s : Slice} {t u : Token} {ts : List Token} {i : Nat}

section behind

/-- Behind a flat first token a slice is divided where the whole is. -/
theorem divides_drop_one_iff (hs : s.tokens = t :: ts) (ht : t.IsFlat) (hpos : 0 < i) :
    f.Divides (s.drop 1) i ↔ f.Divides s (i + 1) := by
  have hfirst : (0, t.keyword) ∈ depthZero 0 0 s.tokens := by
    rw [hs, depthZero_flat ht]
    exact List.mem_cons_self ..
  exact divides_drop_iff hfirst ht.1 ht.2 hpos

end behind

section decided

theorem level_le_of_isOpenLeft (hf : f.fixity.isOpenLeft = true) :
    f.level ≤ (Form.operators .disjunction).level := by
  cases f with
  | operators l => cases l <;> decide
  | typeCheck => decide
  | nullCheck => decide
  | _ => cases hf

/-- A form with its own word in front that is looser than all operators decides over its slices. -/
theorem rejects_of_looser (hs : s.IsRegular) (hf : (Form.operators .disjunction).level < f.level)
    (h : ¬ f.Rejects s) (hlt : f.level < g.level) : g.Rejects s := by
  have hleft {f' : Form} (hle : f.level ≤ f'.level) : f'.fixity.isOpenLeft = false := by
    rw [← Bool.not_eq_true]
    intro hopen
    have hle' := level_le_of_isOpenLeft hopen
    omega
  by_contra hg
  have hsame := eq_of_not_rejects hs (hleft (Nat.le_refl _)) (hleft (Nat.le_of_lt hlt)) h hg
  rw [hsame] at hlt
  exact Nat.lt_irrefl _ hlt

theorem reads_of_accepts (hs : s.IsRegular) (hf : (Form.operators .disjunction).level < f.level)
    (h : f.Accepts s) : f.Reads s :=
  reads_iff.mpr ⟨h.length_pos, h, fun _ hlt => rejects_of_looser hs hf h.not_rejects hlt⟩

theorem fails_of_fails (hs : s.IsRegular) (hf : (Form.operators .disjunction).level < f.level)
    (hpos : 0 < s.length) (h : f.Fails s) : s.Fails :=
  fails_iff.mpr ⟨f, hpos, h, fun _ hlt => rejects_of_looser hs hf h.not_rejects hlt⟩

end decided

section article

theorem mem_signs_article (ht : t.keyword.isArticle = true) : t.keyword ∈ Form.article.signs := by
  revert ht
  cases t.keyword <;> decide

/-- Behind an article only forms that begin with an operand, and the article itself, can read. -/
theorem isOpenLeft_of_accepts_article (hs : s.IsRegular) (hts : s.tokens = t :: ts)
    (ht : t.keyword.isArticle = true) (hf : f ≠ .article) (h : f.Accepts s) :
    f.fixity.isOpenLeft = true := by
  have hne : t.keyword ≠ .ordinal := fun hk => by rw [hk] at ht; cases ht
  rcases h.eq_or_divides hs hts rfl (mem_signs_article ht) hne with rfl | ⟨i, hi, -⟩
  · exact absurd rfl hf
  · exact hi.isOpenLeft

/-- An article alone is not read. -/
theorem not_reads_singleton_article (hs : s.IsRegular) (hts : s.tokens = [t])
    (ht : t.keyword.isArticle = true) : ¬ f.Reads s := by
  intro h
  have hne : t.keyword ≠ .ordinal := fun hk => by rw [hk] at ht; cases ht
  rcases h.accepts.eq_or_divides hs hts rfl (mem_signs_article ht) hne with rfl | ⟨i, hi, -⟩
  · obtain ⟨t', u, ts, hts', -⟩ := article_of_not_rejects h.accepts.not_rejects
    rw [hts] at hts'
    cases hts'
  · have hpos := hi.1
    have hlt := hi.lt_length
    rw [Slice.length, hts] at hlt
    simp only [List.length_singleton] at hlt
    omega

theorem not_isOperand_singleton_article {level : Nat} {side : Side} (hs : s.IsRegular)
    (hts : s.tokens = [t]) (ht : t.keyword.isArticle = true) : ¬ s.IsOperand level side := by
  rintro ⟨f, hf, -⟩
  obtain ⟨g, hg⟩ := hf.exists_reads
  exact not_reads_singleton_article hs hts ht hg

theorem isFlat_of_isArticle (ht : t.keyword.isArticle = true) : t.IsFlat := by
  unfold Token.IsFlat
  revert ht
  cases t.keyword <;> decide

theorem not_article_of_isOpenLeft (hf : f.fixity.isOpenLeft = true) : f ≠ .article := by
  rintro rfl
  cases hf

/-- The cascade fails with an article in front if it fails without. -/
theorem fails_of_drop_fails (hs : s.IsRegular) (hts : s.tokens = t :: u :: ts)
    (ht : t.keyword.isArticle = true) (h : (s.drop 1).Fails) : s.Fails := by
  have hpos : 0 < s.length := by
    rw [Slice.length, hts, List.length_cons]
    exact Nat.succ_pos _
  exact fails_of_fails hs (by decide) hpos (fails_article hts ht h)

/-- What reads a slice behind an article with an operand in front is not the article form. -/
theorem isOpenLeft_of_reads (hs : s.IsRegular) (hts : s.tokens = t :: ts)
    (ht : t.keyword.isArticle = true) (h : f.Reads s) (hg : g.Fronts (s.drop 1))
    (hleft : g.fixity.isOpenLeft = true) : f.fixity.isOpenLeft = true := by
  refine isOpenLeft_of_accepts_article hs hts ht ?_ h.accepts
  rintro rfl
  obtain ⟨g', hg', hclosed⟩ := h.exists_fronts_drop
  rw [hg'.unique hg, hleft] at hclosed
  cases hclosed

/-- What the first token stands in front of is read as with that token, or with it the cascade
fails. -/
def Slice.IsSameBehind (s : Slice) : Prop :=
  (∀ f : Form, f.Fronts s → f.Fronts (s.drop 1)) ∧
    ∀ f : Form, f.Fronts (s.drop 1) → f.Fronts s ∨ s.Fails

/-- A form that reads with an article in front does not reject without. -/
theorem not_rejects_drop_of_reads (hs : s.IsRegular) (hts : s.tokens = t :: ts)
    (ht : t.keyword.isArticle = true) (hleft : f.fixity.isOpenLeft = true) (h : f.Reads s)
    (hparts : ∀ j, 0 < j → j < s.length → (s.take j).IsSameBehind) : ¬ f.Rejects (s.drop 1) := by
  obtain ⟨j, hj, ⟨g, hg, hbound⟩, hright⟩ := exists_divides_of_accepts hleft h.accepts
  obtain ⟨i, rfl⟩ := Nat.exists_eq_add_one_of_ne_zero (Nat.ne_of_gt hj.1)
  have htake := hj.tokens_take hts
  have hi : 0 < i := by
    rcases Nat.eq_zero_or_pos i with rfl | hi
    · exact absurd ⟨g, hg, hbound⟩ (not_isOperand_singleton_article
        (hs.of_isPartOf (s.isPartOf_take 1)) htake ht)
    · exact hi
  have hdivides := (divides_drop_one_iff hts (isFlat_of_isArticle ht) hi).mpr hj
  refine not_rejects_of_divides hdivides ?_ ?_
  · rw [Slice.take_drop_one]
    exact .inl ⟨g, (hparts _ hj.1 hj.lt_length).1 g hg, hbound⟩
  · intro hopen
    rw [Slice.drop_drop, Nat.add_comm 1]
    exact .inl (hright hopen)

/-- A form that reads without an article in front does not reject with it. -/
theorem not_rejects_of_reads_drop (hts : s.tokens = t :: ts) (ht : t.keyword.isArticle = true)
    (hleft : f.fixity.isOpenLeft = true) (h : f.Reads (s.drop 1))
    (hparts : ∀ j, 0 < j → j < s.length → (s.take j).IsSameBehind) : ¬ f.Rejects s := by
  obtain ⟨i, hi, ⟨g, hg, hbound⟩, hright⟩ := exists_divides_of_accepts hleft h.accepts
  have hlt := hi.lt_length
  have hdivides := (divides_drop_one_iff hts (isFlat_of_isArticle ht) hi.1).mp hi
  rw [Slice.take_drop_one] at hg
  rw [Slice.length_drop] at hlt
  have hsame := hparts (i + 1) (Nat.succ_pos i) (by omega)
  refine not_rejects_of_divides hdivides ?_ ?_
  · exact (hsame.2 g hg).imp (fun hg => ⟨g, hg, hbound⟩) id
  · intro hopen
    have hright' := hright hopen
    rw [Slice.drop_drop, Nat.add_comm 1] at hright'
    exact .inl hright'

/-- An article in front of a slice does not change which form an operator beside it faces. -/
theorem isSameBehind_of_isArticle (hs : s.IsRegular) (hts : s.tokens = t :: ts)
    (ht : t.keyword.isArticle = true) : s.IsSameBehind := by
  induction hn : s.length using Nat.strongRecOn generalizing s ts with
  | _ n ih =>
    -- Every first part begins with the same article, so the statement holds of it.
    have hparts : ∀ j, 0 < j → j < s.length → (s.take j).IsSameBehind := by
      intro j hpos hj
      obtain ⟨i, rfl⟩ := Nat.exists_eq_add_one_of_ne_zero (Nat.ne_of_gt hpos)
      have htake : (s.take (i + 1)).tokens = t :: ts.take i := by
        rw [Slice.tokens_take, hts, List.take_succ_cons]
      refine ih _ ?_ (hs.of_isPartOf (s.isPartOf_take _)) htake rfl
      rw [Slice.length_take, ← hn]
      omega
    match ts with
    | [] =>
      have hempty : s.drop 1 = ⟨s.start + 1, []⟩ := by simp [Slice.drop, hts]
      constructor
      · intro f hf
        obtain ⟨g, hg⟩ := hf.exists_reads
        exact absurd hg (not_reads_singleton_article hs hts ht)
      · intro f hf
        rw [hempty] at hf
        exact absurd hf.length_pos (Nat.lt_irrefl 0)
    | u :: us =>
      constructor
      · intro f hf
        rcases hf.reads_or_article with ⟨hne, h⟩ | ⟨-, hbehind, -⟩
        · have hleft := isOpenLeft_of_accepts_article hs hts ht hne h.accepts
          have hnot := not_rejects_drop_of_reads hs hts ht hleft h hparts
          have hpos : 0 < (s.drop 1).length := by simp [Slice.length, hts]
          rcases fails_or_reads hpos hnot with hfails | ⟨g, hg, hle⟩
          · exact absurd (fails_of_drop_fails hs hts ht hfails) h.not_fails
          · -- The form behind the article begins with an operand, or the article would read.
            obtain ⟨g', hg'⟩ := exists_fronts_of_reads hg
            have hgleft : g'.fixity.isOpenLeft = true := by
              rw [← Bool.not_eq_false]
              intro hclosed
              have harticle := reads_of_accepts hs (by decide) (accepts_article hts ht hg' hclosed)
              exact hne (h.unique harticle)
            have hreads := hg'.reads_of_isOpenLeft hgleft
            have hsame := hreads.unique hg
            subst hsame
            have hle' := h.level_le (not_rejects_of_reads_drop hts ht hgleft hreads hparts)
            have heq := Form.level_injective (Nat.le_antisymm hle hle')
            exact heq ▸ hg'
        · exact hbehind
      · intro f hf
        cases hleft : f.fixity.isOpenLeft with
        | false =>
          have harticle := reads_of_accepts hs (by decide) (accepts_article hts ht hf hleft)
          exact .inl (harticle.fronts_iff.mpr hf)
        | true =>
          have hreads := hf.reads_of_isOpenLeft hleft
          have hnot := not_rejects_of_reads_drop hts ht hleft hreads hparts
          have hpos : 0 < s.length := by simp [Slice.length, hts]
          rcases fails_or_reads hpos hnot with hfails | ⟨g, hg, hle⟩
          · exact .inr hfails
          · have hgleft := isOpenLeft_of_reads hs hts ht hg hf hleft
            have hle' := hreads.level_le (not_rejects_drop_of_reads hs hts ht hgleft hg hparts)
            have heq := Form.level_injective (Nat.le_antisymm hle hle')
            rw [heq]
            exact .inl (hg.fronts (not_article_of_isOpenLeft hgleft))

end article

/-- Where the article form reads a slice, no form divides it between operands of its own. -/
theorem not_isOperand_take_of_article (hs : s.IsRegular) (h : Form.article.Accepts s)
    (hi : f.Divides s i)
    (hr : f.fixity.isOpenRight = true → (s.drop (i + 1)).IsOperandOrFails f.level .after) :
    ¬ (s.take i).IsOperand f.level .before := by
  induction hn : s.length using Nat.strongRecOn generalizing s i with
  | _ n ih =>
    obtain ⟨t, u, ts, hts, ht⟩ := article_of_not_rejects h.not_rejects
    obtain ⟨j, rfl⟩ := Nat.exists_eq_add_one_of_ne_zero (Nat.ne_of_gt hi.1)
    have htake := hi.tokens_take hts
    have hregular := hs.of_isPartOf (s.isPartOf_take (j + 1))
    have hbehind : (s.drop 1).IsRegular := hs.of_isPartOf (s.isPartOf_drop 1)
    rintro ⟨g, hg, hbound⟩
    rcases Nat.eq_zero_or_pos j with rfl | hj
    · exact not_isOperand_singleton_article hregular htake ht ⟨g, hg, hbound⟩
    · -- The article changes nothing for the part in front either, so the division is one of the
      -- slice behind the article, which another form reads to the end.
      have hdivides := (divides_drop_one_iff hts (isFlat_of_isArticle ht) hj).mpr hi
      have hoperand : ((s.drop 1).take j).IsOperand f.level .before := by
        rw [Slice.take_drop_one]
        exact ⟨g, (isSameBehind_of_isArticle hregular htake ht).1 g hg, hbound⟩
      have hright : f.fixity.isOpenRight = true →
          ((s.drop 1).drop (j + 1)).IsOperandOrFails f.level .after := by
        rw [Slice.drop_drop, Nat.add_comm 1]
        exact hr
      have hnot := not_rejects_of_divides hdivides (.inl hoperand) hright
      have hreads := reads_of_accepts hs (by decide) h
      obtain ⟨g₀, hg₀, hclosed⟩ := hreads.exists_fronts_drop
      have hlt : (s.drop 1).length < n := by
        have hpos := h.length_pos
        rw [Slice.length_drop, ← hn]
        omega
      rcases fails_or_reads hg₀.length_pos hnot with hfails | ⟨h', hh', hle⟩
      · exact hg₀.not_fails hfails
      · by_cases harticle : h' = .article
        · subst harticle
          exact ih _ hlt hbehind hh'.accepts hdivides hright rfl hoperand
        · have hsame := hg₀.unique (hh'.fronts harticle)
          subst hsame
          have hne : f.level ≠ g₀.level := by
            intro heq
            rw [← Form.level_injective heq, hi.isOpenLeft] at hclosed
            cases hclosed
          exact not_isOperand_take hbehind hclosed harticle hh'.accepts.not_rejects hdivides
            (by omega) hoperand

end Prose
