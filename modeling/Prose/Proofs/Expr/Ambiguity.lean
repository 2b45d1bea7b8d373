import Prose.Proofs.Expr.Alone
import Prose.Proofs.Expr.Check
import Prose.Proofs.Expr.Head

/-! Which forms accept the same slice. Two of them can only do so where the looser one begins with an
operand and the tighter one ends with one: the sign of the looser form then stands in the last
operand of the tighter one, or the tighter form in the first operand of the looser one. -/
namespace Prose

open Prose.Expr Grammar

variable {f g : Form} {s : Slice} {i : Nat}

theorem ne_of_level_lt (h : g.level < f.level) : f ≠ g :=
  fun hsame => absurd h (hsame ▸ Nat.lt_irrefl _)

/-- A form with a word of its own in front leaves nothing to the tighter forms. -/
theorem isOpenLeft_of_accepts (hs : s.IsRegular) (hlevel : g.level < f.level) (hf : f.Accepts s)
    (hg : g.Accepts s) : f.fixity.isOpenLeft = true := by
  rw [← Bool.not_eq_false]
  intro hclosed
  cases hleft : g.fixity.isOpenLeft with
  | false =>
    have hsame := eq_of_not_rejects hs hclosed hleft hf.not_rejects hg.not_rejects
    exact ne_of_level_lt hlevel hsame
  | true =>
    obtain ⟨i, hi, hl, hr⟩ := exists_divides_of_accepts hleft hg
    by_cases harticle : f = .article
    · subst harticle
      exact not_isOperand_take_of_article hs hf hi (fun hopen => .inl (hr hopen)) hl
    · exact not_isOperand_take hs hclosed harticle hf.not_rejects hi hlevel hl

/-- A form that does not end with an operand leaves nothing to the looser operators. -/
theorem isOpenRight_of_accepts (hs : s.IsRegular) (hlevel : g.level < f.level) (hf : f.Accepts s)
    (hg : g.Accepts s) : g.fixity.isOpenRight = true := by
  have hleft := isOpenLeft_of_accepts hs hlevel hf hg
  have hle := level_le_of_isOpenLeft hleft
  obtain ⟨i, hi, hl, -⟩ := exists_divides_of_accepts hleft hf
  cases hright : g.fixity with
  | openRight => rfl
  | openBoth => rfl
  | openLeft => exact absurd hf (not_accepts_of_accepts_check hs hright hg hleft hlevel)
  | transparent =>
    rw [isTransparent_iff.mp hright] at hlevel
    exact absurd (Nat.lt_of_lt_of_le hlevel hle) (by decide)
  | closed =>
    rcases accepts_closed hright hg with rfl | rfl | hone
    · exact absurd (Nat.lt_of_lt_of_le hlevel hle) (by decide)
    · exact absurd hl (not_isOperand_take_of_cast hs hg hi)
    · have hpos := hi.1
      have hlt := hi.lt_length
      omega

/-- Of two forms that accept one slice of condensed tokens, under any limit, the looser one begins
with an operand and the tighter one ends with an operand. So at most one form accepts a slice among
those with a word of their own in front, and among those with a word of their own at the end. -/
theorem open_of_alone (hs : s.IsCondensed) {o : Options} {n : Nat} {e e' : Expr}
    (hlevel : g.level < f.level) (hf : f.alone o n s = .ok (some e))
    (hg : g.alone o n s = .ok (some e')) :
    f.fixity.isOpenLeft = true ∧ g.fixity.isOpenRight = true := by
  have hfaccepts : f.Accepts s := ⟨e, verdict_eq_of_alone hf⟩
  have hgaccepts : g.Accepts s := ⟨e', verdict_eq_of_alone hg⟩
  exact ⟨isOpenLeft_of_accepts hs.isRegular hlevel hfaccepts hgaccepts,
    isOpenRight_of_accepts hs.isRegular hlevel hfaccepts hgaccepts⟩

/-- A sum in front of an `and`. The conjunction accepts it with the sum as its first operand; the sum
accepts it with a conjunction as its first operand, which may be looser than the sum. -/
def sumAndName : Slice :=
  .ofSource "the sum of $a and $b and $c" "t"

theorem exists_conjunction_sumAndName :
    ∃ e, (Form.operators .conjunction).alone {} 0 sumAndName = .ok (some e) :=
  exists_eq_ok_some (by decide +kernel)

theorem exists_sum_sumAndName : ∃ e, (Form.phrase .sum).alone {} 0 sumAndName = .ok (some e) :=
  exists_eq_ok_some (by decide +kernel)

/-- The conjunction is the looser of the two forms that accept the slice. -/
theorem open_of_alone_sumAndName :
    sumAndName.IsCondensed ∧ (Form.phrase .sum).level < (Form.operators .conjunction).level ∧
      (∃ e, (Form.operators .conjunction).alone {} 0 sumAndName = .ok (some e)) ∧
      (∃ e, (Form.phrase .sum).alone {} 0 sumAndName = .ok (some e)) ∧
      (Form.operators .conjunction).fixity.isOpenLeft = true ∧
        (Form.phrase .sum).fixity.isOpenRight = true := by
  have hcondensed : sumAndName.IsCondensed := Slice.isCondensed_ofSource _ _
  have hlevel : (Form.phrase .sum).level < (Form.operators .conjunction).level := by decide
  obtain ⟨e, he⟩ := exists_conjunction_sumAndName
  obtain ⟨e', he'⟩ := exists_sum_sumAndName
  exact ⟨hcondensed, hlevel, ⟨e, he⟩, ⟨e', he'⟩, open_of_alone hcondensed hlevel he he'⟩

/-- Two forms accept one slice of condensed tokens. -/
theorem two_forms_accept_sumAndName :
    sumAndName.IsCondensed ∧ sumAndName.length < ({} : Options).maxNestingDepth ∧
      ∃ f g : Form, f ≠ g ∧ (∃ e, f.alone {} 0 sumAndName = .ok (some e)) ∧
        ∃ e, g.alone {} 0 sumAndName = .ok (some e) :=
  ⟨Slice.isCondensed_ofSource _ _, by decide +kernel, .operators .conjunction, .phrase .sum,
    by decide, exists_conjunction_sumAndName, exists_sum_sumAndName⟩

/-! When the cascade fails on a slice that some form can read. -/

/-- Where some form accepts a slice, the form on which the cascade fails begins with an operand or
with an article. -/
theorem isOpenLeft_or_article_of_fails (hs : s.IsRegular) (hf : f.Fails s)
    (hlooser : ∀ f' : Form, f.level < f'.level → f'.Rejects s) (hg : g.Accepts s) :
    f.fixity.isOpenLeft = true ∨ f = .article := by
  cases hleft : f.fixity.isOpenLeft with
  | true => exact .inl rfl
  | false =>
    refine .inr ?_
    by_contra harticle
    have hne : g ≠ f := by
      rintro rfl
      exact hf.not_accepts hg
    have hlt : g.level < f.level := by
      have hle : ¬ f.level < g.level := fun hlt => hg.not_rejects (hlooser g hlt)
      have hlevel : g.level ≠ f.level := fun h => hne (Form.level_injective h)
      omega
    cases hgleft : g.fixity.isOpenLeft with
    | false => exact hne (eq_of_not_rejects hs hgleft hleft hg.not_rejects hf.not_rejects)
    | true =>
      obtain ⟨i, hi, hoperand, -⟩ := exists_divides_of_accepts hgleft hg
      exact not_isOperand_take hs hleft harticle hf.not_rejects hi hlt hoperand

/-- A slice of condensed tokens that some form can read is never rejected by the cascade. The
cascade fails on it exactly if a form looser than every form that can read it fails on it, and that
form begins with an operand or with an article: a form with a word of its own in front never hides a
reading. -/
theorem selection_fails_iff (hs : s.IsCondensed) {o : Options} {n : Nat}
    (hroom : s.length < o.maxNestingDepth)
    (h : ∃ (f : Form) (e : Expr), f.alone o n s = .ok (some e)) :
    s.selection o n ≠ .ok none ∧
      ((∃ p, s.selection o n = .error p) ↔
        ∃ f : Form, (f.fixity.isOpenLeft = true ∨ f = .article) ∧ (∃ p, f.alone o n s = .error p) ∧
          ∀ (g : Form) (e : Expr), g.alone o n s = .ok (some e) → g.level < f.level) := by
  simp only [alone_eq_verdict (Nat.le_of_lt hroom), selection_eq_outcome (Nat.le_of_lt hroom)] at h ⊢
  obtain ⟨g, hg⟩ := h
  have hpos : 0 < s.length := Form.Accepts.length_pos hg
  refine ⟨?_, ?_, ?_⟩
  · intro hnone
    exact Form.Accepts.not_rejects hg ((outcome_standard_eq_none_iff hpos).mp hnone g)
  · -- The form that fails is not the one that reads the slice, and is looser than each that could.
    intro hfails
    obtain ⟨f, -, hf, hlooser⟩ := fails_iff.mp hfails
    refine ⟨f, isOpenLeft_or_article_of_fails hs.isRegular hf hlooser hg, hf, ?_⟩
    intro f' e he
    have hle : ¬ f.level < f'.level := fun hlt => Form.Accepts.not_rejects ⟨e, he⟩ (hlooser f' hlt)
    have hne : f'.level ≠ f.level := by
      intro hlevel
      rw [Form.level_injective hlevel] at he
      exact hf.not_accepts ⟨e, he⟩
    omega
  · rintro ⟨f, -, hf, haccepts⟩
    rcases fails_or_reads hpos (Form.Fails.not_rejects hf) with hfails | ⟨f', hf', hle⟩
    · exact hfails
    · obtain ⟨e, he⟩ := hf'.accepts
      have hlt := haccepts f' e he
      omega

/-- A sum whose left operand is a type check. The type check is tried first, takes all that stands
behind `is a` for a type, and fails. -/
def checkedSum : Slice :=
  .ofSource "$x is a number plus $y" "t"

/-- The cascade fails on a slice that a form accepts. -/
theorem selection_fails_checkedSum :
    checkedSum.IsCondensed ∧ checkedSum.length < ({} : Options).maxNestingDepth ∧
      (∃ e, (Form.operators .additive).alone {} 0 checkedSum = .ok (some e)) ∧
        ∃ p, checkedSum.selection {} 0 = .error p := by
  have haccepts : ((Form.operators .additive).alone {} 0 checkedSum).toOption.join.isSome = true := by
    decide +kernel
  have hfails : (checkedSum.selection {} 0).toOption.isNone = true := by decide +kernel
  exact ⟨Slice.isCondensed_ofSource _ _, by decide +kernel, exists_eq_ok_some haccepts,
    exists_eq_error hfails⟩

/-- The type check is looser than every form that accepts the slice, so the cascade fails. -/
theorem selection_fails_checkedSum_of_typeCheck :
    checkedSum.IsCondensed ∧ checkedSum.length < ({} : Options).maxNestingDepth ∧
      (∃ (f : Form) (e : Expr), f.alone {} 0 checkedSum = .ok (some e)) ∧
        ∃ p, checkedSum.selection {} 0 = .error p := by
  have hlength : checkedSum.length < ({} : Options).maxNestingDepth := by decide +kernel
  have haccepts : ∃ (f : Form) (e : Expr), f.alone {} 0 checkedSum = .ok (some e) :=
    ⟨.operators .additive, exists_eq_ok_some (by decide +kernel)⟩
  have hfails : ∃ p, Form.typeCheck.alone {} 0 checkedSum = .error p :=
    exists_eq_error (by decide +kernel)
  have htighter : ∀ g ∈ Form.all, Form.typeCheck.level ≤ g.level →
      (g.alone {} 0 checkedSum).toOption.join.isSome = false := by
    decide +kernel
  have hcondensed : checkedSum.IsCondensed := Slice.isCondensed_ofSource _ _
  refine ⟨hcondensed, hlength, haccepts, ?_⟩
  refine (selection_fails_iff hcondensed hlength haccepts).2.mpr ⟨.typeCheck, .inl rfl, hfails, ?_⟩
  intro g e he
  by_contra hle
  have hnone := htighter g g.mem_all (Nat.not_lt.mp hle)
  rw [he] at hnone
  cases hnone

end Prose
