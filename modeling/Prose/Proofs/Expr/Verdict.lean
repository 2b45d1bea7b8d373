import Prose.Proofs.Expr.Outcome
import Prose.Proofs.Expr.Precedence

namespace Prose

open Prose.Expr Grammar

namespace Expr.Form

def Accepts (f : Form) (s : Slice) : Prop :=
  ∃ e, standard.verdict f s = .ok (some e)

def Rejects (f : Form) (s : Slice) : Prop :=
  standard.verdict f s = .ok none

/-- The form on its own commits to the slice and fails, or a part that it asks about does. -/
def Fails (f : Form) (s : Slice) : Prop :=
  ∃ p, standard.verdict f s = .error p

def Reads (f : Form) (s : Slice) : Prop :=
  ∃ e, standard.outcome s = .ok (some (f.rule, e))

/-- The form stands behind the articles of the slice. -/
def Fronts (f : Form) (s : Slice) : Prop :=
  ∃ e, standard.view s = .ok (some (f.rule, e))

end Expr.Form

namespace Slice

def Fails (s : Slice) : Prop :=
  ∃ p, standard.outcome s = .error p

/-- An operator that binds at the level can have the slice as its operand on this side. -/
def IsOperand (level : Nat) (side : Side) (s : Slice) : Prop :=
  ∃ f : Form, f.Fronts s ∧ (f.fixity.faces side = true → f.level ≤ level)

/-- An operator does not pass over the slice: it is an operand, or it ends the cascade. -/
def IsOperandOrFails (level : Nat) (side : Side) (s : Slice) : Prop :=
  s.IsOperand level side ∨ s.Fails

end Slice

variable {f f' g : Form} {s : Slice}

section cascade

theorem not_rejects_iff : ¬ f.Rejects s ↔ f.Accepts s ∨ f.Fails s := by
  unfold Form.Rejects Form.Accepts Form.Fails
  match standard.verdict f s with
  | .ok none => simp
  | .ok (some e) => simp
  | .error p => simp

theorem Expr.Form.Accepts.not_rejects (h : f.Accepts s) : ¬ f.Rejects s :=
  not_rejects_iff.mpr (.inl h)

theorem Expr.Form.Fails.not_rejects (h : f.Fails s) : ¬ f.Rejects s :=
  not_rejects_iff.mpr (.inr h)

theorem Expr.Form.Fails.not_accepts (h : f.Fails s) : ¬ f.Accepts s := by
  rintro ⟨e, he⟩
  obtain ⟨p, hp⟩ := h
  rw [he] at hp
  cases hp

theorem reads_iff : f.Reads s ↔
    0 < s.length ∧ f.Accepts s ∧ ∀ f' : Form, f.level < f'.level → f'.Rejects s := by
  constructor
  · rintro ⟨e, he⟩
    obtain ⟨f₀, hrule, hpos, haccepts, hlooser⟩ := outcome_standard_eq_some_iff.mp he
    have hf : f = f₀ := congrArg Rule.form hrule
    subst hf
    exact ⟨hpos, ⟨e, haccepts⟩, hlooser⟩
  · rintro ⟨hpos, ⟨e, he⟩, hlooser⟩
    exact ⟨e, outcome_standard_eq_some_iff.mpr ⟨f, rfl, hpos, he, hlooser⟩⟩

theorem fails_iff : s.Fails ↔
    ∃ f : Form, 0 < s.length ∧ f.Fails s ∧ ∀ f' : Form, f.level < f'.level → f'.Rejects s := by
  constructor
  · rintro ⟨p, hp⟩
    obtain ⟨f, hpos, hf, hlooser⟩ := outcome_standard_eq_error_iff.mp hp
    exact ⟨f, hpos, ⟨p, hf⟩, hlooser⟩
  · rintro ⟨f, hpos, ⟨p, hp⟩, hlooser⟩
    exact ⟨p, outcome_standard_eq_error_iff.mpr ⟨f, hpos, hp, hlooser⟩⟩

theorem Expr.Form.Reads.accepts (h : f.Reads s) : f.Accepts s :=
  (reads_iff.mp h).2.1

theorem Expr.Form.Reads.length_pos (h : f.Reads s) : 0 < s.length :=
  (reads_iff.mp h).1

/-- A form that does not reject is no looser than the one that reads. -/
theorem Expr.Form.Reads.level_le (h : f.Reads s) (h' : ¬ f'.Rejects s) : f'.level ≤ f.level := by
  by_contra hlt
  exact h' ((reads_iff.mp h).2.2 f' (Nat.not_le.mp hlt))

theorem Expr.Form.Reads.not_fails (h : f.Reads s) : ¬ s.Fails := by
  rintro ⟨p, hp⟩
  obtain ⟨e, he⟩ := h
  rw [he] at hp
  cases hp

theorem Expr.Form.Reads.unique (h : f.Reads s) (h' : g.Reads s) : f = g := by
  obtain ⟨e, he⟩ := h
  obtain ⟨e', he'⟩ := h'
  rw [he] at he'
  have hrule : f.rule = g.rule := congrArg Prod.fst (Option.some.inj (Except.ok.inj he'))
  exact congrArg Rule.form hrule

theorem exists_reads_of_outcome {r : Rule} {e : Expr} (h : standard.outcome s = .ok (some (r, e))) :
    ∃ f : Form, r = f.rule ∧ f.Reads s := by
  obtain ⟨f, rfl, -⟩ := outcome_standard_eq_some_iff.mp h
  exact ⟨f, rfl, e, h⟩

/-- Where some form does not reject, the cascade fails or reads by a form that is no tighter. -/
theorem fails_or_reads (hpos : 0 < s.length) (h : ¬ f.Rejects s) :
    s.Fails ∨ ∃ g : Form, g.Reads s ∧ f.level ≤ g.level := by
  match ho : standard.outcome s with
  | .error p => exact .inl ⟨p, ho⟩
  | .ok none => exact absurd ((outcome_standard_eq_none_iff hpos).mp ho f) h
  | .ok (some (r, e)) =>
    obtain ⟨g, -, hg⟩ := exists_reads_of_outcome ho
    exact .inr ⟨g, hg, hg.level_le h⟩

end cascade

section articles

theorem isTransparent_iff : f.fixity = .transparent ↔ f = .article := by
  cases f <;> simp [Form.fixity]

theorem Expr.Form.Reads.fronts (h : f.Reads s) (hf : f ≠ .article) : f.Fronts s := by
  obtain ⟨e, he⟩ := h
  exact ⟨e, view_of_ne_transparent he fun ht => hf (isTransparent_iff.mp ht)⟩

/-- Behind an article the form reads what stands there, as an operand of the tightest operator. -/
theorem verdict_article {t u : Token} {ts : List Token} (hs : s.tokens = t :: u :: ts)
    (ht : t.keyword.isArticle = true) :
    standard.verdict .article s =
      match standard.view (s.drop 1) with
      | .ok none => .ok none
      | .ok (some (rule, e)) =>
        .ok (if rule.form.fixity.faces .after && rule.priority > Form.identifier.level then none
          else some (e.movedTo t.position))
      | .error p => .error p := by
  rw [verdict, Form.read, readArticle_eq, hs]
  simp only [ht, if_true, Inquiry.resolve_bind, resolve_operand]
  match standard.view (s.drop 1) with
  | .ok none => rfl
  | .error p => rfl
  | .ok (some (rule, e)) =>
    simp only [Except.map, Except.bind, Operand.ofReading]
    cases rule.form.fixity.faces .after && decide (rule.priority > Form.identifier.level) <;> rfl

/-- The form does not reject only what has an article and something behind it. -/
theorem article_of_not_rejects (h : ¬ Form.article.Rejects s) :
    ∃ t u ts, s.tokens = t :: u :: ts ∧ t.keyword.isArticle = true := by
  match hs : s.tokens with
  | [] => exact absurd (by rw [Form.Rejects, verdict, Form.read, readArticle_eq, hs]; rfl) h
  | [t] => exact absurd (by rw [Form.Rejects, verdict, Form.read, readArticle_eq, hs]; rfl) h
  | t :: u :: ts =>
    cases ht : t.keyword.isArticle with
    | true => exact ⟨t, u, ts, rfl, ht⟩
    | false =>
      refine absurd ?_ h
      rw [Form.Rejects, verdict, Form.read, readArticle_eq, hs]
      simp only [ht, Bool.false_eq_true, if_false]
      rfl

theorem outcome_of_view {rule : Rule} {e : Expr} (h : standard.view s = .ok (some (rule, e))) :
    ∃ r, standard.outcome s = .ok (some (r, e)) ∧
      (ruleBehind r s.start s.tokens).resolve standard.outcome = .ok rule := by
  rw [view] at h
  rcases ho : standard.outcome s with p | _ | ⟨r, e'⟩
  · rw [ho] at h
    cases h
  · rw [ho] at h
    cases h
  · rw [ho] at h
    simp only at h
    cases hbehind : (ruleBehind r s.start s.tokens).resolve standard.outcome with
    | error p =>
      rw [hbehind] at h
      cases h
    | ok rule' =>
      rw [hbehind] at h
      cases h
      exact ⟨r, rfl, hbehind⟩

/-- Behind the article that the cascade reads stands a slice with the same rule at its front. -/
theorem view_of_article (h : Form.article.Reads s) :
    ∃ rule e e', standard.view s = .ok (some (rule, e)) ∧
      standard.view (s.drop 1) = .ok (some (rule, e')) ∧
      (rule.form.fixity.isOpenLeft && rule.priority > Form.identifier.level) = false := by
  obtain ⟨t, u, ts, hs, ht⟩ := article_of_not_rejects h.accepts.not_rejects
  obtain ⟨e, he⟩ := h
  have hverdict := (outcome_standard_eq_some_iff.mp he)
  obtain ⟨f, hrule, -, haccepts, -⟩ := hverdict
  have hf : Form.article = f := congrArg Rule.form hrule
  subst hf
  rw [verdict_article hs ht] at haccepts
  match hview : standard.view (s.drop 1) with
  | .ok none =>
    rw [hview] at haccepts
    cases haccepts
  | .error p =>
    rw [hview] at haccepts
    cases haccepts
  | .ok (some (rule, e')) =>
    rw [hview] at haccepts
    refine ⟨rule, e, e', ?_, rfl, ?_⟩
    · -- The front of the slice is looked up behind the article.
      obtain ⟨r, hr, hbehind⟩ := outcome_of_view hview
      have hdrop : s.drop 1 = ⟨s.start + 1, u :: ts⟩ := by simp [Slice.drop, hs]
      rw [hdrop] at hr hbehind
      have htransparent : Form.article.rule.form.fixity = .transparent := rfl
      rw [view, he]
      simp only [hs, ruleBehind]
      rw [if_pos htransparent, Inquiry.resolve_bind, Expr.read, Inquiry.resolve_question, hr]
      simp only [Except.bind, hbehind]
      rfl
    · -- A looser reading behind the article would not have been accepted.
      cases hlooser : rule.form.fixity.isOpenLeft && decide (rule.priority > Form.identifier.level)
      · rfl
      · simp only [Fixity.faces, hlooser, if_true] at haccepts
        cases haccepts

/-- The rule at the front of a slice is that of a form. -/
theorem exists_fronts_of_view {rule : Rule} {e : Expr}
    (h : standard.view s = .ok (some (rule, e))) : ∃ g : Form, rule = g.rule ∧ g.Fronts s := by
  induction hn : s.length using Nat.strongRecOn generalizing s e with
  | _ n ih =>
    obtain ⟨r, hr, -⟩ := outcome_of_view h
    obtain ⟨f, rfl, hf⟩ := exists_reads_of_outcome hr
    by_cases harticle : f = .article
    · subst harticle
      have hpos := hf.length_pos
      obtain ⟨rule', e₁, e', hview, hdrop, -⟩ := view_of_article hf
      rw [h] at hview
      cases hview
      obtain ⟨g, rfl, -⟩ := ih (s.length - 1) (by omega) hdrop (s.length_drop 1)
      exact ⟨g, rfl, e, h⟩
    · obtain ⟨e', he'⟩ := hf.fronts harticle
      rw [h] at he'
      cases he'
      exact ⟨f, rfl, e, h⟩

theorem exists_fronts_of_reads (h : f.Reads s) : ∃ g : Form, g.Fronts s := by
  by_cases hf : f = .article
  · subst hf
    obtain ⟨rule, e, e', hview, -⟩ := view_of_article h
    obtain ⟨g, -, hg⟩ := exists_fronts_of_view hview
    exact ⟨g, hg⟩
  · exact ⟨f, h.fronts hf⟩

theorem Expr.Form.Fronts.unique (h : f.Fronts s) (h' : f'.Fronts s) : f = f' := by
  obtain ⟨e, he⟩ := h
  obtain ⟨e', he'⟩ := h'
  rw [he] at he'
  have hrule : f.rule = f'.rule := congrArg Prod.fst (Option.some.inj (Except.ok.inj he'))
  exact congrArg Rule.form hrule

/-- Forms that begin with an operand are looser than all forms of one token. -/
theorem le_level_of_isOpenLeft (h : f.fixity.isOpenLeft = true) : 800 ≤ f.level := by
  cases f with
  | operators l => cases l <;> decide
  | typeCheck => decide
  | nullCheck => decide
  | _ => cases h

/-- The form at the front is the one that reads, or stands behind an article and does not begin with
an operand. -/
theorem Expr.Form.Fronts.reads_or_article (h : f.Fronts s) :
    f ≠ .article ∧ f.Reads s ∨
      Form.article.Reads s ∧ f.Fronts (s.drop 1) ∧ f.fixity.isOpenLeft = false := by
  obtain ⟨e, he⟩ := h
  obtain ⟨r, hr, -⟩ := outcome_of_view he
  obtain ⟨f₀, rfl, hf₀⟩ := exists_reads_of_outcome hr
  by_cases harticle : f₀ = .article
  · subst harticle
    obtain ⟨rule, e₁, e', hview, hdrop, hright⟩ := view_of_article hf₀
    rw [he] at hview
    cases hview
    refine .inr ⟨hf₀, ⟨e', hdrop⟩, ?_⟩
    cases hleft : f.fixity.isOpenLeft with
    | false => rfl
    | true =>
      have hlevel := le_level_of_isOpenLeft hleft
      have hpos : f.rule.priority > Form.identifier.level := by
        change 0 < f.level
        omega
      have hsame : f.rule.form.fixity.isOpenLeft = true := hleft
      rw [hsame, decide_eq_true hpos] at hright
      cases hright
  · have hfront := hf₀.fronts harticle
    have hsame : f = f₀ := Form.Fronts.unique ⟨e, he⟩ hfront
    subst hsame
    exact .inl ⟨harticle, hf₀⟩

theorem Expr.Form.Fronts.reads_of_isOpenLeft (h : f.Fronts s) (hf : f.fixity.isOpenLeft = true) :
    f.Reads s := by
  rcases h.reads_or_article with ⟨-, hread⟩ | ⟨-, -, hclosed⟩
  · exact hread
  · rw [hf] at hclosed
    cases hclosed

/-- Behind the article that reads a slice stands no form that begins with an operand. -/
theorem Expr.Form.Reads.exists_fronts_drop (h : Form.article.Reads s) :
    ∃ g : Form, g.Fronts (s.drop 1) ∧ g.fixity.isOpenLeft = false := by
  obtain ⟨g, hg⟩ := exists_fronts_of_reads h
  rcases hg.reads_or_article with ⟨hne, hread⟩ | ⟨-, hbehind, hclosed⟩
  · exact absurd (hread.unique h) hne
  · exact ⟨g, hbehind, hclosed⟩

theorem Expr.Form.Fronts.exists_reads (h : f.Fronts s) : ∃ g : Form, g.Reads s := by
  rcases h.reads_or_article with ⟨-, hread⟩ | ⟨hread, -⟩
  · exact ⟨f, hread⟩
  · exact ⟨.article, hread⟩

theorem Expr.Form.Fronts.length_pos (h : f.Fronts s) : 0 < s.length := by
  obtain ⟨g, hg⟩ := h.exists_reads
  exact hg.length_pos

/-- An article changes nothing for an operator beside the slice. -/
theorem Expr.Form.Reads.fronts_iff (h : Form.article.Reads s) : g.Fronts s ↔ g.Fronts (s.drop 1) := by
  obtain ⟨rule, e, e', hview, hdrop, -⟩ := view_of_article h
  unfold Form.Fronts
  rw [hview, hdrop]
  constructor
  · rintro ⟨e₀, he₀⟩
    cases he₀
    exact ⟨e', rfl⟩
  · rintro ⟨e₀, he₀⟩
    cases he₀
    exact ⟨e, rfl⟩

theorem view_eq_error_iff : (∃ p, standard.view s = .error p) ↔ s.Fails := by
  constructor
  · rintro ⟨p, hp⟩
    match ho : standard.outcome s with
    | .error p => exact ⟨p, ho⟩
    | .ok none =>
      rw [view_of_outcome_none ho] at hp
      cases hp
    | .ok (some (r, e)) =>
      obtain ⟨f, -, hf⟩ := exists_reads_of_outcome ho
      obtain ⟨g, e', he'⟩ := exists_fronts_of_reads hf
      rw [hp] at he'
      cases he'
  · rintro ⟨p, hp⟩
    exact ⟨p, view_of_outcome_error hp⟩

theorem Expr.Form.Fronts.not_fails (h : f.Fronts s) : ¬ s.Fails := by
  intro hfails
  obtain ⟨e, he⟩ := h
  obtain ⟨p, hp⟩ := view_eq_error_iff.mpr hfails
  rw [he] at hp
  cases hp

/-- A slice behind an article, if it is read and does not begin with an operand, is read with it. -/
theorem accepts_article {t u : Token} {ts : List Token} (hs : s.tokens = t :: u :: ts)
    (ht : t.keyword.isArticle = true) (h : f.Fronts (s.drop 1))
    (hf : f.fixity.isOpenLeft = false) : Form.article.Accepts s := by
  obtain ⟨e, he⟩ := h
  have hsame : f.rule.form.fixity.faces .after = false := hf
  refine ⟨e.movedTo t.position, ?_⟩
  rw [verdict_article hs ht, he]
  simp [hsame]

theorem fails_article {t u : Token} {ts : List Token} (hs : s.tokens = t :: u :: ts)
    (ht : t.keyword.isArticle = true) (h : (s.drop 1).Fails) : Form.article.Fails s := by
  obtain ⟨p, hp⟩ := view_eq_error_iff.mpr h
  exact ⟨p, by rw [verdict_article hs ht, hp]⟩

end articles

section operands

/-- The operands that an operator of the level can have. -/
theorem operand_bound_iff {level : Nat} {side : Side} :
    (∃ e, (operand level side s).resolve standard.outcome = .ok (.bound e)) ↔
      s.IsOperand level side := by
  rw [resolve_operand]
  constructor
  · rintro ⟨e, he⟩
    match hview : standard.view s with
    | .ok none =>
      rw [hview] at he
      cases he
    | .error p =>
      rw [hview] at he
      cases he
    | .ok (some (rule, e')) =>
      obtain ⟨g, rfl, hg⟩ := exists_fronts_of_view hview
      rw [hview] at he
      refine ⟨g, hg, fun hfaces => ?_⟩
      have hfaces' : g.rule.form.fixity.faces side = true := hfaces
      simp only [Except.map, Operand.ofReading, hfaces', Bool.true_and] at he
      -- A looser operand that faces the operator would not have been bound.
      by_contra hlt
      have hgt : g.rule.priority > level := Nat.not_le.mp hlt
      rw [decide_eq_true hgt, if_pos rfl] at he
      cases he
  · rintro ⟨g, ⟨e, he⟩, hg⟩
    refine ⟨e, ?_⟩
    have hbound : (g.rule.form.fixity.faces side && decide (g.rule.priority > level)) = false := by
      cases hfaces : g.rule.form.fixity.faces side with
      | false => rfl
      | true =>
        have hle : g.rule.priority ≤ level := hg hfaces
        simp only [Bool.true_and, decide_eq_false_iff_not]
        omega
    rw [he]
    simp only [Except.map, Operand.ofReading, hbound, Bool.false_eq_true, if_false]

theorem operand_error_iff (level : Nat) (side : Side) :
    (∃ p, (operand level side s).resolve standard.outcome = .error p) ↔ s.Fails := by
  rw [resolve_operand, ← view_eq_error_iff]
  match standard.view s with
  | .ok r => simp [Except.map]
  | .error p => simp [Except.map]

theorem Slice.isOperandOrFails_iff {level : Nat} {side : Side} :
    s.IsOperandOrFails level side ↔
      (∃ e, (operand level side s).resolve standard.outcome = .ok (.bound e)) ∨
        ∃ p, (operand level side s).resolve standard.outcome = .error p := by
  rw [Slice.IsOperandOrFails, operand_bound_iff, operand_error_iff]

section required

variable {origin name : String} {level : Nat} {side : Side} {whole : List Token}

theorem isOperand_of_requiredOperand {e : Expr}
    (h : (requiredOperand origin name level side s whole).resolve standard.outcome = .ok (some e)) :
    s.IsOperand level side := by
  rw [requiredOperand] at h
  split at h
  · cases h
  · rw [Inquiry.resolve_bind] at h
    rcases hoperand : (operand level side s).resolve standard.outcome with p | e' | _ | _
    · rw [hoperand] at h
      cases h
    · exact operand_bound_iff.mp ⟨e', hoperand⟩
    · rw [hoperand] at h
      cases h
    · rw [hoperand] at h
      cases h

theorem requiredOperand_ne_none (h : s.IsOperandOrFails level side) :
    (requiredOperand origin name level side s whole).resolve standard.outcome ≠ .ok none := by
  rw [requiredOperand]
  split
  · simp
  · rw [Inquiry.resolve_bind]
    obtain ⟨e, he⟩ | ⟨p, hp⟩ := Slice.isOperandOrFails_iff.mp h
    · simp [he, Except.bind]
    · simp [hp, Except.bind]

end required

theorem Slice.IsOperand.not_fails {level : Nat} {side : Side} (h : s.IsOperand level side) :
    ¬ s.Fails := by
  obtain ⟨g, hg, -⟩ := h
  exact hg.not_fails

theorem Slice.IsOperand.length_pos {level : Nat} {side : Side} (h : s.IsOperand level side) :
    0 < s.length := by
  obtain ⟨g, hg, -⟩ := h
  exact hg.length_pos

end operands

end Prose
