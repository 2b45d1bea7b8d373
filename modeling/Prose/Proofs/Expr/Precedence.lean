import Prose.Proofs.Expr.Outcome

namespace Prose

namespace Expr.Form

theorem mem_all (f : Form) : f ∈ all := by
  cases f with
  | operators l => cases l <;> decide
  | unary op => cases op <;> decide
  | phrase p => cases p <;> decide
  | _ => decide

end Expr.Form

section decreasing

variable {ρ : Type} {priority : ρ → Nat} {rules : List ρ} {rule : ρ}

/-- Where priorities fall, the rules before a rule are those of higher priority. -/
theorem exists_before_iff_of_pairwise {P : ρ → Prop}
    (h : rules.Pairwise fun r r' => priority r' < priority r) :
    (∃ before after, rules = before ++ rule :: after ∧ ∀ r ∈ before, P r) ↔
      rule ∈ rules ∧ ∀ r ∈ rules, priority rule < priority r → P r := by
  constructor
  · rintro ⟨before, after, rfl, hb⟩
    refine ⟨by simp, fun r hr hlt => ?_⟩
    have hafter := (List.pairwise_cons.mp (List.pairwise_append.mp h).2.1).1
    rcases List.mem_append.mp hr with hr | hr
    · exact hb r hr
    · rcases List.mem_cons.mp hr with rfl | hr
      · omega
      · have hgt := hafter r hr
        omega
  · rintro ⟨hmem, hP⟩
    obtain ⟨before, after, rfl⟩ := List.append_of_mem hmem
    refine ⟨before, after, rfl, fun r hr => hP r (List.mem_append_left _ hr) ?_⟩
    exact (List.pairwise_append.mp h).2.2 r hr rule (List.mem_cons_self ..)

end decreasing

namespace Grammar

/-- The rules for expressions of the standard grammar are those of the forms. -/
theorem mem_expressions_iff {r : Expr.Rule} :
    r ∈ standard.expressions ↔ ∃ f : Expr.Form, r = f.rule := by
  have hsub : ∀ r ∈ standard.expressions, r = r.form.rule := by decide
  have hsup : ∀ f ∈ Expr.Form.all, f.rule ∈ standard.expressions := by decide
  constructor
  · exact fun hr => ⟨r.form, hsub r hr⟩
  · rintro ⟨f, rfl⟩
    exact hsup f f.mem_all

theorem pairwise_expressions :
    standard.expressions.Pairwise fun r r' => r'.priority < r.priority := by
  decide

end Grammar

/-- No two forms are on one level. -/
theorem Expr.Form.level_injective {f f' : Expr.Form} (h : f.level = f'.level) : f = f' := by
  have hinj : ∀ a ∈ all, ∀ b ∈ all, a.level = b.level → a = b := by decide
  exact hinj f f.mem_all f' f'.mem_all h

namespace Grammar

open Prose.Expr

variable {s : Slice}

/-- The rules that stand before one in the cascade are those of looser forms. -/
theorem exists_before_iff {rule : Rule} :
    (∃ before after, standard.expressions = before ++ rule :: after ∧
        ∀ r ∈ before, standard.verdict r.form s = .ok none) ↔
      ∃ f : Form, rule = f.rule ∧
        ∀ f' : Form, f.level < f'.level → standard.verdict f' s = .ok none := by
  rw [exists_before_iff_of_pairwise pairwise_expressions, mem_expressions_iff]
  constructor
  · rintro ⟨⟨f, rfl⟩, hr⟩
    exact ⟨f, rfl, fun f' hlt => hr f'.rule (mem_expressions_iff.mpr ⟨f', rfl⟩) hlt⟩
  · rintro ⟨f, rfl, hr⟩
    refine ⟨⟨f, rfl⟩, fun r hmem hlt => ?_⟩
    obtain ⟨f', rfl⟩ := mem_expressions_iff.mp hmem
    exact hr f' hlt

/-- A form reads a slice that every looser form rejects. -/
theorem outcome_standard_eq_some_iff {r : Rule} {e : Expr} :
    standard.outcome s = .ok (some (r, e)) ↔
      ∃ f : Form, r = f.rule ∧ 0 < s.length ∧ standard.verdict f s = .ok (some e) ∧
        ∀ f' : Form, f.level < f'.level → standard.verdict f' s = .ok none := by
  by_cases hpos : 0 < s.length
  · rw [standard.outcome_eq_firstVerdict hpos, firstVerdict_eq_some_iff]
    constructor
    · rintro ⟨before, after, hrules, hb, he⟩
      obtain ⟨f, rfl, hr⟩ := exists_before_iff.mp ⟨before, after, hrules, hb⟩
      exact ⟨f, rfl, hpos, he, hr⟩
    · rintro ⟨f, rfl, -, he, hr⟩
      obtain ⟨before, after, hrules, hb⟩ := exists_before_iff.mpr ⟨f, rfl, hr⟩
      exact ⟨before, after, hrules, hb, he⟩
  · have he : s.isEmpty = true := s.isEmpty_iff.mpr (by omega)
    simp [standard.outcome_of_isEmpty he, hpos]

/-- A slice that has tokens cannot be read if every form rejects it. -/
theorem outcome_standard_eq_none_iff (hpos : 0 < s.length) :
    standard.outcome s = .ok none ↔ ∀ f : Form, standard.verdict f s = .ok none := by
  rw [standard.outcome_eq_firstVerdict hpos, firstVerdict_eq_none_iff]
  constructor
  · exact fun h f => h f.rule (mem_expressions_iff.mpr ⟨f, rfl⟩)
  · intro h r hr
    obtain ⟨f, rfl⟩ := mem_expressions_iff.mp hr
    exact h f

/-- A form that commits and fails ends the cascade if every looser form rejects the slice. -/
theorem outcome_standard_eq_error_iff {p : Problem} :
    standard.outcome s = .error p ↔
      ∃ f : Form, 0 < s.length ∧ standard.verdict f s = .error p ∧
        ∀ f' : Form, f.level < f'.level → standard.verdict f' s = .ok none := by
  by_cases hpos : 0 < s.length
  · rw [standard.outcome_eq_firstVerdict hpos, firstVerdict_eq_error_iff]
    constructor
    · rintro ⟨before, rule, after, hrules, hb, he⟩
      obtain ⟨f, rfl, hr⟩ := exists_before_iff.mp ⟨before, after, hrules, hb⟩
      exact ⟨f, hpos, he, hr⟩
    · rintro ⟨f, -, he, hr⟩
      obtain ⟨before, after, hrules, hb⟩ := exists_before_iff.mpr ⟨f, rfl, hr⟩
      exact ⟨before, f.rule, after, hrules, hb, he⟩
  · have he : s.isEmpty = true := s.isEmpty_iff.mpr (by omega)
    simp [standard.outcome_of_isEmpty he, hpos]

end Grammar

end Prose
