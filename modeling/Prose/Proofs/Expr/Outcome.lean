import Prose.Grammar
import Prose.Proofs.Expr.Questions

namespace Prose

/-- The verdict of the first rule that does not reject: its reading, or its problem. -/
def firstVerdict (verdict : Expr.Form → Except Problem (Option Expr)) :
    List Expr.Rule → Except Problem Reading
  | [] => .ok none
  | rule :: rules =>
    match verdict rule.form with
    | .ok (some e) => .ok (some (rule, e))
    | .ok none => firstVerdict verdict rules
    | .error p => .error p

theorem firstVerdict_cons (verdict : Expr.Form → Except Problem (Option Expr)) (rule : Expr.Rule)
    (rules : List Expr.Rule) : firstVerdict verdict (rule :: rules) =
      (verdict rule.form).bind fun r =>
        match r with
        | some e => .ok (some (rule, e))
        | none => firstVerdict verdict rules := by
  rw [firstVerdict]
  rcases verdict rule.form with p | _ | e <;> rfl

namespace Grammar

/-- The outcome of the cascade on a slice of at most `n` tokens. -/
def outcomeWithin (g : Grammar) : Nat → Slice → Except Problem Reading
  | 0, _ => .ok none
  | n + 1, s =>
    if s.isEmpty then .ok none
    else firstVerdict (fun f => (f.read s).resolve (g.outcomeWithin n)) g.expressions

def outcome (g : Grammar) (s : Slice) : Except Problem Reading :=
  g.outcomeWithin s.length s

/-- What a form on its own makes of a slice; the parts are read by the cascade. -/
def verdict (g : Grammar) (f : Expr.Form) (s : Slice) : Except Problem (Option Expr) :=
  (f.read s).resolve g.outcome

end Grammar

theorem firstVerdict_congr {verdict verdict' : Expr.Form → Except Problem (Option Expr)}
    (h : ∀ f, verdict f = verdict' f) (rules : List Expr.Rule) :
    firstVerdict verdict rules = firstVerdict verdict' rules := by
  rw [funext h]

namespace Grammar

variable (g : Grammar)

/-- More steps than a slice has tokens change nothing. -/
theorem outcomeWithin_eq_outcome {n : Nat} {s : Slice} (h : s.length ≤ n) :
    g.outcomeWithin n s = g.outcome s := by
  induction hl : s.length using Nat.strongRecOn generalizing s n with
  | _ l ih =>
    rw [outcome]
    match n, hn : s.length with
    | 0, 0 => rfl
    | 0, m + 1 => omega
    | n + 1, 0 =>
      have he : s.isEmpty = true := s.isEmpty_iff.mpr hn
      simp only [outcomeWithin, he, if_true]
    | n + 1, m + 1 =>
      simp only [outcomeWithin]
      split
      · rfl
      · refine firstVerdict_congr (fun f => ?_) _
        refine Inquiry.resolve_congr (fun q hq => ?_) (Expr.asks_form f s)
        have hql : q.length < s.length := hq.2
        rw [ih q.length (by omega) (by omega) rfl, ih q.length (by omega) (by omega) rfl]

@[simp] theorem outcome_of_isEmpty {s : Slice} (h : s.isEmpty = true) :
    g.outcome s = .ok none := by
  rw [outcome, s.isEmpty_iff.mp h]
  rfl

/-- The outcome of the cascade is the first verdict that is not a rejection. -/
theorem outcome_eq_firstVerdict {s : Slice} (h : 0 < s.length) :
    g.outcome s = firstVerdict (g.verdict · s) g.expressions := by
  obtain ⟨n, hn⟩ := Nat.exists_eq_add_one_of_ne_zero (Nat.ne_of_gt h)
  have he : ¬ s.isEmpty = true := by
    rw [s.isEmpty_iff]
    omega
  rw [outcome, hn, outcomeWithin, if_neg he]
  refine firstVerdict_congr (fun f => ?_) _
  refine Inquiry.resolve_congr (fun q hq => ?_) (Expr.asks_form f s)
  have hql : q.length < s.length := hq.2
  exact g.outcomeWithin_eq_outcome (by omega)

end Grammar

section firstVerdict

variable {verdict : Expr.Form → Except Problem (Option Expr)}

/-- A rule is the first not to reject exactly if it stands behind rules that all reject. -/
theorem firstVerdict_eq_some_iff {rules : List Expr.Rule} {rule : Expr.Rule} {e : Expr} :
    firstVerdict verdict rules = .ok (some (rule, e)) ↔
      ∃ before after, rules = before ++ rule :: after ∧ (∀ r ∈ before, verdict r.form = .ok none) ∧
        verdict rule.form = .ok (some e) := by
  induction rules with
  | nil => simp [firstVerdict]
  | cons r rules ih =>
    rw [firstVerdict]
    constructor
    · intro h
      split at h
      · rename_i e' he
        cases h
        exact ⟨[], rules, rfl, by simp, he⟩
      · rename_i hr
        obtain ⟨before, after, rfl, hb, he⟩ := ih.mp h
        exact ⟨r :: before, after, rfl, by simpa [hr] using hb, he⟩
      · cases h
    · rintro ⟨_ | ⟨b, before⟩, after, hrules, hb, he⟩
      · cases hrules
        simp [he]
      · cases hrules
        rw [hb _ (List.mem_cons_self ..)]
        exact ih.mpr ⟨before, after, rfl, fun r hr => hb r (List.mem_cons_of_mem _ hr), he⟩

theorem firstVerdict_eq_none_iff {rules : List Expr.Rule} :
    firstVerdict verdict rules = .ok none ↔ ∀ r ∈ rules, verdict r.form = .ok none := by
  induction rules with
  | nil => simp [firstVerdict]
  | cons r rules ih =>
    rw [firstVerdict, List.forall_mem_cons]
    split
    · rename_i he
      simp [he]
    · rename_i he
      simp [he, ih]
    · rename_i he
      simp [he]

theorem firstVerdict_eq_error_iff {rules : List Expr.Rule} {p : Problem} :
    firstVerdict verdict rules = .error p ↔
      ∃ before rule after, rules = before ++ rule :: after ∧
        (∀ r ∈ before, verdict r.form = .ok none) ∧ verdict rule.form = .error p := by
  induction rules with
  | nil => simp [firstVerdict]
  | cons r rules ih =>
    rw [firstVerdict]
    constructor
    · intro h
      split at h
      · cases h
      · rename_i hr
        obtain ⟨before, rule, after, rfl, hb, he⟩ := ih.mp h
        exact ⟨r :: before, rule, after, rfl, by simpa [hr] using hb, he⟩
      · rename_i p' hp
        cases h
        exact ⟨[], r, rules, rfl, by simp, hp⟩
    · rintro ⟨_ | ⟨b, before⟩, rule, after, hrules, hb, he⟩
      · cases hrules
        simp [he]
      · cases hrules
        rw [hb _ (List.mem_cons_self ..)]
        exact ih.mpr ⟨before, rule, after, rfl, fun r hr => hb r (List.mem_cons_of_mem _ hr), he⟩

end firstVerdict

/-! What the parts of a form come to: required parts are read by the cascade, and an operand is
judged by the rule that stands behind its articles. -/

open Prose.Expr

/-- What an operand beside an operator of a level is, given the rule that it is judged by. -/
def Expr.Operand.ofReading (level : Nat) (side : Side) : Reading → Operand
  | none => .unread
  | some (rule, e) =>
    if rule.form.fixity.faces side && rule.priority > level then .looser else .bound e

namespace Grammar

variable (g : Grammar)

/-- The reading of a slice with the rule that stands behind the articles of the slice. -/
def view (s : Slice) : Except Problem Reading :=
  match g.outcome s with
  | .ok (some (rule, e)) =>
    ((ruleBehind rule s.start s.tokens).resolve g.outcome).map fun rule => some (rule, e)
  | .ok none => .ok none
  | .error p => .error p

variable {g} {s : Slice} {rule : Rule} {e : Expr} {p : Problem}

/-- Only an article lets the judgement look further. -/
theorem ruleBehind_of_ne_transparent (start : Nat) (ts : List Token)
    (h : rule.form.fixity ≠ .transparent) : ruleBehind rule start ts = pure rule := by
  match ts with
  | [] => rfl
  | [_] => rfl
  | _ :: _ :: _ => rw [ruleBehind, if_neg h]

theorem view_of_outcome_none (h : g.outcome s = .ok none) : g.view s = .ok none := by
  rw [view, h]

theorem view_of_outcome_error (h : g.outcome s = .error p) : g.view s = .error p := by
  rw [view, h]

theorem view_of_ne_transparent (h : g.outcome s = .ok (some (rule, e)))
    (hrule : rule.form.fixity ≠ .transparent) : g.view s = .ok (some (rule, e)) := by
  rw [view, h]
  simp only [ruleBehind_of_ne_transparent _ _ hrule]
  rfl

end Grammar

section resolve

variable {g : Grammar} {part : Slice} {rule : Rule} {e : Expr} {p : Problem}

theorem pos_of_outcome_some (h : g.outcome part = .ok (some (rule, e))) : 0 < part.length := by
  rcases Nat.eq_zero_or_pos part.length with hl | hl
  · rw [g.outcome_of_isEmpty (part.isEmpty_iff.mpr hl)] at h
    cases h
  · exact hl

theorem isEmpty_eq_false_of_pos (h : 0 < part.length) : part.isEmpty = false := by
  rw [← Bool.not_eq_true, part.isEmpty_iff]
  omega

theorem resolve_requiredOr {missing invalid : Problem}
    (h : g.outcome part = .ok (some (rule, e))) :
    (requiredOr missing invalid part).resolve g.outcome = .ok e := by
  rw [requiredOr, isEmpty_eq_false_of_pos (pos_of_outcome_some h)]
  simp [Expr.read, h, Except.bind]

/-- A required part is what the cascade reads it as. -/
theorem resolve_required {origin name : String} {whole : List Token}
    (h : g.outcome part = .ok (some (rule, e))) :
    (required origin name part whole).resolve g.outcome = .ok e :=
  resolve_requiredOr h

/-- An operand is judged by the rule behind its articles. -/
theorem resolve_operand (level : Nat) (side : Side) :
    (operand level side part).resolve g.outcome =
      (g.view part).map (Operand.ofReading level side) := by
  rw [operand, Inquiry.resolve_bind, Expr.read, Inquiry.resolve_question, Grammar.view]
  match g.outcome part with
  | .ok none => rfl
  | .error p => rfl
  | .ok (some (rule, e)) =>
    simp only [Except.bind, Inquiry.resolve_bind]
    cases (ruleBehind rule part.start part.tokens).resolve g.outcome <;> rfl

theorem resolve_requiredOperand {origin name : String} (level : Nat) (side : Side)
    {whole : List Token} (h : 0 < part.length) :
    (requiredOperand origin name level side part whole).resolve g.outcome =
      match g.view part with
      | .ok none => .error (invalidPart origin name part.tokens)
      | .ok (some (rule, e)) =>
        .ok (if rule.form.fixity.faces side && rule.priority > level then none else some e)
      | .error p => .error p := by
  rw [requiredOperand, isEmpty_eq_false_of_pos h, if_neg Bool.false_ne_true,
    Inquiry.resolve_bind, resolve_operand]
  match g.view part with
  | .ok none => rfl
  | .error p => rfl
  | .ok (some (rule, e)) =>
    simp only [Except.map, Except.bind, Operand.ofReading]
    cases rule.form.fixity.faces side && decide (rule.priority > level) <;> rfl

/-- A closed operand belongs to every operator. -/
theorem resolve_operand_of_closed {level : Nat} {side : Side}
    (h : g.outcome part = .ok (some (rule, e))) (hrule : rule.form.fixity = .closed) :
    (operand level side part).resolve g.outcome = .ok (.bound e) := by
  rw [resolve_operand, Grammar.view_of_ne_transparent h (by rw [hrule]; decide)]
  cases side <;> simp [Except.map, Operand.ofReading, hrule, Fixity.faces, Fixity.isOpenLeft,
    Fixity.isOpenRight]

theorem resolve_requiredOperand_of_closed {origin name : String} {level : Nat} {side : Side}
    {whole : List Token} (h : g.outcome part = .ok (some (rule, e)))
    (hrule : rule.form.fixity = .closed) :
    (requiredOperand origin name level side part whole).resolve g.outcome = .ok (some e) := by
  rw [resolve_requiredOperand level side (pos_of_outcome_some h),
    Grammar.view_of_ne_transparent h (by rw [hrule]; decide)]
  cases side <;> simp [hrule, Fixity.faces, Fixity.isOpenLeft, Fixity.isOpenRight]

end resolve

end Prose
