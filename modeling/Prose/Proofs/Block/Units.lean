import Prose.Proofs.Block.Composition
import Prose.Proofs.Segment.Units
import Prose.Proofs.Stmt.Place

/-! No statement of a block disappears. Every unit of a block becomes one statement, which stands
where the unit begins, or costs one problem of its own, which is reported behind the problems from
inside the unit. -/
namespace Prose

namespace Sentence

def lead? (x : Sentence) : Option Token :=
  x.slices.head?.bind Slice.head?

/-- The sentence is a broken segment, or it begins with a token. -/
def IsLed (x : Sentence) : Prop :=
  (∃ s p, x = .broken s p) ∨ ∃ t, x.lead? = some t

end Sentence

namespace Parse

open Session

/-- What comes of a unit: the problems from inside it, and its statement or its own problem. -/
structure Outcome where
  inner : List Problem
  result : Except Problem Stmt

namespace Outcome

def node? (o : Outcome) : Option Stmt :=
  match o.result with
  | .ok st => some st
  | .error _ => none

def own? (o : Outcome) : Option Problem :=
  match o.result with
  | .ok _ => none
  | .error p => some p

def problems (o : Outcome) : List Problem :=
  o.inner ++ o.own?.toList

end Outcome

/-- What comes of a unit when it is read with these options at this depth. -/
structure Yields (g : Grammar) (options : Options) (depth : Nat) (x : Sentence) (o : Outcome) :
    Prop where
  read : ∃ σ τ : Session, σ.options = options ∧ σ.depth = depth ∧
    (sentence g (reply g (block g)) x).run.run σ = (o.result, τ) ∧
      τ.errors.toList = σ.errors.toList ++ o.inner
  place : ∀ st, o.result = .ok st → x.lead?.map (·.position) = some st.position
  broken : ∀ s p, x = .broken s p → o = ⟨[], .error p⟩

section place

variable {g : Grammar} {answer : (q : Stmt.Question) → Parse q.Reply} {s : Slice} {st : Stmt}
  {σ τ : Session}

theorem position_of_firstStatement {rules : List Stmt.Rule} {rule : Stmt.Rule}
    (h : (firstStatement answer s rules).run.run σ = (.ok (some (rule, st)), τ)) :
    st.position = s.position := by
  induction rules generalizing σ with
  | nil => cases h
  | cons rule' rules ih =>
    rw [firstStatement, Inquiry.run_bind] at h
    generalize hfirst : ((rule'.form.read s).run answer).run.run σ = first at h
    obtain ⟨p | st', υ⟩ := first
    · cases h
    · cases st' with
      | none => exact ih h
      | some st' =>
        cases h
        exact (Stmt.ends_form s rule.form).of_run hfirst st rfl

theorem position_of_statementWith {rule : Stmt.Rule}
    (h : (statementWith g answer s).run.run σ = (.ok (some (rule, st)), τ)) :
    st.position = s.position := by
  unfold statementWith at h
  split at h
  · cases h
  · rw [nested_run] at h
    split at h
    · cases h
    · generalize hfirst : (firstStatement answer s g.statements).run.run
        { σ with depth := σ.depth + 1 } = first at h
      obtain ⟨r, υ⟩ := first
      cases h
      exact position_of_firstStatement hfirst

/-- A sentence becomes a statement in the place of its first slice. -/
theorem position_of_sentence {x : Sentence}
    (h : (sentence g answer x).run.run σ = (.ok st, τ)) (hs : x.slices.head? = some s) :
    st.position = s.position := by
  cases x with
  | chain slices =>
    cases slices with
    | nil => cases hs
    | cons r rest =>
      cases hs
      exact (Stmt.ends_readConditional s rest).of_run h
  | orphan r => cases h
  | plain r =>
    cases hs
    rw [sentence, Inquiry.run_bind] at h
    generalize hselected : (statementWith g answer s).run.run σ = selected at h
    obtain ⟨p | selection, υ⟩ := selected
    · cases h
    · cases selection with
      | none => cases h
      | some selection =>
        cases h
        exact position_of_statementWith hselected
  | broken r p => cases h

end place

section account

variable {g : Grammar} {s : Slice} {σ : Session}

/-- A session is side by side with itself, in the same places. -/
theorem parallel_self (s : Slice) (σ : Session) : Parallel (.along 0) s σ σ σ σ := by
  apply Parallel.start rfl rfl
  intro q _ _
  rw [relocate_along_zero_slice]
  match σ.memo.find? q with
  | none => rfl
  | some none => rfl
  | some (some (rule, e)) =>
    change some (some (rule, e)) = some (some (rule, relocate (.along 0) e))
    rw [Expr.relocate_along_expr]

/-- Reading a sentence keeps the options and the depth and takes no problem back. -/
theorem exists_inner {x : Sentence} (hx : ∀ part ∈ x.slices, part.IsPartOf s) (σ : Session) :
    ∃ (o : Outcome) (τ : Session), (sentence g (reply g (block g)) x).run.run σ = (o.result, τ) ∧
      τ.options = σ.options ∧ τ.depth = σ.depth ∧
        τ.errors.toList = σ.errors.toList ++ o.inner := by
  have hblock : BlocksInParallel (.along 0) s s (block g) (block g) := by
    intro inner hinner
    exact inParallel_block hinner.1
  obtain ⟨-, hparallel⟩ :=
    inParallel_sentence (g := g) (.refl s) hblock hx σ σ σ σ (parallel_self s σ)
  obtain ⟨inner, hinner, -⟩ := hparallel.errors
  exact ⟨⟨inner, _⟩, _, rfl, hparallel.options.1, hparallel.depth.1, hinner⟩

/-- One unit, from whatever session it is read. -/
theorem exists_yields {x : Sentence} (hx : ∀ part ∈ x.slices, part.IsPartOf s) (hlead : x.IsLed)
    (σ : Session) :
    ∃ (o : Outcome) (τ : Session), (sentence g (reply g (block g)) x).run.run σ = (o.result, τ) ∧
      τ.options = σ.options ∧ τ.depth = σ.depth ∧
        τ.errors.toList = σ.errors.toList ++ o.inner ∧ Yields g σ.options σ.depth x o := by
  obtain ⟨o, τ, hrun, hoptions, hdepth, herrors⟩ := exists_inner (g := g) hx σ
  refine ⟨o, τ, hrun, hoptions, hdepth, herrors, ⟨σ, τ, rfl, rfl, hrun, herrors⟩, ?_, ?_⟩
  -- The place is that of the first slice, which is not empty.
  · intro st hst
    rw [hst] at hrun
    rcases hlead with ⟨r, p, rfl⟩ | ⟨t, ht⟩
    · cases hrun
    · obtain ⟨r, hr, hhead⟩ := Option.bind_eq_some_iff.mp ht
      have hposition : r.position = t.position := by
        rw [Slice.position, ← Slice.head?, hhead]
        rfl
      rw [ht, position_of_sentence hrun hr, hposition]
      rfl
  -- Of a broken segment nothing is read.
  · rintro r p rfl
    obtain ⟨inner, result⟩ := o
    cases hrun
    have hnone : inner = [] := List.self_eq_append_right.mp herrors
    rw [hnone]

/-- Every unit becomes a statement or costs a problem, in the order of the units. -/
theorem exists_outcomes (xs : List Sentence)
    (hxs : ∀ x ∈ xs, ∀ part ∈ x.slices, part.IsPartOf s) (hleads : ∀ x ∈ xs, x.IsLed)
    (σ : Session) :
    ∃ outcomes, List.Forall₂ (Yields g σ.options σ.depth) xs outcomes ∧
      ((sentences g (reply g (block g)) xs).run σ).1 = outcomes.filterMap Outcome.node? ∧
      ((sentences g (reply g (block g)) xs).run σ).2.errors.toList =
        σ.errors.toList ++ outcomes.flatMap Outcome.problems := by
  induction xs generalizing σ with
  | nil => exact ⟨[], .nil, rfl, (List.append_nil _).symm⟩
  | cons x xs ih =>
    obtain ⟨⟨inner, result⟩, τ, hrun, hoptions, hdepth, herrors, hyields⟩ :=
      exists_yields (g := g) (hxs x (List.mem_cons_self ..)) (hleads x (List.mem_cons_self ..)) σ
    have hrest := ih (fun y hy => hxs y (List.mem_cons_of_mem x hy))
      (fun y hy => hleads y (List.mem_cons_of_mem x hy))
    rw [sentences_cons_run, hrun]
    cases result with
    | ok st =>
      obtain ⟨outcomes, hall, hnodes, hproblems⟩ := hrest τ
      rw [hoptions, hdepth] at hall
      refine ⟨⟨inner, .ok st⟩ :: outcomes, .cons hyields hall, ?_, ?_⟩
      · exact congrArg (st :: ·) hnodes
      · rw [List.flatMap_cons, ← List.append_assoc, Outcome.problems, Outcome.own?,
          Option.toList_none, List.append_nil, ← herrors]
        exact hproblems
    | error p =>
      -- The problem of the unit is reported before the next unit is read.
      have hreported : (τ.report p).errors.toList = τ.errors.toList ++ [p] := Array.toList_push
      obtain ⟨outcomes, hall, hnodes, hproblems⟩ := hrest (τ.report p)
      rw [show (τ.report p).options = σ.options from hoptions,
        show (τ.report p).depth = σ.depth from hdepth] at hall
      refine ⟨⟨inner, .error p⟩ :: outcomes, .cons hyields hall, hnodes, ?_⟩
      rw [List.flatMap_cons, ← List.append_assoc, Outcome.problems, Outcome.own?,
        Option.toList_some, ← List.append_assoc, ← herrors, ← hreported]
      exact hproblems

theorem exists_of_mem_units {options : Options} {depth : Nat} {xs : List Sentence}
    {outcomes : List Outcome} (h : List.Forall₂ (Yields g options depth) xs outcomes)
    {x : Sentence} (hx : x ∈ xs) : ∃ o ∈ outcomes, Yields g options depth x o := by
  induction h with
  | nil => cases hx
  | cons hyields _ ih =>
    rcases List.mem_cons.mp hx with rfl | hlater
    · exact ⟨_, List.mem_cons_self .., hyields⟩
    · obtain ⟨o, ho, hyields'⟩ := ih hlater
      exact ⟨o, List.mem_cons_of_mem _ ho, hyields'⟩

/-- Where no unit has a problem, every unit is a statement. -/
theorem exists_ok_of_problems_eq_nil {outcomes : List Outcome}
    (h : outcomes.flatMap Outcome.problems = []) :
    (outcomes.filterMap Outcome.node?).length = outcomes.length ∧
      ∀ o ∈ outcomes, ∃ st, o.result = .ok st := by
  induction outcomes with
  | nil => exact ⟨rfl, fun o ho => by cases ho⟩
  | cons o outcomes ih =>
    rw [List.flatMap_cons, List.append_eq_nil_iff, Outcome.problems, List.append_eq_nil_iff] at h
    obtain ⟨⟨-, hown⟩, hrest⟩ := h
    obtain ⟨hlength, hall⟩ := ih hrest
    obtain ⟨inner, result⟩ := o
    cases result with
    | error p => cases hown
    | ok st =>
      refine ⟨congrArg (· + 1) hlength, ?_⟩
      intro o ho
      rcases List.mem_cons.mp ho with rfl | ho
      · exact ⟨st, rfl⟩
      · exact hall o ho

/-- The units of a block begin with a token, unless they are broken. -/
theorem isLed_of_mem_ofBlock {strict : Bool} {x : Sentence} (hx : x ∈ Sentence.ofBlock strict s) :
    x.IsLed := by
  rcases (Sentence.units_ofBlock strict s).exists_of_mem hx with hbroken | ⟨r, hr, hmem⟩
  · exact .inl hbroken
  · obtain ⟨t, ts, htokens, -⟩ := Segment.exists_of_statement_mem_divide hmem
    refine .inr ⟨t, ?_⟩
    rw [Sentence.lead?, hr, Option.bind_some, Slice.head?, htokens, List.head?_cons]

/-- The statements and the problems of a block are those of its units, in their order. -/
theorem outcomes_of_block (g : Grammar) (s : Slice) (σ : Session) :
    ∃ outcomes,
      List.Forall₂ (Yields g σ.options σ.depth) (Sentence.ofBlock σ.options.requireTerminators s)
        outcomes ∧
      ((block g s).run σ).1 = outcomes.filterMap Outcome.node? ∧
      ((block g s).run σ).2.errors.toList =
        σ.errors.toList ++ outcomes.flatMap Outcome.problems := by
  obtain ⟨outcomes, hall, hnodes, hproblems⟩ := exists_outcomes (g := g) (s := s)
    (Sentence.ofBlock σ.options.requireTerminators s)
    (fun x hx part hpart => Sentence.isPartOf_of_mem_ofBlock hx hpart)
    (fun x hx => isLed_of_mem_ofBlock hx)
    (σ.opened (Segment.divide σ.options.requireTerminators s))
  rw [← block_run] at hnodes hproblems
  rw [options_opened, depth_opened] at hall
  rw [errors_opened] at hproblems
  exact ⟨outcomes, hall, hnodes, hproblems⟩

theorem units_iff_eq_ofBlock (strict : Bool) (s : Slice) (xs : List Sentence) :
    Sentence.Units (Segment.divide strict s).segments xs ↔ xs = Sentence.ofBlock strict s := by
  constructor
  · intro hxs
    exact hxs.unique (Sentence.units_ofBlock strict s)
  · rintro rfl
    exact Sentence.units_ofBlock strict s

/-- No statement of a block disappears. The block has one list of units, and of each of them comes a
statement in the place of its first token, or a problem of its own behind the problems from inside it;
of a broken segment comes its problem alone. The statements and the problems of the block are those of
the units, in their order. So without a problem every unit is a statement and no segment is broken. -/
theorem block_account (g : Grammar) (s : Slice) (σ : Session) :
    ∃ units outcomes,
      (∀ xs, Sentence.Units (Segment.divide σ.options.requireTerminators s).segments xs ↔
        xs = units) ∧
      List.Forall₂ (Yields g σ.options σ.depth) units outcomes ∧
      ((block g s).run σ).1 = outcomes.filterMap Outcome.node? ∧
      ((block g s).run σ).2.errors.toList =
        σ.errors.toList ++ outcomes.flatMap Outcome.problems ∧
      (((block g s).run σ).2.errors = σ.errors →
        ((block g s).run σ).1.length = units.length ∧
          ∀ segment ∈ (Segment.divide σ.options.requireTerminators s).segments,
            segment.isStatement = true) := by
  obtain ⟨outcomes, hall, hnodes, hproblems⟩ := outcomes_of_block g s σ
  refine ⟨_, outcomes, units_iff_eq_ofBlock _ s, hall, hnodes, hproblems, ?_⟩
  intro hclean
  rw [hclean, List.self_eq_append_right] at hproblems
  obtain ⟨hlength, hok⟩ := exists_ok_of_problems_eq_nil hproblems
  refine ⟨?_, ?_⟩
  · rw [hnodes, hlength, hall.length_eq]
  · intro segment hsegment
    cases segment with
    | statement r => rfl
    | broken r p =>
      -- A broken segment is a unit, and its problem would have been reported.
      have hunits := Sentence.units_ofBlock σ.options.requireTerminators s
      obtain ⟨o, ho, hyields⟩ := exists_of_mem_units hall (hunits.broken_mem hsegment)
      obtain ⟨st, hst⟩ := hok o ho
      rw [hyields.broken r p rfl] at hst
      cases hst

end account

end Parse

end Prose
