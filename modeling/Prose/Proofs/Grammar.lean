import Mathlib.Data.List.Sort
import Prose.Grammar

namespace Prose.Grammar

/-- The table has the given rules, from high to low priority. -/
structure IsTable {ρ : Type} (priority : ρ → Nat) (rules table : List ρ) : Prop where
  perm : table.Perm rules
  decreasing : table.Pairwise fun a b => priority b < priority a

/-- No priority above that of `a` is the priority of several rules. The rules with the priority of `a` are
`a`, `b` and maybe more, in this order. -/
structure Clashes {ρ : Type} (priority : ρ → Nat) (rules : List ρ) (a b : ρ) : Prop where
  first : ∃ rest, rules.filter (fun c => priority c = priority a) = a :: b :: rest
  highest : ∀ p, priority a < p → (rules.filter fun c => priority c = p).length ≤ 1

section tables

variable {ρ : Type} {priority : ρ → Nat} {rules table : List ρ} {a b : ρ}

theorem IsTable.eq {table' : List ρ} (h : IsTable priority rules table)
    (h' : IsTable priority rules table') : table = table' := by
  refine List.Perm.eq_of_pairwise ?_ h.decreasing h'.decreasing (h.perm.trans h'.perm.symm)
  intro a b _ _ hlt hlt'
  exact absurd hlt (Nat.lt_asymm hlt')

theorem IsTable.of_perm {rules' : List ρ} (h : IsTable priority rules table)
    (hperm : rules'.Perm rules) : IsTable priority rules' table :=
  ⟨h.perm.trans hperm.symm, h.decreasing⟩

theorem IsTable.nodup (h : IsTable priority rules table) : (rules.map priority).Nodup := by
  have htable : (table.map priority).Nodup := by
    rw [List.Nodup, List.pairwise_map]
    exact h.decreasing.imp fun hlt => Nat.ne_of_gt hlt
  exact (h.perm.map priority).nodup_iff.mp htable

theorem Clashes.eq {a' b' : ρ} (h : Clashes priority rules a b) (h' : Clashes priority rules a' b') :
    (a, b) = (a', b') := by
  obtain ⟨⟨rest, hrest⟩, hhighest⟩ := h
  obtain ⟨⟨rest', hrest'⟩, hhighest'⟩ := h'
  rcases Nat.lt_trichotomy (priority a) (priority a') with hlt | heq | hlt
  · have hone := hhighest _ hlt
    rw [hrest'] at hone
    simp at hone
  · rw [heq, hrest'] at hrest
    cases hrest
    rfl
  · have hone := hhighest' _ hlt
    rw [hrest] at hone
    simp at hone

/-- The clash depends on the order of the rules of one priority only. -/
theorem clashes_congr (h : ∀ p, table.filter (fun c => priority c = p) =
    rules.filter fun c => priority c = p) : Clashes priority table a b ↔ Clashes priority rules a b := by
  constructor
  · rintro ⟨hfirst, hhighest⟩
    exact ⟨by rwa [h] at hfirst, fun p hp => by rw [← h]; exact hhighest p hp⟩
  · rintro ⟨hfirst, hhighest⟩
    exact ⟨by rwa [h], fun p hp => by rw [h]; exact hhighest p hp⟩

/-! Rules in order. -/

theorem ordered_eq_insertionSort (priority : ρ → Nat) (rules : List ρ) :
    ordered priority rules = rules.insertionSort fun a b => priority b ≤ priority a := by
  have hplace (a : ρ) (rules : List ρ) :
      place priority a rules = rules.orderedInsert (fun a b => priority b ≤ priority a) a := by
    induction rules with
    | nil => rfl
    | cons b rules ih => rw [place, List.orderedInsert_cons, ih]
  rw [ordered, List.insertionSort, funext fun a => funext (hplace a)]

theorem perm_ordered (priority : ρ → Nat) (rules : List ρ) : (ordered priority rules).Perm rules := by
  rw [ordered_eq_insertionSort]
  exact List.perm_insertionSort _ rules

theorem pairwise_ordered (priority : ρ → Nat) (rules : List ρ) :
    (ordered priority rules).Pairwise fun a b => priority b ≤ priority a := by
  have htotal : Std.Total fun a b : ρ => priority b ≤ priority a := ⟨fun a b => Nat.le_total _ _⟩
  have htrans : IsTrans ρ fun a b => priority b ≤ priority a := ⟨fun a b c h h' => Nat.le_trans h' h⟩
  rw [ordered_eq_insertionSort]
  exact List.pairwise_insertionSort _ rules

/-- A rule is put before those of its own priority and behind those of higher ones only. -/
theorem filter_place (a : ρ) (rules : List ρ) (p : Nat) :
    (place priority a rules).filter (fun c => priority c = p) =
      (a :: rules).filter fun c => priority c = p := by
  induction rules with
  | nil => rfl
  | cons b rules ih =>
    rw [place]
    split
    · rfl
    · rename_i hle
      by_cases hb : priority b = p
      · have ha : priority a ≠ p := by omega
        simp [ih, ha, hb]
      · simp [List.filter_cons, ih, hb]

/-- Rules of one priority keep their order. -/
theorem filter_ordered (rules : List ρ) (p : Nat) :
    (ordered priority rules).filter (fun c => priority c = p) =
      rules.filter fun c => priority c = p := by
  induction rules with
  | nil => rfl
  | cons a rules ih =>
    have hstep : ordered priority (a :: rules) = place priority a (ordered priority rules) := rfl
    rw [hstep, filter_place, List.filter_cons, List.filter_cons, ih]

/-! Neighbours with one priority. -/

/-- A rule above all others clashes with none of them. -/
theorem clashes_cons {x : ρ} (h : ∀ c ∈ rules, priority c < priority x) :
    Clashes priority (x :: rules) a b ↔ Clashes priority rules a b := by
  have hself : rules.filter (fun c => priority c = priority x) = [] := by
    rw [List.filter_eq_nil_iff]
    intro c hc
    rw [decide_eq_true_iff]
    exact Nat.ne_of_lt (h c hc)
  -- The new rule has a priority of its own, so at every other priority nothing changes.
  have hother {p : Nat} (hp : priority x ≠ p) :
      (x :: rules).filter (fun c => priority c = p) = rules.filter fun c => priority c = p :=
    List.filter_cons_of_neg (by simpa using hp)
  have hfilter : (x :: rules).filter (fun c => priority c = priority x) = [x] := by
    rw [List.filter_cons_of_pos (by simp), hself]
  constructor
  · rintro ⟨⟨rest, hrest⟩, hhighest⟩
    have hne : priority x ≠ priority a := by
      intro heq
      rw [← heq, hfilter] at hrest
      cases hrest
    rw [hother hne] at hrest
    refine ⟨⟨rest, hrest⟩, fun p hp => ?_⟩
    by_cases hxp : priority x = p
    · rw [← hxp, hself]
      exact Nat.zero_le 1
    · rw [← hother hxp]
      exact hhighest p hp
  · rintro ⟨⟨rest, hrest⟩, hhighest⟩
    have ha : a ∈ rules := List.mem_of_mem_filter (hrest ▸ List.mem_cons_self ..)
    refine ⟨⟨rest, by rw [hother (Nat.ne_of_gt (h a ha)), hrest]⟩, fun p hp => ?_⟩
    by_cases hxp : priority x = p
    · rw [← hxp, hfilter]
      exact Nat.le_refl 1
    · rw [hother hxp]
      exact hhighest p hp

/-- Two rules of the highest priority clash. -/
theorem clashes_of_eq {x y : ρ} (h : ∀ c ∈ rules, priority c ≤ priority x)
    (hxy : priority x = priority y) : Clashes priority (x :: y :: rules) x y := by
  refine ⟨⟨rules.filter fun c => priority c = priority x, ?_⟩, fun p hp => ?_⟩
  · simp [hxy]
  · have hnone : (x :: y :: rules).filter (fun c => priority c = p) = [] := by
      rw [List.filter_eq_nil_iff]
      intro c hc
      have hle : priority c ≤ priority x := by
        rcases List.mem_cons.mp hc with rfl | hc
        · exact Nat.le_refl _
        · rcases List.mem_cons.mp hc with rfl | hc
          · exact Nat.le_of_eq hxy.symm
          · exact h c hc
      rw [decide_eq_true_iff]
      omega
    rw [hnone]
    exact Nat.zero_le 1

theorem not_clashes_of_length_le_one (h : rules.length ≤ 1) : ¬ Clashes priority rules a b := by
  rintro ⟨⟨rest, hrest⟩, -⟩
  have hlength := List.length_filter_le (fun c => decide (priority c = priority a)) rules
  rw [hrest, List.length_cons, List.length_cons] at hlength
  omega

/-- Of rules in order the first neighbours with one priority are those that clash. -/
theorem clash?_eq_some_iff (h : rules.Pairwise fun a b => priority b ≤ priority a) :
    clash? priority rules = some (a, b) ↔ Clashes priority rules a b := by
  fun_induction clash? priority rules with
  | case1 x y rest hxy =>
    obtain ⟨hx, -⟩ := List.pairwise_cons.mp h
    have hclash : Clashes priority (x :: y :: rest) x y :=
      clashes_of_eq (fun c hc => hx c (List.mem_cons_of_mem y hc)) hxy
    constructor
    · intro heq
      cases heq
      exact hclash
    · intro hab
      exact congrArg some (hclash.eq hab)
  | case2 x y rest hxy ih =>
    obtain ⟨hx, hrest⟩ := List.pairwise_cons.mp h
    obtain ⟨hy, -⟩ := List.pairwise_cons.mp hrest
    have hxy' := hx y (List.mem_cons_self ..)
    -- The first rule is above all others, so it takes part in no clash.
    have hbelow : ∀ c ∈ y :: rest, priority c < priority x := by
      intro c hc
      rcases List.mem_cons.mp hc with rfl | hc
      · omega
      · have hcy := hy c hc
        omega
    rw [ih hrest, clashes_cons hbelow]
  | case3 rules hshort =>
    refine iff_of_false (fun heq => by cases heq) (not_clashes_of_length_le_one ?_)
    match rules with
    | [] => exact Nat.zero_le 1
    | [x] => exact Nat.le_refl 1
    | x :: y :: rest => exact (hshort x y rest rfl).elim

/-- Of rules in order no neighbours have one priority if and only if no two rules have. -/
theorem clash?_eq_none_iff (h : rules.Pairwise fun a b => priority b ≤ priority a) :
    clash? priority rules = none ↔ rules.Pairwise fun a b => priority b < priority a := by
  fun_induction clash? priority rules with
  | case1 x y rest hxy =>
    refine iff_of_false (fun heq => by cases heq) fun hdecreasing => ?_
    have hlt := (List.pairwise_cons.mp hdecreasing).1 y (List.mem_cons_self ..)
    omega
  | case2 x y rest hxy ih =>
    obtain ⟨hx, hrest⟩ := List.pairwise_cons.mp h
    obtain ⟨hy, -⟩ := List.pairwise_cons.mp hrest
    have hxy' := hx y (List.mem_cons_self ..)
    rw [ih hrest, List.pairwise_cons (a := x)]
    refine (and_iff_right fun c hc => ?_).symm
    rcases List.mem_cons.mp hc with rfl | hc
    · omega
    · have hcy := hy c hc
      omega
  | case3 rules hshort =>
    refine iff_of_true rfl ?_
    match rules with
    | [] => exact .nil
    | [x] => exact List.pairwise_singleton _ x
    | x :: y :: rest => exact (hshort x y rest rfl).elim

/-- There is a table of the rules if and only if their priorities are distinct. -/
theorem exists_isTable_iff : (∃ table, IsTable priority rules table) ↔ (rules.map priority).Nodup := by
  constructor
  · rintro ⟨table, h⟩
    exact h.nodup
  · intro h
    refine ⟨ordered priority rules, perm_ordered priority rules, ?_⟩
    have hnodup := ((perm_ordered priority rules).map priority).nodup_iff.mpr h
    rw [List.Nodup, List.pairwise_map] at hnodup
    refine (pairwise_ordered priority rules).imp₂ (fun a b hle hne => ?_) hnodup
    omega

end tables

section ranked

variable {ρ : Type} [Ranked ρ] {rules table : List ρ}

theorem arrange_eq_ok_iff (what : String) :
    arrange what rules = .ok table ↔ IsTable Ranked.priority rules table := by
  have hordered := pairwise_ordered Ranked.priority rules
  cases hclash : clash? Ranked.priority (ordered Ranked.priority rules) with
  | none =>
    simp only [arrange, hclash]
    have htable : IsTable Ranked.priority rules (ordered Ranked.priority rules) :=
      ⟨perm_ordered Ranked.priority rules, (clash?_eq_none_iff hordered).mp hclash⟩
    constructor
    · intro h
      cases h
      exact htable
    · intro h
      exact congrArg Except.ok (htable.eq h)
  | some pair =>
    simp only [arrange, hclash]
    refine iff_of_false (fun h => by cases h) fun h => ?_
    -- The priorities of a table are distinct, so that the rules in order are that table.
    have hdecreasing : (ordered Ranked.priority rules).Pairwise
        fun a b => Ranked.priority b < Ranked.priority a := by
      have hnodup : ((ordered Ranked.priority rules).map Ranked.priority).Nodup :=
        ((perm_ordered Ranked.priority rules).map Ranked.priority).nodup_iff.mpr h.nodup
      rw [List.Nodup, List.pairwise_map] at hnodup
      refine hordered.imp₂ (fun a b hle hne => ?_) hnodup
      omega
    rw [(clash?_eq_none_iff hordered).mpr hdecreasing] at hclash
    cases hclash

theorem arrange_eq_error_iff (what : String) {e : GrammarError} :
    arrange what rules = .error e ↔
      ∃ a b, Clashes Ranked.priority rules a b ∧
        e = ⟨what, Ranked.priority a, Ranked.name a, Ranked.name b⟩ := by
  have hclashes (a b : ρ) :
      clash? Ranked.priority (ordered Ranked.priority rules) = some (a, b) ↔
        Clashes Ranked.priority rules a b := by
    rw [clash?_eq_some_iff (pairwise_ordered Ranked.priority rules),
      clashes_congr (filter_ordered rules)]
  cases hclash : clash? Ranked.priority (ordered Ranked.priority rules) with
  | none =>
    simp only [arrange, hclash]
    refine iff_of_false (fun h => by cases h) ?_
    rintro ⟨a, b, hab, -⟩
    rw [(hclashes a b).mpr hab] at hclash
    cases hclash
  | some pair =>
    obtain ⟨a, b⟩ := pair
    simp only [arrange, hclash]
    have hab := (hclashes a b).mp hclash
    constructor
    · intro h
      cases h
      exact ⟨a, b, hab, rfl⟩
    · rintro ⟨a', b', hab', rfl⟩
      cases hab.eq hab'
      rfl

end ranked

section rules

variable {ρ σ : Type} [Ranked ρ] [Ranked σ] {expressions : List ρ} {statements : List σ}

theorem ofRules_eq_ok_iff {g : Tables ρ σ} :
    ofRules expressions statements = .ok g ↔
      IsTable Ranked.priority expressions g.expressions ∧
        IsTable Ranked.priority statements g.statements := by
  rw [← arrange_eq_ok_iff "expression", ← arrange_eq_ok_iff "statement", ofRules]
  cases arrange "expression" expressions with
  | error e => exact iff_of_false (fun h => by cases h) fun h => by cases h.1
  | ok table =>
    cases arrange "statement" statements with
    | error e => exact iff_of_false (fun h => by cases h) fun h => by cases h.2
    | ok table' =>
      constructor
      · intro h
        cases h
        exact ⟨rfl, rfl⟩
      · rintro ⟨h, h'⟩
        cases h
        cases h'
        rfl

theorem ofRules_eq_error_iff {e : GrammarError} :
    ofRules expressions statements = .error e ↔
      (∃ a b, Clashes Ranked.priority expressions a b ∧
          e = ⟨"expression", Ranked.priority a, Ranked.name a, Ranked.name b⟩) ∨
        (expressions.map Ranked.priority).Nodup ∧
          ∃ a b, Clashes Ranked.priority statements a b ∧
            e = ⟨"statement", Ranked.priority a, Ranked.name a, Ranked.name b⟩ := by
  rw [← arrange_eq_error_iff "expression", ← arrange_eq_error_iff "statement", ← exists_isTable_iff]
  simp only [← arrange_eq_ok_iff "expression", ofRules]
  -- The table of the expressions is arranged first, so its clash is the one that is reported.
  cases arrange "expression" expressions with
  | error e' =>
    constructor
    · intro h
      cases h
      exact .inl rfl
    · rintro (h | ⟨⟨table, h⟩, -⟩)
      · cases h
        rfl
      · cases h
  | ok table =>
    cases arrange "statement" statements with
    | error e' =>
      constructor
      · intro h
        cases h
        exact .inr ⟨⟨table, rfl⟩, rfl⟩
      · rintro (h | ⟨-, h⟩)
        · cases h
        · cases h
          rfl
    | ok table' =>
      refine iff_of_false (fun h => by cases h) ?_
      rintro (h | ⟨-, h⟩) <;> cases h

/-- Rules of any kind make tables if and only if no two of one table have the same priority. The tables
have the rules from high to low priority, whatever the order in which they are given. Otherwise the table
of expressions is named if two of its rules have the same priority, or else that of statements, with the
highest such priority and the first two rules that have it. -/
theorem ofRules_iff_isTable (expressions : List ρ) (statements : List σ) :
    ((∃ g, ofRules expressions statements = .ok g) ↔
        (expressions.map Ranked.priority).Nodup ∧ (statements.map Ranked.priority).Nodup) ∧
      (∀ g, ofRules expressions statements = .ok g ↔
        IsTable Ranked.priority expressions g.expressions ∧
          IsTable Ranked.priority statements g.statements) ∧
      (∀ expressions' statements' g, expressions'.Perm expressions → statements'.Perm statements →
        ofRules expressions statements = .ok g → ofRules expressions' statements' = .ok g) ∧
      ∀ e, ofRules expressions statements = .error e ↔
        (∃ a b, Clashes Ranked.priority expressions a b ∧
            e = ⟨"expression", Ranked.priority a, Ranked.name a, Ranked.name b⟩) ∨
          (expressions.map Ranked.priority).Nodup ∧
            ∃ a b, Clashes Ranked.priority statements a b ∧
              e = ⟨"statement", Ranked.priority a, Ranked.name a, Ranked.name b⟩ := by
  refine ⟨?_, fun g => ofRules_eq_ok_iff, ?_, fun e => ofRules_eq_error_iff⟩
  · simp only [ofRules_eq_ok_iff, ← exists_isTable_iff]
    constructor
    · rintro ⟨g, h, h'⟩
      exact ⟨⟨_, h⟩, _, h'⟩
    · rintro ⟨⟨table, h⟩, table', h'⟩
      exact ⟨⟨table, table'⟩, h, h'⟩
  · intro expressions' statements' g hperm hperm' h
    obtain ⟨htable, htable'⟩ := ofRules_eq_ok_iff.mp h
    exact ofRules_eq_ok_iff.mpr ⟨htable.of_perm hperm, htable'.of_perm hperm'⟩

/-- The same rules in two orders make one grammar. -/
theorem ofRules_iff_isTable_numberAndName :
    let number := Expr.Form.number.rule
    let name := Expr.Form.identifier.rule
    let none : List Stmt.Rule := []
    [name, number].Perm [number, name] ∧ none.Perm none ∧
      ofRules [number, name] none = .ok ⟨[number, name], none⟩ ∧
      ofRules [name, number] none = .ok ⟨[number, name], none⟩ := by
  intro number name none
  have hperm : [name, number].Perm [number, name] := .swap _ _ _
  have hgrammar : ofRules [number, name] none = .ok ⟨[number, name], none⟩ := by rfl
  obtain ⟨-, -, hreordered, -⟩ := ofRules_iff_isTable [number, name] none
  exact ⟨hperm, .refl _, hgrammar, hreordered _ _ _ hperm (.refl _) hgrammar⟩

example : ofRules (Expr.Form.all.map (·.rule)) (Stmt.Form.all.map (·.rule)) = .ok standard := by
  decide +kernel

instance : Ranked (String × Nat) := ⟨Prod.snd, Prod.fst⟩

example : ofRules [("one", 5), ("two", 5)] ([] : List (String × Nat)) =
    .error ⟨"expression", 5, "one", "two"⟩ := by
  rfl

end rules

end Prose.Grammar
