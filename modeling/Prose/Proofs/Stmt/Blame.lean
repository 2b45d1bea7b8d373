import Prose.Proofs.Expr.Blame
import Prose.Proofs.Slice.Cut
import Prose.Proofs.Stmt.Place
import Prose.Proofs.Stmt.Questions

namespace Prose.Stmt

open Inquiry Slice

def Question.IsCitedIn (s : Slice) : Question → Prop
  | reading _ => True
  | block _ whole _ => s.Cites whole
  | unusedValue .. => True

abbrev PointsInto (s : Slice) {α : Type} (x : Query α) : Prop :=
  Blames (Question.IsCitedIn s) (fun p => p.Concerns s) x

variable {s part : Slice} {whole : List Token} {α : Type}

theorem Question.IsCitedIn.of_isPartOf {q : Question} (h : q.IsCitedIn part)
    (hpart : part.IsPartOf s) : q.IsCitedIn s := by
  cases q with
  | reading q => trivial
  | block origin whole inner => exact Cites.of_isPartOf h hpart
  | unusedValue e shown => trivial

section parts

theorem pointsInto_ofExpr {x : Expr.Query α} (h : Expr.PointsInto s x) : PointsInto s (ofExpr x) :=
  blames_translate (fun part _ => blames_question (q := Question.reading part) trivial) h

theorem pointsInto_required (origin name : String) (hwhole : s.Cites whole)
    (hpart : part.IsPartOf s) : PointsInto s (required origin name part whole) :=
  pointsInto_ofExpr (Expr.pointsInto_required hwhole hpart origin name)

theorem pointsInto_readBlock (origin : String) (hwhole : s.Cites whole) (inner : Slice) :
    PointsInto s (readBlock origin whole inner) :=
  blames_question (q := Question.block origin whole inner) hwhole

theorem pointsInto_requiredBody (origin : String) (hwhole : s.Cites whole) (part : Slice) :
    PointsInto s (requiredBody origin part whole) := by
  unfold requiredBody
  simp only
  split
  · exact .fail (hwhole.concerns rfl)
  · exact pointsInto_readBlock origin hwhole _

theorem pointsInto_requiredBlock (origin : String) (hwhole : s.Cites whole)
    (hpart : part.IsPartOf s) : PointsInto s (requiredBlock origin part whole) := by
  unfold requiredBlock
  split
  · exact .fail (hwhole.concerns rfl)
  · have hcited : s.Cites part.tokens := (cites_of_isEmpty ‹_›).of_isPartOf hpart
    split
    · exact pointsInto_readBlock origin hcited _
    · exact .fail (hcited.concerns rfl)

theorem pointsInto_ofExcept {r : Except Problem α} (h : ∀ p, r = .error p → p.Concerns s) :
    PointsInto s (ofExcept r) := by
  cases r with
  | ok a => exact .done a
  | error p => exact .fail (h p rfl)

theorem concerns_of_requiredName {origin what : String} {p : Problem} (hwhole : s.Cites whole)
    (hpart : part.IsPartOf s) (h : requiredName origin what part whole = .error p) :
    p.Concerns s := by
  unfold requiredName at h
  split at h
  · cases h
    exact hwhole.concerns rfl
  · split at h
    · cases h
    · cases h
      exact ((cites_of_isEmpty ‹_›).of_isPartOf hpart).concerns rfl

theorem pointsInto_requiredName (origin what : String) (hwhole : s.Cites whole)
    (hpart : part.IsPartOf s) : PointsInto s (ofExcept (requiredName origin what part whole)) :=
  pointsInto_ofExcept fun _ => concerns_of_requiredName hwhole hpart

/-- The names of a list fail by one of them. -/
theorem exists_of_mapM_eq_error {β : Type} {f : α → Except Problem β} {as : List α} {p : Problem}
    (h : as.mapM f = .error p) : ∃ a ∈ as, f a = .error p := by
  induction as with
  | nil => cases h
  | cons a as ih =>
    rw [List.mapM_cons] at h
    match hf : f a with
    | .error q =>
      rw [hf] at h
      cases h
      exact ⟨a, List.mem_cons_self .., hf⟩
    | .ok b =>
      rw [hf] at h
      match hrest : as.mapM f with
      | .error q =>
        rw [hrest] at h
        cases h
        obtain ⟨a', ha', hfail⟩ := ih hrest
        exact ⟨a', List.mem_cons_of_mem a ha', hfail⟩
      | .ok bs =>
        rw [hrest] at h
        cases h

theorem concerns_of_requiredParams {origin : String} {p : Problem} (hwhole : s.Cites whole)
    (hpart : part.IsPartOf s) (h : requiredParams origin part whole = .error p) :
    p.Concerns s := by
  rw [requiredParams_eq] at h
  split at h
  · cases h
    exact hwhole.concerns rfl
  · obtain ⟨piece, hpiece, hfail⟩ := exists_of_mapM_eq_error h
    match hname : requiredName origin "a name" piece whole with
    | .error q =>
      rw [hname] at hfail
      cases hfail
      exact concerns_of_requiredName hwhole ((isPartOf_of_mem_split hpiece).trans hpart) hname
    | .ok name =>
      rw [hname] at hfail
      cases hfail

theorem pointsInto_optionalParams (origin noun : String) (help : Option String)
    (hwhole : s.Cites whole) (hpart : part.IsPartOf s) :
    PointsInto s (ofExcept (optionalParams origin noun help part whole)) := by
  refine pointsInto_ofExcept fun p h => ?_
  rw [optionalParams_eq] at h
  split at h
  · cases h
  · split at h
    · exact concerns_of_requiredParams hwhole ((isPartOf_drop part 1).trans hpart) h
    · cases h
      exact ((cites_of_isEmpty ‹_›).of_isPartOf hpart).concerns rfl

end parts

section conditional

/-- No clause is empty. -/
theorem length_pos_of_mem_clausesFrom {clause : Slice} {start : Nat} {is : List Nat}
    (hstart : start < s.length) (hordered : is.Pairwise (· < ·)) (his : ∀ i ∈ is, start ≤ i)
    (h : clause ∈ clausesFrom s start is) : 0 < clause.length := by
  induction is generalizing start with
  | nil =>
    rw [clausesFrom, List.mem_singleton] at h
    rw [h, length_drop]
    omega
  | cons i is ih =>
    obtain ⟨hi, hordered⟩ := List.pairwise_cons.mp hordered
    obtain ⟨hle, his⟩ := List.forall_mem_cons.mp his
    rw [clausesFrom] at h
    split at h
    · rename_i t ht
      have hnext : i + 1 < s.length := (List.getElem?_eq_some_iff.mp ht).1
      split at h
      -- The clause ends with the block end, and the next one begins behind it.
      · rcases List.mem_cons.mp h with rfl | h
        · rw [length_extract]
          omega
        · exact ih hnext hordered hi h
      · exact ih hstart hordered his h
    · exact ih hstart hordered his h

theorem length_pos_of_mem_clauses {clause : Slice} (hs : 0 < s.length) (h : clause ∈ clauses s) :
    0 < clause.length := by
  rw [clauses_eq_clausesFrom] at h
  exact length_pos_of_mem_clausesFrom hs (s.pairwise_allOf .blockEnd) (fun i _ => Nat.zero_le i) h

theorem pointsInto_readClause {clause : Slice} (h : 0 < clause.length) :
    PointsInto clause (readClause clause) := by
  rw [readClause_eq]
  split
  · exact .fail ((cites_self h).concerns rfl)
  · refine blames_bind (pointsInto_ofExpr ?_) fun condition => ?_
    · exact Expr.pointsInto_requiredOr (isPartOf_extract clause _ _) ((cites_self h).concerns rfl)
        fun hne => (cites_of_isEmpty hne).concerns rfl
    · exact blames_bind (pointsInto_requiredBody _ (cites_self h) _) fun body => .done _

abbrev PointsIntoOne (slices : List Slice) (x : Query α) : Prop :=
  Blames (fun q => ∃ s ∈ slices, q.IsCitedIn s) (fun p => ∃ s ∈ slices, p.Concerns s) x

theorem pointsIntoOne {slices : List Slice} (hs : s ∈ slices) {x : Query α}
    (hx : PointsInto s x) : PointsIntoOne slices x :=
  hx.mono (fun _ hq => ⟨s, hs, hq⟩) fun _ hp => ⟨s, hs, hp⟩

theorem pointsIntoOne_readFurtherClauses {clauses : List Slice}
    (h : ∀ clause ∈ clauses, 0 < clause.length) :
    PointsIntoOne clauses (readFurtherClauses clauses) := by
  induction clauses with
  | nil => constructor
  | cons clause rest ih =>
    obtain ⟨hpos, hrest⟩ := List.forall_mem_cons.mp h
    have hmem : clause ∈ clause :: rest := List.mem_cons_self ..
    have hlater : PointsIntoOne (clause :: rest) (readFurtherClauses rest) :=
      (ih hrest).mono (fun _ ⟨c, hc, hq⟩ => ⟨c, List.mem_cons_of_mem clause hc, hq⟩)
        fun _ ⟨c, hc, hp⟩ => ⟨c, List.mem_cons_of_mem clause hc, hp⟩
    rw [readFurtherClauses]
    split
    · refine blames_bind (pointsIntoOne hmem (pointsInto_readClause hpos)) fun p => ?_
      exact blames_bind hlater fun p => .done _
    · split
      · split
        · refine blames_bind (pointsIntoOne hmem ?_) fun body => .done _
          exact pointsInto_requiredBody _ (cites_self hpos) _
        · exact .fail ⟨clause, hmem, (cites_self hpos).concerns rfl⟩
      · exact .fail ⟨clause, hmem, (cites_self hpos).concerns rfl⟩

/-- The problems of a conditional point into one slice of its chain. -/
theorem pointsIntoOne_readConditional {chain : List Slice} (hne : chain ≠ [])
    (h : ∀ s ∈ chain, 0 < s.length) : PointsIntoOne chain (readConditional chain) := by
  have hclauses (clause : Slice) (hc : clause ∈ chain.flatMap clauses) :
      ∃ s ∈ chain, clause.IsPartOf s ∧ 0 < clause.length := by
    obtain ⟨s, hs, hmem⟩ := List.mem_flatMap.mp hc
    exact ⟨s, hs, isPartOf_of_mem_clauses hmem, length_pos_of_mem_clauses (h s hs) hmem⟩
  have hall : PointsIntoOne (chain.flatMap clauses) (readConditional chain) := by
    rw [readConditional_eq]
    generalize hchain : chain.flatMap clauses = all at hclauses ⊢
    split
    -- Every slice of the chain has a clause.
    · obtain ⟨s, rest, rfl⟩ := List.exists_cons_of_ne_nil hne
      obtain ⟨first, clauses', hfirst, -⟩ := exists_clausesFrom_zero s (s.allOf .blockEnd)
      rw [List.flatMap_cons, clauses_eq_clausesFrom, hfirst] at hchain
      cases hchain
    · rename_i first rest
      have hpos (clause : Slice) (hc : clause ∈ first :: rest) : 0 < clause.length := by
        obtain ⟨s, -, -, hpos⟩ := hclauses clause hc
        exact hpos
      have hmem : first ∈ first :: rest := List.mem_cons_self ..
      split
      · refine blames_bind (pointsIntoOne hmem (pointsInto_readClause (hpos first hmem)))
          fun p => ?_
        refine blames_bind ?_ fun p => .done _
        refine (pointsIntoOne_readFurtherClauses fun c hc =>
          hpos c (List.mem_cons_of_mem first hc)).mono ?_ ?_
        · rintro q ⟨c, hc, hq⟩
          exact ⟨c, List.mem_cons_of_mem first hc, hq⟩
        · rintro p ⟨c, hc, hp⟩
          exact ⟨c, List.mem_cons_of_mem first hc, hp⟩
      · exact .fail ⟨first, hmem, (cites_self (hpos first hmem)).concerns rfl⟩
  refine hall.mono ?_ ?_
  · rintro q ⟨clause, hc, hq⟩
    obtain ⟨s, hs, hpart, -⟩ := hclauses clause hc
    exact ⟨s, hs, hq.of_isPartOf hpart⟩
  · rintro p ⟨clause, hc, hp⟩
    obtain ⟨s, hs, hpart, -⟩ := hclauses clause hc
    exact ⟨s, hs, hp.of_isPartOf hpart⟩

end conditional

section forms

variable (s : Slice) (hs : 0 < s.length)
include hs

theorem pointsInto_readBlockStatement : PointsInto s (readBlockStatement s) := by
  rw [readBlockStatement_eq]
  split
  · constructor
  · exact blames_bind (pointsInto_readBlock _ (cites_self hs) _) fun body => .done _

theorem pointsInto_readEntryPoint : PointsInto s (readEntryPoint s) := by
  rw [readEntryPoint_eq]
  simp only
  split
  · constructor
  · rename_i asAt has
    split
    -- Something stands between the lead and `as`.
    · have hfound := (first_of_ite s has).2
      have hlt := lt_length_of_first hfound
      obtain ⟨hle, -⟩ := getElem?_of_first hfound
      refine .fail (((cites_self ?_).of_isPartOf (isPartOf_extract s 1 asAt)).concerns rfl)
      rw [length_extract]
      omega
    · exact blames_bind (pointsInto_requiredBody _ (cites_self hs) _) fun body => .done _

theorem pointsInto_readFunctionDefinition : PointsInto s (readFunctionDefinition s) := by
  rw [readFunctionDefinition_eq]
  simp only
  split
  · constructor
  · have hheader := isPartOf_extract s 1
    refine blames_bind (pointsInto_requiredName _ _ (cites_self hs)
      ((isPartOf_take _ 1).trans (hheader _))) fun name => ?_
    refine blames_bind (pointsInto_optionalParams _ _ _ (cites_self hs)
      ((isPartOf_drop _ 1).trans (hheader _))) fun params => ?_
    exact blames_bind (pointsInto_requiredBody _ (cites_self hs) _) fun body => .done _

theorem pointsInto_readStructureDefinition : PointsInto s (readStructureDefinition s) := by
  have hbody := isPartOf_withoutTerminator s
  rw [readStructureDefinition_eq]
  simp only
  split
  · refine blames_bind (pointsInto_requiredName _ _ (cites_self hs)
      ((isPartOf_extract _ 1 2).trans hbody)) fun name => ?_
    exact blames_bind (pointsInto_optionalParams _ _ _ (cites_self hs)
      ((isPartOf_drop _ 2).trans hbody)) fun fields => .done _
  · constructor

theorem pointsInto_readIf : PointsInto s (readIf s) := by
  unfold readIf
  split
  · refine blames_map _ ((pointsIntoOne_readConditional (List.cons_ne_nil s [])
      (List.forall_mem_singleton.mpr hs)).mono ?_ ?_)
    · rintro q ⟨r, hr, hq⟩
      exact List.mem_singleton.mp hr ▸ hq
    · rintro p ⟨r, hr, hp⟩
      exact List.mem_singleton.mp hr ▸ hp
  · constructor

theorem pointsInto_readConditionLoop (lead : Keyword) (origin : String)
    (loop : Position → Expr → List Stmt → Stmt) :
    PointsInto s (readConditionLoop lead origin loop s) := by
  rw [readConditionLoop_eq]
  split
  · constructor
  · refine blames_bind (pointsInto_required _ _ (cites_self hs) (isPartOf_extract s _ _))
      fun condition => ?_
    exact blames_bind (pointsInto_requiredBody _ (cites_self hs) _) fun body => .done _

theorem pointsInto_readDoLoop : PointsInto s (readDoLoop s) := by
  have hbody := isPartOf_withoutTerminator s
  rw [readDoLoop_eq]
  simp only
  split
  · split
    · exact .fail ((cites_self hs).concerns rfl)
    · split
      · refine blames_bind (pointsInto_required _ _ (cites_self hs) ?_) fun condition => ?_
        · exact (isPartOf_drop _ 1).trans ((isPartOf_drop _ _).trans hbody)
        · exact blames_bind (pointsInto_readBlock _ (cites_self hs) _) fun block => .done _
      · constructor
  · constructor

theorem pointsInto_readForEach : PointsInto s (readForEach s) := by
  rw [readForEach_eq]
  simp only
  split
  · constructor
  · split
    · constructor
    · refine blames_bind (pointsInto_requiredName _ _ (cites_self hs) (isPartOf_extract s _ _))
        fun name => ?_
      refine blames_bind (pointsInto_required _ _ (cites_self hs) (isPartOf_extract s _ _))
        fun iterable => ?_
      exact blames_bind (pointsInto_requiredBody _ (cites_self hs) _) fun body => .done _

theorem pointsInto_readLoopStep (origin : String) (byAt : Option Nat) (stop : Nat) (name : String) :
    PointsInto s (readLoopStep origin s byAt stop name) := by
  unfold readLoopStep
  split
  · constructor
  · exact blames_map _ (pointsInto_required _ _ (cites_self hs) (isPartOf_extract s _ _))

theorem pointsInto_readForRange : PointsInto s (readForRange s) := by
  have hrequired (origin name : String) (i j : Nat) :
      PointsInto s (required origin name (s.extract i j) s.tokens) :=
    pointsInto_required _ _ (cites_self hs) (isPartOf_extract s i j)
  rw [readForRange_eq]
  simp only
  split
  · constructor
  · split
    · constructor
    · split
      · constructor
      · refine blames_bind (pointsInto_requiredName _ _ (cites_self hs) (isPartOf_extract s _ _))
          fun name => ?_
        refine blames_bind (hrequired _ _ _ _) fun start => ?_
        refine blames_bind (hrequired _ _ _ _) fun stop => ?_
        refine blames_bind (pointsInto_readLoopStep s hs _ _ _ _) fun step => ?_
        exact blames_bind (pointsInto_requiredBody _ (cites_self hs) _) fun body => .done _

theorem pointsInto_readRepeat : PointsInto s (readRepeat s) := by
  rw [readRepeat_eq]
  simp only
  split
  · constructor
  · refine blames_bind (pointsInto_required _ _ (cites_self hs) (isPartOf_extract s _ _))
      fun count => ?_
    exact blames_bind (pointsInto_requiredBody _ (cites_self hs) _) fun body => .done _

theorem pointsInto_readTry : PointsInto s (readTry s) := by
  have hall := isPartOf_withoutTerminator s
  rw [readTry_eq]
  simp only
  split
  · constructor
  · refine blames_bind (pointsInto_requiredBlock _ (cites_self hs)
      ((isPartOf_extract _ _ _).trans hall)) fun body => ?_
    refine blames_bind (pointsInto_requiredBlock _ (cites_self hs)
      ((isPartOf_handlerName _).trans ((isPartOf_extract _ _ _).trans hall))) fun handler => ?_
    split
    · refine blames_bind (blames_map _ (pointsInto_requiredBlock _ (cites_self hs)
        ((isPartOf_drop _ _).trans hall))) fun cleanup => .done _
    · exact .done _

/-- What was read and cannot be set is there to be pointed at. -/
theorem pointsInto_readAssignment : PointsInto s (readAssignment s) := by
  have hbody := isPartOf_withoutTerminator s
  rw [readAssignment_eq]
  simp only
  split
  · constructor
  · rename_i equalAt _
    have hpart : (s.withoutTerminator.extract 1 equalAt).IsPartOf s :=
      (isPartOf_extract _ _ _).trans hbody
    have hvalue (origin name : String) (n : Nat) :
        PointsInto s (required origin name (s.withoutTerminator.drop n) s.tokens) :=
      pointsInto_required _ _ (cites_self hs) ((isPartOf_drop _ _).trans hbody)
    by_cases hempty : (s.withoutTerminator.extract 1 equalAt).isEmpty = true
    · rw [required, Expr.required, Expr.requiredOr, if_pos hempty]
      exact .fail ((cites_self hs).concerns rfl)
    · refine blames_bind (pointsInto_required _ _ (cites_self hs) hpart) fun target => ?_
      split
      · exact blames_bind (hvalue _ _ _) fun value => .done _
      · exact blames_bind (hvalue _ _ _) fun value => .done _
      · exact .fail (((cites_of_isEmpty hempty).of_isPartOf hpart).concerns rfl)

theorem pointsInto_readDeclaration : PointsInto s (readDeclaration s) := by
  have hbody := isPartOf_withoutTerminator s
  rw [readDeclaration_eq]
  simp only
  split
  · constructor
  · refine blames_bind (pointsInto_requiredName _ _ (cites_self hs)
      ((isPartOf_extract _ _ _).trans hbody)) fun name => ?_
    exact blames_bind (pointsInto_required _ _ (cites_self hs) ((isPartOf_drop _ _).trans hbody))
      fun value => .done _

theorem pointsInto_readIncrement : PointsInto s (readIncrement s) := by
  have hbody := isPartOf_withoutTerminator s
  rw [readIncrement_eq]
  simp only
  split
  · refine blames_bind (pointsInto_requiredName _ _ (cites_self hs)
      ((isPartOf_extract _ _ _).trans hbody)) fun name => ?_
    split
    · exact blames_bind (blames_map _ (pointsInto_required _ _ (cites_self hs)
        ((isPartOf_drop _ _).trans hbody))) fun amount => .done _
    · exact .done _
  · constructor

theorem pointsInto_readSwap : PointsInto s (readSwap s) := by
  have hbody := isPartOf_withoutTerminator s
  rw [readSwap_eq]
  simp only
  split
  · constructor
  · refine blames_bind (pointsInto_requiredName _ _ (cites_self hs)
      ((isPartOf_extract _ _ _).trans hbody)) fun left => ?_
    exact blames_bind (pointsInto_requiredName _ _ (cites_self hs)
      ((isPartOf_drop _ _).trans hbody)) fun right => .done _

theorem pointsInto_readPair (lead separator : Keyword) (origin first second : String)
    (pair : Position → Expr → Expr → Stmt) :
    PointsInto s (readPair lead separator origin first second pair s) := by
  have hbody := isPartOf_withoutTerminator s
  rw [readPair_eq]
  simp only
  split
  · constructor
  · refine blames_bind (pointsInto_required _ _ (cites_self hs)
      ((isPartOf_extract _ _ _).trans hbody)) fun value => ?_
    exact blames_bind (pointsInto_required _ _ (cites_self hs) ((isPartOf_drop _ _).trans hbody))
      fun list => .done _

theorem pointsInto_readValue (leads : List Keyword) (origin : String)
    (statement : Position → Expr → Stmt) : PointsInto s (readValue leads origin statement s) := by
  rw [readValue_eq]
  simp only
  split
  · exact blames_bind (pointsInto_required _ _ (cites_self hs)
      ((isPartOf_drop _ _).trans (isPartOf_withoutTerminator s))) fun value => .done _
  · constructor

theorem pointsInto_readReturn : PointsInto s (readReturn s) := by
  rw [readReturn_eq]
  simp only
  split
  · split
    · exact .done _
    · exact blames_bind (pointsInto_required _ _ (cites_self hs)
        ((isPartOf_drop _ _).trans (isPartOf_withoutTerminator s))) fun value => .done _
  · constructor

omit hs in
theorem pointsInto_readBare (lead : Keyword) (origin : String) (statement : Position → Stmt) :
    PointsInto s (readBare lead origin statement s) := by
  rw [readBare_eq]
  simp only
  split
  · split
    · exact .fail (((cites_drop ‹_›).of_isPartOf (isPartOf_withoutTerminator s)).concerns rfl)
    · exact .done _
  · constructor

theorem pointsInto_readImport : PointsInto s (readImport s) := by
  have hrest : (s.withoutTerminator.drop 1).IsPartOf s :=
    (isPartOf_drop _ 1).trans (isPartOf_withoutTerminator s)
  have hcited (h : (s.withoutTerminator.drop 1).tokens ≠ []) :
      s.Cites (s.withoutTerminator.drop 1).tokens := Cites.of_isPartOf ⟨h, List.infix_rfl⟩ hrest
  rw [readImport_eq]
  simp only
  split
  · split
    · exact .fail ((cites_self hs).concerns rfl)
    · rename_i t ht
      have hne : (s.withoutTerminator.drop 1).tokens ≠ [] := by
        rw [ht]
        exact List.cons_ne_nil _ _
      split
      · split
        · exact .done _
        · refine .fail (Cites.concerns ?_ rfl)
          change s.Cites [t]
          rw [← ht]
          exact hcited hne
      · exact .fail ((hcited hne).concerns rfl)
    · rename_i hnil _
      exact .fail ((hcited hnil).concerns rfl)
  · constructor

theorem pointsInto_readReadInto : PointsInto s (readReadInto s) := by
  rw [readReadInto_eq]
  simp only
  split
  · exact blames_bind (pointsInto_requiredName _ _ (cites_self hs)
      ((isPartOf_drop _ _).trans (isPartOf_withoutTerminator s))) fun name => .done _
  · constructor

omit hs in
theorem pointsInto_readExpressionStatement : PointsInto s (readExpressionStatement s) := by
  rw [readExpressionStatement_eq]
  split
  · constructor
  refine blames_bind (pointsInto_ofExpr (Expr.pointsInto_read _)) fun r => ?_
  split
  · constructor
  · simp only
    split
    · exact .done _
    · exact blames_bind (blames_question trivial) fun _ => .done _

/-- The problems of every form point into the slice that it reads. -/
theorem pointsInto_form (f : Form) : PointsInto s (f.read s) := by
  cases f with
  | block => exact pointsInto_readBlockStatement s hs
  | entryPoint => exact pointsInto_readEntryPoint s hs
  | functionDefinition => exact pointsInto_readFunctionDefinition s hs
  | structureDefinition => exact pointsInto_readStructureDefinition s hs
  | conditional => exact pointsInto_readIf s hs
  | whileLoop => exact pointsInto_readConditionLoop s hs _ _ _
  | untilLoop => exact pointsInto_readConditionLoop s hs _ _ _
  | doLoop => exact pointsInto_readDoLoop s hs
  | forEach => exact pointsInto_readForEach s hs
  | forRange => exact pointsInto_readForRange s hs
  | repeatLoop => exact pointsInto_readRepeat s hs
  | tryCatch => exact pointsInto_readTry s hs
  | assignment => exact pointsInto_readAssignment s hs
  | declaration => exact pointsInto_readDeclaration s hs
  | increment => exact pointsInto_readIncrement s hs
  | print => exact pointsInto_readValue s hs _ _ _
  | returning => exact pointsInto_readReturn s hs
  | breaking => exact pointsInto_readBare s _ _ _
  | continuing => exact pointsInto_readBare s _ _ _
  | exiting => exact pointsInto_readBare s _ _ _
  | throwing => exact pointsInto_readValue s hs _ _ _
  | assertion => exact pointsInto_readValue s hs _ _ _
  | importing => exact pointsInto_readImport s hs
  | listAdd => exact pointsInto_readPair s hs _ _ _ _ _ _
  | listRemove => exact pointsInto_readPair s hs _ _ _ _ _ _
  | swap => exact pointsInto_readSwap s hs
  | readInto => exact pointsInto_readReadInto s hs
  | expression => exact pointsInto_readExpressionStatement s

end forms

end Prose.Stmt
