import Mathlib.Logic.Relation
import Prose.Proofs.Expr.Derivation
import Prose.Proofs.Expr.Height
import Prose.Proofs.Token.Layout
import Prose.Stmt

namespace Prose

inductive Node where
  | statement (st : Stmt)
  | expression (e : Expr)
  | param (p : Param)
  | branch (b : Branch)

def Branch.place : Branch → Position
  | mk p _ _ => p

namespace Node

def ofStmts (sts : List Stmt) : List Node :=
  sts.map statement

def place : Node → Position
  | statement st => st.position
  | expression e => e.position
  | param p => p.place
  | branch b => b.place

end Node

def Stmt.parts : Stmt → List Node
  | entryPoint _ body | block _ body => Node.ofStmts body
  | functionDefinition _ _ ps body => ps.map Node.param ++ Node.ofStmts body
  | structureDefinition _ _ fs => fs.map Node.param
  | conditional _ c body branches elseBody =>
    .expression c ::
      (Node.ofStmts body ++ (branches.map Node.branch ++ Node.ofStmts (elseBody.getD [])))
  | whileLoop _ e body | untilLoop _ e body | doWhile _ body e | doUntil _ body e
  | forEach _ _ e body | repeatLoop _ e body => .expression e :: Node.ofStmts body
  | forRange _ _ a b step body => (a :: b :: step.toList).map Node.expression ++ Node.ofStmts body
  | tryCatch _ body _ handler cleanup =>
    Node.ofStmts body ++ (Node.ofStmts handler ++ Node.ofStmts (cleanup.getD []))
  | returning _ e | increment _ _ e | decrement _ _ e => e.toList.map Node.expression
  | throwing _ e | declaration _ _ e | print _ e | assertion _ e | expression _ e => [.expression e]
  | assignment _ l r | listAdd _ l r | listRemove _ l r => [.expression l, .expression r]
  | breaking _ | continuing _ | exiting _ | swap .. | readInto .. | importing .. => []

namespace Node

def parts : Node → List Node
  | statement st => st.parts
  | expression e => e.children.map expression
  | param _ => []
  | branch (.mk _ c body) => expression c :: ofStmts body

def IsWithin (m n : Node) : Prop :=
  Relation.ReflTransGen (fun a b => b ∈ a.parts) n m

/-- The node has some of the tokens for its own: it begins with the first of them, those of a statement
are a unit for it, and all nodes right below it stand in its own tokens. -/
inductive StandsIn (unit : Stmt → List Token → Prop) : List Token → Node → Prop
  | mk {ts own : List Token} {n : Node} (h : own.Sublist ts) (hne : own ≠ [])
      (hplace : n.place = Token.firstPlace own) (hunit : ∀ st, n = statement st → unit st own)
      (hparts : ∀ m ∈ n.parts, StandsIn unit own m) : StandsIn unit ts n

variable {unit : Stmt → List Token → Prop} {ts us : List Token} {m n : Node}

theorem StandsIn.mono (h : n.StandsIn unit ts) (hsub : ts.Sublist us) : n.StandsIn unit us := by
  cases h with
  | mk h hne hplace hunit hparts => exact .mk (h.trans hsub) hne hplace hunit hparts

theorem StandsIn.of_mem_parts (h : n.StandsIn unit ts) (hm : m ∈ n.parts) :
    m.StandsIn unit ts := by
  cases h with
  | mk h _ _ _ hparts => exact (hparts m hm).mono h

/-- What is below a node stands in its tokens. -/
theorem StandsIn.of_isWithin (h : n.StandsIn unit ts) (hm : m.IsWithin n) :
    m.StandsIn unit ts := by
  induction hm with
  | refl => exact h
  | tail _ hpart ih => exact ih.of_mem_parts hpart

theorem exists_firstPlace_eq (hne : ts ≠ []) :
    ∃ t us, ts = t :: us ∧ Token.firstPlace ts = t.position := by
  obtain ⟨t, us, rfl⟩ := List.exists_cons_of_ne_nil hne
  exact ⟨t, us, rfl, rfl⟩

/-- A node stands in the place of a token. -/
theorem StandsIn.exists_token (h : n.StandsIn unit ts) : ∃ t ∈ ts, n.place = t.position := by
  cases h with
  | mk h hne hplace _ _ =>
    obtain ⟨t, us, rfl, hfirst⟩ := exists_firstPlace_eq hne
    exact ⟨t, h.subset (List.mem_cons_self ..), hplace.trans hfirst⟩

/-- Where the places of the tokens increase, no node stands in front of the node above it. -/
theorem StandsIn.place_le (h : n.StandsIn unit ts)
    (hordered : ts.Pairwise fun t u => t.position.Precedes u.position) (hm : m ∈ n.parts) :
    n.place = m.place ∨ n.place.Precedes m.place := by
  cases h with
  | mk h hne hplace _ hparts =>
    obtain ⟨t, us, rfl, hfirst⟩ := exists_firstPlace_eq hne
    obtain ⟨u, hu, hmplace⟩ := (hparts m hm).exists_token
    -- The node has the first of its own tokens, the part has that one or a later one.
    rw [hplace, hfirst, hmplace]
    rcases List.mem_cons.mp hu with rfl | hlater
    · exact .inl rfl
    · exact .inr ((List.pairwise_cons.mp (hordered.sublist h)).1 u hlater)

/-- A statement has a unit for its own. -/
theorem StandsIn.exists_unit {st : Stmt} (h : (statement st).StandsIn unit ts) :
    ∃ own, own.Sublist ts ∧ unit st own ∧ st.position = Token.firstPlace own ∧
      (statement st).StandsIn unit own := by
  cases h with
  | mk h hne hplace hunit hparts =>
    exact ⟨_, h, hunit st rfl, hplace, .mk (.refl _) hne hplace hunit hparts⟩

variable {t : Token} {e : Expr}

theorem StandsIn.cons (h : n.StandsIn unit ts) : n.StandsIn unit (t :: ts) :=
  h.mono (List.sublist_cons_self t ts)

theorem StandsIn.append_right (h : n.StandsIn unit ts) : n.StandsIn unit (ts ++ us) :=
  h.mono (List.sublist_append_left ts us)

theorem StandsIn.append_left (h : n.StandsIn unit us) : n.StandsIn unit (ts ++ us) :=
  h.mono (List.sublist_append_right ts us)

/-- An expression has all of the tokens for its own. -/
theorem standsIn_expression (hne : ts ≠ []) (hplace : e.position = Token.firstPlace ts)
    (h : ∀ c ∈ e.children, (expression c).StandsIn unit ts) : (expression e).StandsIn unit ts :=
  .mk (.refl ts) hne hplace (fun _ hstatement => Node.noConfusion hstatement)
    (List.forall_mem_map.mpr h)

/-- What is right below an expression stands in the tokens in which it stands. -/
theorem StandsIn.of_mem_children {c : Expr} (h : (expression e).StandsIn unit ts)
    (hc : c ∈ e.children) : (expression c).StandsIn unit ts :=
  h.of_mem_parts (List.mem_map_of_mem hc)

end Node

/-! The nodes of an expression. An article moves an expression alone, not what is below it. -/

namespace Expr

open Node

@[simp] theorem position_movedTo (e : Expr) (p : Position) : (e.movedTo p).position = p := by
  cases e <;> rfl

@[simp] theorem children_movedTo (e : Expr) (p : Position) :
    (e.movedTo p).children = e.children := by
  cases e <;> rfl

variable {unit : Stmt → List Token → Prop}

/-- An expression without expressions below it. -/
theorem standsIn_leaf {e : Expr} {t : Token} {ts : List Token} (hplace : e.position = t.position)
    (h : e.children = []) : (expression e).StandsIn unit (t :: ts) := by
  refine standsIn_expression (List.cons_ne_nil t ts) hplace ?_
  rw [h]
  exact List.forall_mem_nil _

/-- An expression behind a word with which it begins. -/
theorem standsIn_lead {e : Expr} {t : Token} {ts : List Token} (hplace : e.position = t.position)
    (h : ∀ c ∈ e.children, (expression c).StandsIn unit ts) :
    (expression e).StandsIn unit (t :: ts) :=
  standsIn_expression (List.cons_ne_nil t ts) hplace fun c hc => (h c hc).cons

mutual

/-- An expression that is derived stands in its tokens. -/
theorem Derives.standsIn {e : Expr} {ts : List Token} :
    e.Derives ts → (expression e).StandsIn unit ts
  | .literal _ => standsIn_leaf rfl rfl
  | .identifier _ => standsIn_leaf rfl rfl
  | .grouping _ h _ =>
    standsIn_lead rfl (List.forall_mem_singleton.mpr h.standsIn.append_right)
  | .article (e := e) (t := t) _ h => by
    -- The article gives the expression its own place, and leaves what is below it where it was.
    refine standsIn_lead (position_movedTo e t.position) ?_
    rw [children_movedTo]
    exact fun c hc => h.standsIn.of_mem_children hc
  | .emptyList _ => standsIn_leaf rfl rfl
  | .list _ h => standsIn_lead rfl h.standsIn
  | .binary hl _ hr => by
    refine standsIn_expression (by simp) rfl (List.forall_mem_cons.mpr ⟨?_, ?_⟩)
    · exact hl.standsIn.append_right
    · exact List.forall_mem_singleton.mpr hr.standsIn.cons.append_left
  | .unary _ h => standsIn_lead rfl (List.forall_mem_singleton.mpr h.standsIn)
  | .phrase _ hl _ hr => by
    refine standsIn_lead rfl (List.forall_mem_cons.mpr ⟨hl.standsIn.append_right, ?_⟩)
    exact List.forall_mem_singleton.mpr hr.standsIn.cons.append_left
  | .nullCheck h _ =>
    standsIn_expression (by simp) rfl (List.forall_mem_singleton.mpr h.standsIn.append_right)
  | .typeCheck h _ _ =>
    standsIn_expression (by simp) rfl (List.forall_mem_singleton.mpr h.standsIn.append_right)
  | .cast _ h _ _ =>
    standsIn_lead rfl (List.forall_mem_singleton.mpr h.standsIn.append_right)
  | .index _ hi _ hc => by
    refine standsIn_lead rfl (List.forall_mem_cons.mpr ⟨hc.standsIn.cons.append_left, ?_⟩)
    exact List.forall_mem_singleton.mpr hi.standsIn.append_right
  | .ordinalIndex _ _ _ _ hc => by
    -- The number of the element is the first token itself.
    refine standsIn_expression (List.cons_ne_nil _ _) rfl (List.forall_mem_cons.mpr ⟨?_, ?_⟩)
    · exact hc.standsIn.cons.cons.cons
    · exact List.forall_mem_singleton.mpr (standsIn_leaf rfl rfl)
  | .slice _ hc _ ha _ hb => by
    refine standsIn_lead rfl (List.forall_mem_cons.mpr ⟨hc.standsIn.append_right, ?_⟩)
    refine List.forall_mem_cons.mpr ⟨ha.standsIn.append_right.cons.append_left, ?_⟩
    exact List.forall_mem_singleton.mpr hb.standsIn.cons.append_left.cons.append_left
  | .call _ _ => standsIn_leaf rfl rfl
  | .callWith _ _ _ h => standsIn_lead rfl fun e he => (h.standsIn e he).cons.cons
  | .ternary _ h => h.standsIn
  | .selection _ hs _ h => by
    refine standsIn_lead rfl (List.forall_mem_cons.mpr ⟨hs.standsIn.append_right, ?_⟩)
    exact fun e he => (h.standsIn e he).cons.append_left
termination_by structural h => h

theorem DerivesTernary.standsIn {e : Expr} {ts : List Token} :
    e.DerivesTernary ts → (expression e).StandsIn unit ts
  | .last hc _ ha _ hb => by
    refine standsIn_lead rfl (List.forall_mem_cons.mpr ⟨hc.standsIn.append_right, ?_⟩)
    refine List.forall_mem_cons.mpr ⟨ha.standsIn.append_right.cons.append_left, ?_⟩
    exact List.forall_mem_singleton.mpr hb.standsIn.cons.append_left.cons.append_left
  | .more hc _ ha _ hb => by
    refine standsIn_lead rfl (List.forall_mem_cons.mpr ⟨hc.standsIn.append_right, ?_⟩)
    refine List.forall_mem_cons.mpr ⟨ha.standsIn.append_right.cons.append_left, ?_⟩
    -- A further condition begins with the word in front of it.
    exact List.forall_mem_singleton.mpr hb.standsIn.append_left.cons.append_left
termination_by structural h => h

theorem DerivesArms.standsIn {arms : List (Expr × Expr)} {d : Option Expr} {ts : List Token} :
    DerivesArms arms d ts →
      ∀ e ∈ arms.flatMap (fun arm => [arm.1, arm.2]) ++ d.toList, (expression e).StandsIn unit ts
  | .last hp _ hr =>
    List.forall_mem_cons.mpr ⟨hp.standsIn.append_right,
      List.forall_mem_singleton.mpr hr.standsIn.cons.append_left⟩
  | .fallback _ _ hd => List.forall_mem_singleton.mpr hd.standsIn.cons.cons
  | .more hp _ hr _ h =>
    List.forall_mem_cons.mpr ⟨hp.standsIn.append_right.append_right,
      List.forall_mem_cons.mpr ⟨hr.standsIn.cons.append_left.append_right,
        fun e he => (h.standsIn e he).cons.append_left⟩⟩
termination_by structural h => h

theorem DerivesItems.standsIn {es : List Expr} {ts : List Token} :
    DerivesItems es ts → ∀ e ∈ es, (expression e).StandsIn unit ts
  | .last h => List.forall_mem_singleton.mpr h.standsIn
  | .more h _ hes =>
    List.forall_mem_cons.mpr ⟨h.standsIn.append_right,
      fun e he => (hes.standsIn e he).cons.append_left⟩
termination_by structural h => h

end

/-- An expression begins with the first of its tokens. -/
theorem Derives.position {e : Expr} {ts : List Token} (h : e.Derives ts) :
    e.position = Token.firstPlace ts := by
  cases h with
  | article => exact position_movedTo ..
  | ternary _ h => cases h <;> rfl
  | _ => rfl

end Expr

end Prose
