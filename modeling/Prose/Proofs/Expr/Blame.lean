import Prose.Problem
import Prose.Proofs.Expr.Questions
import Prose.Proofs.Inquiry
import Prose.Proofs.Slice.Depth

namespace Prose.Slice

/-- There is at least one of the tokens, and they are neighbours in the slice. -/
def Cites (s : Slice) (ts : List Token) : Prop :=
  ts ≠ [] ∧ ts <:+: s.tokens

def CitedBy (slices : List Slice) (ts : List Token) : Prop :=
  ∃ s ∈ slices, s.Cites ts

variable {q s : Slice} {ts : List Token} {t : Token}

theorem IsPartOf.isInfix (h : q.IsPartOf s) : q.tokens <:+: s.tokens := by
  obtain ⟨i, -, hprefix⟩ := h
  exact hprefix.isInfix.trans (List.drop_suffix i s.tokens).isInfix

/-- What a part cites the slice cites. -/
theorem Cites.of_isPartOf (h : q.Cites ts) (hq : q.IsPartOf s) : s.Cites ts :=
  ⟨h.1, h.2.trans hq.isInfix⟩

theorem cites_of_isEmpty (h : ¬s.isEmpty = true) : s.Cites s.tokens := by
  refine ⟨fun hnil => h ?_, List.infix_rfl⟩
  rw [isEmpty, hnil]
  rfl

theorem cites_self (h : 0 < s.length) : s.Cites s.tokens :=
  ⟨List.ne_nil_of_length_pos h, List.infix_rfl⟩

theorem cites_of_mem (h : t ∈ s.tokens) : s.Cites [t] := by
  obtain ⟨us, vs, hs⟩ := List.append_of_mem h
  exact ⟨List.cons_ne_nil t [], us, vs, by rw [hs, List.append_assoc]; rfl⟩

theorem Cites.length_pos (h : s.Cites ts) : 0 < s.length :=
  Nat.lt_of_lt_of_le (List.length_pos_iff.mpr h.1) h.2.length_le

/-- A slice in which a word was found has tokens. -/
theorem cites_of_first {k : Keyword} {i j : Nat} (h : s.first k i = some j) : s.Cites s.tokens :=
  cites_self (Nat.zero_lt_of_lt (lt_length_of_first h))

/-- The tokens from a word on that was found. -/
theorem cites_drop {j : Nat} (h : j < s.length) : s.Cites (s.drop j).tokens := by
  refine (cites_self ?_).of_isPartOf (isPartOf_drop s j)
  rw [length_drop]
  omega

end Prose.Slice

namespace Prose

/-- The problem is one of what the slice says: it points at tokens of it, and is not that nesting goes
too deep. -/
structure Problem.Concerns (p : Problem) (s : Slice) : Prop where
  shown : s.Cites p.tokens
  code : p.code ≠ .nestingLimit

/-- What concerns a part concerns the slice. -/
theorem Problem.Concerns.of_isPartOf {p : Problem} {part s : Slice} (h : p.Concerns part)
    (hpart : part.IsPartOf s) : p.Concerns s :=
  ⟨h.shown.of_isPartOf hpart, h.code⟩

theorem Slice.Cites.concerns {p : Problem} {s : Slice} (h : s.Cites p.tokens)
    (hcode : (p.code == .nestingLimit) = false) : p.Concerns s :=
  ⟨h, ne_of_beq_false hcode⟩

namespace Expr

open Inquiry Slice

abbrev PointsInto (s : Slice) {α : Type} (x : Query α) : Prop :=
  Blames (fun _ => True) (fun p => p.Concerns s) x

variable {s part : Slice} {whole : List Token} {α : Type}

theorem pointsInto_read (part : Slice) : PointsInto s (Expr.read part) :=
  blames_question trivial

section parts

/-- A required part is pointed at if there is anything of it, and what is around it otherwise. -/
theorem pointsInto_requiredOr {missing invalid : Problem} (hpart : part.IsPartOf s)
    (hmissing : missing.Concerns s) (hinvalid : ¬part.isEmpty = true → invalid.Concerns part) :
    PointsInto s (requiredOr missing invalid part) := by
  unfold requiredOr
  split
  · exact .fail hmissing
  · rename_i hne
    refine blames_bind (pointsInto_read part) fun r => ?_
    split
    · exact .done _
    · exact .fail ((hinvalid hne).of_isPartOf hpart)

variable (hwhole : s.Cites whole) (hpart : part.IsPartOf s)
include hwhole hpart

theorem pointsInto_required (origin name : String) :
    PointsInto s (required origin name part whole) :=
  pointsInto_requiredOr hpart (hwhole.concerns rfl) fun h => (cites_of_isEmpty h).concerns rfl

theorem pointsInto_requiredType (origin : String) :
    PointsInto s (requiredType origin part whole) := by
  have hinvalid (h : part.tokens ≠ []) (help : String) :
      PointsInto s (.fail ((invalidPart origin "type name" part.tokens).withHelp help) :
        Query TypeName) :=
    .fail ((Cites.of_isPartOf ⟨h, List.infix_rfl⟩ hpart).concerns rfl)
  unfold requiredType
  simp only
  split
  · exact .fail (hwhole.concerns rfl)
  · rename_i t ht
    split
    · exact .done _
    · exact hinvalid (by rw [ht]; exact List.cons_ne_nil _ _) _
  · rename_i hnil _
    exact hinvalid hnil _

end parts

/-- Looking behind articles raises no problem. -/
theorem pointsInto_ruleBehind (rule : Rule) (start : Nat) (ts : List Token) :
    PointsInto s (ruleBehind rule start ts) := by
  induction ts generalizing rule start with
  | nil => constructor
  | cons t ts ih =>
    match ts, ih with
    | [], _ => constructor
    | u :: us, ih =>
      rw [ruleBehind]
      split
      · refine blames_bind (pointsInto_read _) fun r => ?_
        split
        · exact ih _ _
        · constructor
      · constructor

theorem pointsInto_operand (level : Nat) (side : Side) (part : Slice) :
    PointsInto s (operand level side part) := by
  refine blames_bind (pointsInto_read part) fun r => ?_
  split
  · constructor
  · exact blames_bind (pointsInto_ruleBehind _ _ _) fun _ => .done _

theorem pointsInto_requiredOperand (origin name : String) (level : Nat) (side : Side)
    (hwhole : s.Cites whole) (hpart : part.IsPartOf s) :
    PointsInto s (requiredOperand origin name level side part whole) := by
  unfold requiredOperand
  split
  · exact .fail (hwhole.concerns rfl)
  · rename_i hne
    refine blames_bind (pointsInto_operand level side part) fun r => ?_
    split
    · exact .done _
    · exact .done _
    · exact .fail (((cites_of_isEmpty hne).of_isPartOf hpart).concerns rfl)

theorem pointsInto_literalOr (origin : String) {t : Token} (ht : t ∈ s.tokens)
    (value : Except LiteralFault Literal) : PointsInto s (literalOr origin t value) := by
  unfold literalOr
  split
  · exact .done _
  · exact .fail ((cites_of_mem ht).concerns rfl)

section families

theorem pointsInto_readTernaryFrom (n : Nat) (part : Slice) (hpart : part.IsPartOf s) :
    PointsInto s (readTernaryFrom n part) := by
  induction n generalizing part with
  | zero => constructor
  | succ n ih =>
    rw [readTernaryFrom_succ]
    split
    · constructor
    · rename_i thenAt hthen
      have hwhole : s.Cites part.tokens := (cites_of_first hthen).of_isPartOf hpart
      split
      · constructor
      · rename_i offset branch hbranch
        have hextract (i j : Nat) : (part.extract i j).IsPartOf s :=
          (isPartOf_extract part i j).trans hpart
        have hdrop (i : Nat) : (part.drop i).IsPartOf s := (isPartOf_drop part i).trans hpart
        refine blames_bind (pointsInto_required hwhole (hextract _ _) _ _) fun _ => ?_
        refine blames_bind (pointsInto_required hwhole (hextract _ _) _ _) fun _ => ?_
        simp only
        split
        -- The word of the further condition was found, so there is something from it on.
        · refine blames_bind (ih _ (hdrop _)) fun r => ?_
          have hfound := lt_length_of_getElem? (getElem?_of_firstOf hbranch).2
          rw [length_drop] at hfound
          split
          · exact .done _
          · exact .fail (((cites_drop (by omega)).of_isPartOf hpart).concerns rfl)
        · exact blames_bind (pointsInto_required hwhole (hdrop _) _ _) fun _ => .done _

theorem pointsInto_readArms (arms : List Slice) (hwhole : s.Cites whole)
    (harms : ∀ arm ∈ arms, arm.IsPartOf s) : PointsInto s (readArms whole arms) := by
  induction arms with
  | nil => constructor
  | cons arm arms ih =>
    obtain ⟨harm, harms⟩ := List.forall_mem_cons.mp harms
    rw [readArms_cons]
    split
    · refine .fail (Cites.concerns ?_ rfl)
      change s.Cites (if arm.isEmpty then whole else arm.tokens)
      split
      · exact hwhole
      · exact (cites_of_isEmpty ‹_›).of_isPartOf harm
    · rename_i givesAt hgives
      have hcited : s.Cites arm.tokens := (cites_of_first hgives).of_isPartOf harm
      have hresult := (isPartOf_drop arm (givesAt + 1)).trans harm
      refine blames_bind (pointsInto_required hcited hresult _ _) fun _ => ?_
      split
      · split
        · exact .done _
        · exact .fail (hcited.concerns rfl)
      · have hpattern := (isPartOf_take arm givesAt).trans harm
        refine blames_bind (pointsInto_required hcited hpattern _ _) fun _ => ?_
        exact blames_bind (ih harms) fun _ => .done _

/-- A division that does not succeed is tried elsewhere. -/
theorem pointsInto_readSplit (part : Slice) (l : OperatorLevel) (is : List Nat) :
    PointsInto s (readSplit part l is) := by
  induction is with
  | nil => constructor
  | cons i is ih =>
    rw [readSplit]
    split
    · exact ih
    · refine blames_bind (pointsInto_operand _ _ _) fun left => ?_
      split
      · refine blames_bind (pointsInto_operand _ _ _) fun right => ?_
        split
        · exact .done _
        · exact ih
      · exact ih

theorem pointsInto_readPhraseSplit (p : ArithmeticPhrase) (operands : Slice) (looser : Bool)
    (is : List Nat) (hs : 0 < s.length) :
    PointsInto s (readPhraseSplit p s operands looser is) := by
  induction is generalizing looser with
  | nil =>
    rw [readPhraseSplit]
    split
    · constructor
    · exact .fail ((cites_self hs).concerns rfl)
  | cons i is ih =>
    rw [readPhraseSplit]
    refine blames_bind (pointsInto_read _) fun left => ?_
    split
    · exact ih looser
    · refine blames_bind (pointsInto_operand _ _ _) fun right => ?_
      split
      · exact .done _
      · exact ih true
      · exact ih looser

theorem pointsInto_readItems (origin name : String) (level : Nat) (parts : List Slice)
    (hwhole : s.Cites whole) (hparts : ∀ part ∈ parts, part.IsPartOf s) :
    PointsInto s (readItems origin name level whole parts) := by
  induction parts with
  | nil => constructor
  | cons part parts ih =>
    obtain ⟨hpart, hparts⟩ := List.forall_mem_cons.mp hparts
    match parts, ih hparts with
    | [], _ =>
      refine blames_bind (pointsInto_requiredOperand _ _ _ _ hwhole hpart) fun r => ?_
      split <;> exact .done _
    | _ :: _, hrest =>
      refine blames_bind (pointsInto_required hwhole hpart _ _) fun _ => ?_
      refine blames_bind hrest fun r => ?_
      split <;> exact .done _

theorem pointsInto_readToken {value : Token → Option (Query Expr)}
    (h : ∀ t ∈ s.tokens, ∀ x, value t = some x → PointsInto s x) :
    PointsInto s (readToken s value) := by
  unfold readToken
  split
  · rename_i t ht
    have hmem : t ∈ s.tokens := ht ▸ List.mem_singleton_self t
    split
    · exact blames_map _ (h t hmem _ ‹_›)
    · constructor
  · constructor

end families

section forms

variable (s : Slice) (hs : 0 < s.length)
include hs

theorem pointsInto_readParenthesized : PointsInto s (readParenthesized s) := by
  rw [readParenthesized_eq]
  split
  · constructor
  · rename_i inner hinner
    obtain ⟨j, -, rfl⟩ := extract_of_enclosed hinner
    exact blames_bind (pointsInto_required (cites_self hs) (isPartOf_extract s _ _) _ _)
      fun _ => .done _

omit hs in
theorem pointsInto_readArticle : PointsInto s (readArticle s) := by
  rw [readArticle_eq]
  split
  · split
    · refine blames_bind (pointsInto_operand _ _ _) fun r => ?_
      split <;> exact .done _
    · constructor
  · constructor

omit hs in
theorem pointsInto_readTernary : PointsInto s (readTernary s) := by
  unfold readTernary
  split
  · exact pointsInto_readTernaryFrom _ s (.refl s)
  · constructor

theorem pointsInto_readSelection : PointsInto s (readSelection s) := by
  rw [readSelection_eq]
  split
  · constructor
  · rename_i withAt _
    refine blames_bind (pointsInto_required (cites_self hs) (isPartOf_extract s _ _) _ _)
      fun _ => ?_
    simp only
    split
    · exact .fail ((cites_self hs).concerns rfl)
    · refine blames_bind (pointsInto_readArms _ (cites_self hs) fun arm harm => ?_)
        fun _ => .done _
      exact (isPartOf_of_mem_split harm).trans (isPartOf_drop s _)

theorem pointsInto_readUnary (op : UnaryOp) : PointsInto s (readUnary op s) := by
  rw [readUnary_eq]
  split
  · refine blames_bind
      (pointsInto_requiredOperand _ _ _ _ (cites_self hs) (isPartOf_drop s _)) fun r => ?_
    split <;> exact .done _
  · constructor

theorem pointsInto_readPhrase (p : ArithmeticPhrase) : PointsInto s (readPhrase p s) := by
  by_cases hlead : s.startsWith p.lead = true
  · simp only [readPhrase_eq, hlead, if_true]
    split
    · constructor
    · split
      · exact .fail ((cites_self hs).concerns rfl)
      · exact pointsInto_readPhraseSplit p _ false _ hs
  · simp only [readPhrase_eq, hlead]
    constructor

theorem pointsInto_readTypeCheck : PointsInto s (readTypeCheck s) := by
  rw [readTypeCheck_eq]
  split
  · constructor
  · split
    · constructor
    · refine blames_bind (pointsInto_requiredType (cites_self hs) (isPartOf_drop s _) _) fun _ => ?_
      refine blames_bind
        (pointsInto_requiredOperand _ _ _ _ (cites_self hs) (isPartOf_take s _)) fun r => ?_
      split <;> exact .done _

theorem pointsInto_readNullCheck : PointsInto s (readNullCheck s) := by
  rw [readNullCheck_eq]
  simp only
  split
  · constructor
  · split
    · constructor
    · refine blames_bind
        (pointsInto_requiredOperand _ _ _ _ (cites_self hs) (isPartOf_take s _)) fun r => ?_
      split <;> exact .done _

theorem pointsInto_readCast : PointsInto s (readCast s) := by
  rw [readCast_eq]
  split
  · constructor
  · refine blames_bind (pointsInto_required (cites_self hs) (isPartOf_extract s _ _) _ _)
      fun _ => ?_
    exact blames_bind (pointsInto_requiredType (cites_self hs) (isPartOf_drop s _) _)
      fun _ => .done _

theorem pointsInto_readSlice : PointsInto s (readSlice s) := by
  rw [readSlice_eq]
  split
  · constructor
  · split
    · constructor
    · refine blames_bind (pointsInto_required (cites_self hs) (isPartOf_extract s _ _) _ _)
        fun _ => ?_
      refine blames_bind (pointsInto_required (cites_self hs) (isPartOf_extract s _ _) _ _)
        fun _ => ?_
      refine blames_bind
        (pointsInto_requiredOperand _ _ _ _ (cites_self hs) (isPartOf_drop s _)) fun r => ?_
      split <;> exact .done _

theorem pointsInto_readCollection (index : Expr) (n : Nat) :
    PointsInto s (readCollection s s.position index (s.drop n)) := by
  refine blames_bind (pointsInto_requiredOperand _ _ _ _ (cites_self hs) (isPartOf_drop s n))
    fun r => ?_
  split <;> exact .done _

theorem pointsInto_readIndex : PointsInto s (readIndex s) := by
  rw [readIndex_eq]
  simp only
  split
  · split
    · constructor
    · refine blames_bind (pointsInto_required (cites_self hs) (isPartOf_extract s _ _) _ _)
        fun _ => ?_
      exact pointsInto_readCollection s hs _ _
  · split
    · rename_i htokens
      split
      · refine blames_bind (pointsInto_literalOr _ ?_ _) fun _ => pointsInto_readCollection s hs _ 3
        rw [htokens]
        exact List.mem_cons_self ..
      · constructor
    · constructor

theorem pointsInto_readCall : PointsInto s (readCall s) := by
  rw [readCall_eq]
  simp only
  split
  · constructor
  · rename_i f rest hrest
    split
    · refine .fail ((cites_of_mem ?_).concerns rfl)
      split at hrest
      · exact List.mem_of_mem_drop (hrest ▸ List.mem_cons_self ..)
      · cases hrest
    · split
      · exact .done _
      · split
        · exact .fail ((cites_self hs).concerns rfl)
        · exact .fail ((cites_self hs).concerns rfl)
      · split
        · refine blames_bind
            (pointsInto_readItems _ _ _ _ (cites_self hs) fun part hpart => ?_) fun r => ?_
          · exact (isPartOf_of_mem_split hpart).trans (isPartOf_drop s _)
          · split <;> exact .done _
        · exact .fail ((cites_self hs).concerns rfl)

theorem pointsInto_readList : PointsInto s (readList s) := by
  rw [readList_eq]
  split
  · exact .done _
  · split
    · refine blames_bind
        (pointsInto_readItems _ _ _ _ (cites_self hs) fun part hpart => ?_) fun r => ?_
      · exact (isPartOf_of_mem_split hpart).trans (isPartOf_drop s _)
      · split <;> exact .done _
    · constructor

/-- The problems of every form point into the slice that it reads. -/
theorem pointsInto_form (f : Form) : PointsInto s (f.read s) := by
  cases f with
  | parenthesized => exact pointsInto_readParenthesized s hs
  | article => exact pointsInto_readArticle s
  | ternary => exact pointsInto_readTernary s
  | selection => exact pointsInto_readSelection s hs
  | operators l =>
    rw [Form.read, readOperators_eq]
    exact pointsInto_readSplit s l _
  | unary op => exact pointsInto_readUnary s hs op
  | typeCheck => exact pointsInto_readTypeCheck s hs
  | nullCheck => exact pointsInto_readNullCheck s hs
  | phrase p => exact pointsInto_readPhrase s hs p
  | cast => exact pointsInto_readCast s hs
  | slice => exact pointsInto_readSlice s hs
  | index => exact pointsInto_readIndex s hs
  | call => exact pointsInto_readCall s hs
  | list => exact pointsInto_readList s hs
  -- A literal is blamed on its token, which is all of the slice.
  | number =>
    refine pointsInto_readToken fun t ht x hx => ?_
    split at hx
    · exact Option.some.inj hx ▸ pointsInto_literalOr _ ht _
    · cases hx
  | ordinal =>
    refine pointsInto_readToken fun t ht x hx => ?_
    split at hx
    · exact Option.some.inj hx ▸ pointsInto_literalOr _ ht _
    · cases hx
  | text =>
    refine pointsInto_readToken fun t ht x hx => ?_
    split at hx
    · exact Option.some.inj hx ▸ pointsInto_literalOr _ ht _
    · exact Option.some.inj hx ▸ pointsInto_literalOr _ ht _
    · cases hx
  | constant =>
    refine pointsInto_readToken fun t ht x hx => ?_
    obtain ⟨v, -, rfl⟩ := Option.map_eq_some_iff.mp hx
    constructor
  | identifier =>
    rw [Form.read, readIdentifier_eq]
    constructor

end forms

end Expr

end Prose
