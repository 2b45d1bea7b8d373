import Prose.Proofs.Expr.Alone
import Prose.Proofs.Expr.Head
import Prose.Proofs.Expr.Leaves
import Prose.Proofs.Expr.Mirror
import Prose.Proofs.Expr.RoundTrip.Frame

/-! Chains of operators: closed operands with operators between them and no parentheses around an
operator with its operands. The reading by precedence is stated without the rules of the grammar: at
its root is the last of the loosest operators, or the first one if these group from the right. Main
statement: the cascade reads every chain in this way. -/
namespace Prose.Expr

open Grammar

def OperatorLevel.rank (l : OperatorLevel) : Nat :=
  OperatorLevel.all.idxOf l

/-- The tokens are an operand that no operator beside it reaches into: a literal, a name or the
empty list, which are one token each, or parentheses around tokens that the cascade reads. -/
inductive IsClosed : Expr → List Token → Prop
  | value {v} {t : Token} (h : t.Spells v) : IsClosed (literal t.position v) [t]
  | name {n} {t : Token} (h : t.name? = some n) : IsClosed (identifier t.position n) [t]
  | emptyList {t : Token} (h : t.keyword = .emptyList) : IsClosed (list t.position []) [t]
  | parens {e rule inner} {o c : Token} {a n : Nat} {options : Options}
      (ho : o.keyword = .openParen) (hc : c.keyword = .closeParen)
      (h : Slice.selection options n ⟨a, inner⟩ = .ok (some (rule, e))) :
      IsClosed (grouping o.position e) (o :: (inner ++ [c]))

/-- The tokens are a closed operand, and behind it any number of operators, each with a further
closed operand. -/
inductive IsChain : Expr → List (BinaryOp × Expr) → List Token → Prop
  | operand {e ts} (h : IsClosed e ts) : IsChain e [] ts
  | link {e e' op links ts us} {t : Token} (h : IsClosed e ts) (ht : t.keyword = op.role)
      (hlinks : IsChain e' links us) : IsChain e ((op, e') :: links) (ts ++ t :: us)

/-- The operator is the root of a chain with these links before and after it. No operator is looser,
and none of the same level stands behind it; powers group from the right, so with them none stands
before it. -/
structure IsRoot (before : List (BinaryOp × Expr)) (op : BinaryOp)
    (after : List (BinaryOp × Expr)) : Prop where
  loosest : ∀ link ∈ before ++ after, op.operatorLevel.rank ≤ link.1.operatorLevel.rank
  outermost : ∀ link ∈ if op = .power then before else after,
    link.1.operatorLevel ≠ op.operatorLevel

/-- The reading of a chain by precedence: both sides of its root are read in the same way. -/
inductive ReadsByPrecedence : Expr → List (BinaryOp × Expr) → Expr → Prop
  | operand (e) : ReadsByPrecedence e [] e
  | root {e e' op before after left right} (hroot : IsRoot before op after)
      (hleft : ReadsByPrecedence e before left) (hright : ReadsByPrecedence e' after right) :
      ReadsByPrecedence e (before ++ (op, e') :: after) (binary e.position left op right)

variable {f g : Form} {s : Slice} {e e' : Expr} {t : Token} {ts us : List Token}
  {op : BinaryOp} {links before after : List (BinaryOp × Expr)}

section levels

theorem OperatorLevel.level_le_of_rank_le {l l' : OperatorLevel} (h : l.rank ≤ l'.rank) :
    l'.level ≤ l.level := by
  revert h
  cases l <;> cases l' <;> decide

theorem OperatorLevel.rank_injective {l l' : OperatorLevel} (h : l.rank = l'.rank) : l = l' := by
  revert h
  cases l <;> cases l' <;> decide

theorem OperatorLevel.le_level (l : OperatorLevel) : 800 ≤ l.level := by
  cases l <;> decide

theorem eq_power_iff {op op' : BinaryOp}
    (h : op'.operatorLevel = op.operatorLevel) : op' = .power ↔ op = .power := by
  revert h
  cases op <;> cases op' <;> decide

theorem isFlat_role (op : BinaryOp) :
    op.role.isOpener = false ∧ op.role.isCloser = false := by
  cases op <;> decide

theorem IsRoot.level_le {link : BinaryOp × Expr} (h : IsRoot before op after)
    (hlink : link ∈ before ++ after) : link.1.operatorLevel.level ≤ op.operatorLevel.level :=
  OperatorLevel.level_le_of_rank_le (h.loosest link hlink)

/-- The word of an operator is a sign of its level only. -/
theorem eq_of_role_mem_signs {f : Form} {op : BinaryOp} (h : op.role ∈ f.signs) :
    f = .operators op.operatorLevel := by
  have hall : ∀ f ∈ Form.all, op.role ∈ f.signs → f = .operators op.operatorLevel := by
    cases op <;> decide
  exact hall f f.mem_all h

end levels

section operands

/-- The keywords that closed operands begin with. -/
def heads : List Keyword :=
  [.openParen, .unknown, .numericLiteral, .ordinal, .trueWord, .falseWord, .null, .emptyList]

theorem mem_heads_of_plain (ht : t.IsRegular) (h : t.kind.isPlain = true) : t.keyword ∈ heads := by
  rcases ht h with hk | hk
  · rw [hk]; decide
  · rw [hk]; decide

theorem mem_heads_of_constant? {v : Literal} (h : constant? t.keyword = some v) :
    t.keyword ∈ heads := by
  revert h
  cases t.keyword <;> first | (intro h; cases h; done) | exact fun _ => by decide

theorem mem_heads_of_spells {v : Literal} (ht : t.IsRegular) (h : t.Spells v) :
    t.keyword ∈ heads := by
  cases h with
  | number hk => exact mem_heads_of_plain ht (by rw [hk]; rfl)
  | ordinal hk => rw [hk]; decide
  | text hk => exact mem_heads_of_plain ht (by rw [hk]; rfl)
  | character hk => exact mem_heads_of_plain ht (by rw [hk]; rfl)
  | constant hv => exact mem_heads_of_constant? hv

/-- A form reads the only token of a slice if it accepts it and does not begin with an operand. -/
theorem outcome_of_accepts_token {a : Nat} (ht : t.IsRegular) (hf : f.fixity.isOpenLeft = false)
    (he : standard.verdict f ⟨a, [t]⟩ = .ok (some e)) :
    standard.outcome ⟨a, [t]⟩ = .ok (some (f.rule, e)) := by
  refine outcome_standard_eq_some_iff.mpr ⟨f, rfl, Nat.one_pos, he, fun g hlt => ?_⟩
  have haccepts : f.Accepts ⟨a, [t]⟩ := ⟨e, he⟩
  cases hg : g.fixity.isOpenLeft with
  | false =>
    by_contra hrejects
    have hregular : Slice.IsRegular ⟨a, [t]⟩ := fun u hu => List.mem_singleton.mp hu ▸ ht
    have hsame := eq_of_not_rejects hregular hf hg haccepts.not_rejects hrejects
    exact Nat.lt_irrefl _ (hsame ▸ hlt)
  | true =>
    -- A single token has no room for a sign behind an operand.
    have hnone : ∀ i k, 0 < i → (i, k) ∉ depthZero 0 0 [t] := fun i k hi hmem => by
      have hlen := Slice.lt_length_of_getElem? (s := ⟨a, [t]⟩) (getElem?_of_mem_depthZero hmem).2
      simp only [Slice.length, List.length_singleton] at hlen
      omega
    refine verdict_of_read_eq ?_
    by_cases hnull : g = .nullCheck
    · subst hnull
      exact readNullCheck_eq_pure_none fun hdivides => Nat.lt_irrefl 0 hdivides.1
    · exact read_eq_of_unsigned hg (fun i k hi hmem => absurd hmem (hnone i k hi))
        fun h => absurd h hnull

/-- The slice is read as the expression by a form that an operator of the level, or a looser one,
takes as its operand. -/
def Fits (level : Nat) (s : Slice) (e : Expr) : Prop :=
  ∃ f : Form, standard.outcome s = .ok (some (f.rule, e)) ∧ f ≠ .article ∧
    (f.fixity ≠ .closed → f.level ≤ level)

theorem Fits.mono {level level' : Nat} (h : Fits level s e) (hle : level ≤ level') :
    Fits level' s e := by
  obtain ⟨f, hread, hf, hlevel⟩ := h
  exact ⟨f, hread, hf, fun hopen => Nat.le_trans (hlevel hopen) hle⟩

theorem Fits.resolve_operand {level : Nat} (h : Fits level s e) (side : Side) :
    (operand level side s).resolve standard.outcome = .ok (.bound e) := by
  obtain ⟨f, hread, hf, hlevel⟩ := h
  have hview := view_of_ne_transparent hread fun ht => hf (isTransparent_iff.mp ht)
  rw [Prose.resolve_operand, hview]
  have hbound : (f.fixity.faces side && decide (f.level > level)) = false := by
    by_cases hclosed : f.fixity = .closed
    · rw [hclosed]
      cases side <;> rfl
    · rw [decide_eq_false (Nat.not_lt.mpr (hlevel hclosed)), Bool.and_false]
  have hsame : (f.rule.form.fixity.faces side && decide (f.rule.priority > level)) = false := hbound
  simp only [Except.map, Operand.ofReading, hsame, Bool.false_eq_true, if_false]

/-- A literal is read by a closed form. -/
theorem fits_of_spells {v : Literal} (ht : t.IsRegular) (h : t.Spells v) (a : Nat) :
    Fits 0 ⟨a, [t]⟩ (literal t.position v) := by
  have hread (f : Form) (hclosed : f.fixity = .closed)
      (he : standard.verdict f ⟨a, [t]⟩ = .ok (some (literal t.position v))) :
      Fits 0 ⟨a, [t]⟩ (literal t.position v) := by
    refine ⟨f, outcome_of_accepts_token ht (by rw [hclosed]; rfl) he, ?_, absurd hclosed⟩
    rintro rfl
    cases hclosed
  cases h with
  | number hk hv =>
    refine hread .number rfl ?_
    simp [verdict, Form.read, readNumber, readToken, literalOr, hk, hv, Except.map]
  | ordinal hk hv =>
    refine hread .ordinal rfl ?_
    simp [verdict, Form.read, readOrdinal, readToken, literalOr, hk, hv, Except.map]
  | text hk hv =>
    refine hread .text rfl ?_
    simp [verdict, Form.read, readText, readToken, literalOr, hk, hv, Except.map]
  | character hk hv =>
    refine hread .text rfl ?_
    simp [verdict, Form.read, readText, readToken, literalOr, hk, hv, Except.map]
  | constant hv =>
    refine hread .constant rfl ?_
    simp [verdict, Form.read, readConstant, readToken, hv, Except.map]

theorem fits_of_name? {n : String} (ht : t.IsRegular) (h : t.name? = some n) (a : Nat) :
    Fits 0 ⟨a, [t]⟩ (identifier t.position n) := by
  refine ⟨.identifier, outcome_of_accepts_token ht rfl (verdict_of_read_eq ?_), by decide, ?_⟩
  · simp only [Form.read, readIdentifier_eq, Slice.name?, h]
    rfl
  · exact fun hopen => absurd rfl hopen

/-- The empty list is read by the form of lists, which binds more tightly than every operator. -/
theorem fits_of_emptyList (ht : t.IsRegular) (h : t.keyword = .emptyList) (a : Nat) :
    Fits Form.list.level ⟨a, [t]⟩ (list t.position []) := by
  refine ⟨.list, outcome_of_accepts_token ht rfl (verdict_of_read_eq ?_), by decide,
    fun _ => Nat.le_refl _⟩
  have hstart : (⟨a, [t]⟩ : Slice).startsWith .emptyList = true := by
    simp [Slice.startsWith, h]
  simp only [Form.read, readList_eq, hstart]
  rfl

/-- What an accepted expression leaves between parentheses is well nested. -/
theorem wellNested_of_outcome {rule : Rule} (hs : s.IsRegular)
    (h : standard.outcome s = .ok (some (rule, e))) : WellNested s.tokens :=
  (isInline_of_outcome hs h).1

/-- A closed operand is read by a closed form, or it is the empty list. -/
theorem IsClosed.fits_list (h : IsClosed e ts) (hts : ∀ t ∈ ts, t.IsRegular) (a : Nat) :
    Fits Form.list.level ⟨a, ts⟩ e := by
  cases h with
  | value h => exact (fits_of_spells (hts _ (List.mem_singleton_self _)) h a).mono (Nat.zero_le _)
  | name h => exact (fits_of_name? (hts _ (List.mem_singleton_self _)) h a).mono (Nat.zero_le _)
  | emptyList h => exact fits_of_emptyList (hts _ (List.mem_singleton_self _)) h a
  | parens ho hc h =>
    have hread := outcome_of_selection h
    have hnested := wellNested_of_outcome (fun t ht =>
      hts t (List.mem_cons_of_mem _ (List.mem_append_left _ ht))) hread
    rw [standard.outcome_start _ (a + 1)] at hread
    exact ⟨.parenthesized, outcome_parens ho hc hnested hread, by decide, absurd rfl⟩

/-- A closed operand is an operand of every operator, wherever it stands. -/
theorem IsClosed.fits (h : IsClosed e ts) (hts : ∀ t ∈ ts, t.IsRegular) (a : Nat) :
    Fits 800 ⟨a, ts⟩ e :=
  (h.fits_list hts a).mono (by decide)

/-- A closed operand is one flat token, or it is in parentheses. -/
theorem IsClosed.token_or_around (h : IsClosed e ts) (hts : ∀ t ∈ ts, t.IsRegular) :
    (∃ t, ts = [t] ∧ t.IsFlat ∧ t.keyword ∈ heads ∧ e.position = t.position) ∨
      Bracket.paren.Around ts ∧ ∃ t us, ts = t :: us ∧ e.position = t.position := by
  cases h with
  | @value v t h =>
    have ht := hts t (List.mem_singleton_self t)
    exact .inl ⟨t, rfl, (Token.bears_value ht h).flat, mem_heads_of_spells ht h, rfl⟩
  | @name n t h =>
    have ht := hts t (List.mem_singleton_self t)
    have hplain : t.kind.isPlain = true := by rw [name?_kind h]; rfl
    exact .inl ⟨t, rfl, (Token.bears_name ht h).flat, mem_heads_of_plain ht hplain, rfl⟩
  | @emptyList t h =>
    refine .inl ⟨t, rfl, ?_, by rw [h]; decide, rfl⟩
    unfold Token.IsFlat
    rw [h]
    decide
  | @parens e rule inner o c _ _ _ ho hc h =>
    have hnested := wellNested_of_outcome (fun t ht =>
      hts t (List.mem_cons_of_mem _ (List.mem_append_left _ ht))) (outcome_of_selection h)
    exact .inr ⟨⟨o, inner, c, rfl, ho, hc, hnested⟩, o, _, rfl, rfl⟩

theorem IsClosed.hasOutline {ks : List Keyword} (h : IsClosed e ts) (hts : ∀ t ∈ ts, t.IsRegular)
    (hks : .closeParen :: heads ⊆ ks) : HasOutline ks ts := by
  rcases h.token_or_around hts with ⟨t, rfl, hflat, hk, -⟩ | ⟨haround, -⟩
  · exact hasOutline_nil.cons hflat (hks (List.mem_cons_of_mem _ hk))
  · have hopen : Keyword.openParen ∈ ks := hks (by decide)
    have hclose : Keyword.closeParen ∈ ks := hks (by decide)
    refine ⟨haround.wellNested, haround.shows hopen hclose, fun t ht => ?_⟩
    obtain ⟨o, inner, c, rfl, -, hc, -⟩ := haround
    rw [← List.cons_append, List.getLast?_concat, Option.mem_some_iff] at ht
    rw [← ht, hc]
    exact hclose

end operands

section chains

def shown (links : List (BinaryOp × Expr)) : List Keyword :=
  .closeParen :: heads ++ links.map (·.1.role)

theorem role_mem_shown {link : BinaryOp × Expr} (h : link ∈ links) : link.1.role ∈ shown links :=
  List.mem_append_right _ (List.mem_map_of_mem h)

theorem HasOutline.mono {ks ls : List Keyword} (h : HasOutline ks ts) (hsub : ks ⊆ ls) :
    HasOutline ls ts :=
  ⟨h.nested, h.shows.mono hsub, fun t ht => hsub (h.last t ht)⟩

/-- A chain shows the keywords of its operands and its operators. -/
theorem IsChain.hasOutline (h : IsChain e links ts) (hts : ∀ t ∈ ts, t.IsRegular) :
    HasOutline (shown links) ts := by
  induction h with
  | operand h => exact h.hasOutline hts (List.subset_append_left _ _)
  | @link e e' op links ts us t h ht _ ih =>
    rw [List.forall_mem_append, List.forall_mem_cons] at hts
    have hflat : t.IsFlat := by
      unfold Token.IsFlat
      rw [ht]
      exact isFlat_role op
    have hrole : t.keyword ∈ shown ((op, e') :: links) := by
      rw [ht]
      exact role_mem_shown (List.mem_cons_self ..)
    have hrest : HasOutline (shown ((op, e') :: links)) us := by
      refine (ih hts.2.2).mono fun k hk => ?_
      rcases List.mem_append.mp hk with hk | hk
      · exact List.mem_append_left _ hk
      · exact List.mem_append_right _ (List.mem_cons_of_mem _ hk)
    exact (h.hasOutline hts.1 (List.subset_append_left _ _)).append (hrest.cons hflat hrole)

/-- Where a link stands the tokens of a chain fall into two chains and the word between them. -/
theorem IsChain.split (h : IsChain e (before ++ (op, e') :: after) ts) :
    ∃ ls t rs, ts = ls ++ t :: rs ∧ IsChain e before ls ∧ t.keyword = op.role ∧
      IsChain e' after rs := by
  induction before generalizing e ts with
  | nil =>
    cases h with
    | @link _ _ _ _ ls rs t hclosed ht hrest => exact ⟨ls, t, rs, rfl, .operand hclosed, ht, hrest⟩
  | cons link before ih =>
    cases h with
    | @link _ _ _ _ us vs u hclosed hu hrest =>
      obtain ⟨ls, t, rs, rfl, hls, ht, hrs⟩ := ih hrest
      exact ⟨us ++ u :: ls, t, rs, by simp, .link hclosed hu hls, ht, hrs⟩

/-- Brackets and closed operands show no sign of a form that is looser than powers. -/
theorem not_mem_signs_of_mem_heads {k : Keyword} (hk : k ∈ .closeParen :: heads)
    (hlevel : 800 < f.level) (hf : f ≠ .parenthesized) : k ∉ f.signs := by
  have hall : ∀ f ∈ Form.all, 800 < f.level → f ≠ .parenthesized →
      ∀ k ∈ .closeParen :: heads, k ∉ f.signs := by
    decide
  exact hall f f.mem_all hlevel hf k hk

theorem not_mem_operators_of_mem_heads {k : Keyword} {l : OperatorLevel}
    (hk : k ∈ .closeParen :: heads) : k ∉ (Form.operators l).signs := by
  have hall : ∀ k ∈ .closeParen :: heads, k ∉ (Form.operators l).signs := by
    cases l <;> decide
  exact hall k hk

/-- A chain begins with its first operand. -/
theorem IsChain.head (h : IsChain e links ts) :
    ∃ us vs, ts = us ++ vs ∧ IsClosed e us ∧ (links ≠ [] → vs ≠ []) := by
  cases h with
  | operand h => exact ⟨ts, [], by simp, h, absurd rfl⟩
  | link h _ _ => exact ⟨_, _, rfl, h, fun _ => List.cons_ne_nil _ _⟩

theorem IsClosed.length_pos (h : IsClosed e ts) : 0 < ts.length := by
  cases h <;> exact Nat.succ_pos _

theorem IsChain.length_pos (h : IsChain e links ts) : 0 < ts.length := by
  obtain ⟨us, vs, rfl, hus, -⟩ := h.head
  rw [List.length_append]
  exact Nat.add_pos_left hus.length_pos _

theorem IsChain.position (h : IsChain e links ts) (hts : ∀ t ∈ ts, t.IsRegular) (a : Nat) :
    Slice.position ⟨a, ts⟩ = e.position := by
  obtain ⟨us, vs, rfl, hus, -⟩ := h.head
  rw [List.forall_mem_append] at hts
  rcases hus.token_or_around hts.1 with ⟨t, rfl, -, -, he⟩ | ⟨-, t, us, rfl, he⟩
  · exact he.symm
  · exact he.symm

/-- A chain with an operator is not in parentheses. -/
theorem IsChain.enclosed_eq_none (h : IsChain e links ts) (hts : ∀ t ∈ ts, t.IsRegular)
    (hlinks : links ≠ []) (a : Nat) : (⟨a, ts⟩ : Slice).enclosed .openParen = none := by
  obtain ⟨us, vs, rfl, hus, hvs⟩ := h.head
  rw [List.forall_mem_append] at hts
  rcases hus.token_or_around hts.1 with ⟨t, rfl, hflat, -⟩ | ⟨haround, -⟩
  · refine Slice.enclosed_eq_none_of_startsWith ?_
    have hk : t.keyword ≠ .openParen := fun hk => by
      have hopener := hflat.1
      rw [hk] at hopener
      cases hopener
    simpa [Slice.startsWith] using hk
  · exact Slice.enclosed_eq_none_of_around haround rfl (hvs hlinks) _

/-- A form looser than all operators of a chain rejects it. -/
theorem IsChain.rejects (h : IsChain e links ts) (hts : ∀ t ∈ ts, t.IsRegular)
    (hlinks : links ≠ []) (hlevel : 800 < f.level)
    (hroles : ∀ link ∈ links, link.1.operatorLevel.level < f.level) (a : Nat) :
    standard.verdict f ⟨a, ts⟩ = .ok none := by
  by_cases hf : f = .parenthesized
  · subst hf
    refine verdict_of_read_eq ?_
    rw [Form.read, readParenthesized_eq, h.enclosed_eq_none hts hlinks a]
  · have houtline := h.hasOutline hts
    have htwo : 2 ≤ ts.length := by
      obtain ⟨us, vs, rfl, hus, hvs⟩ := h.head
      have hpos := hus.length_pos
      have hpos' := List.length_pos_iff.mpr (hvs hlinks)
      rw [List.length_append]
      omega
    refine verdict_eq_none_of_shows htwo houtline.shows houtline.last fun k hk hsign => ?_
    rcases List.mem_append.mp hk with hk | hk
    · exact not_mem_signs_of_mem_heads hk hlevel hf hsign
    · obtain ⟨link, hmem, rfl⟩ := List.mem_map.mp hk
      have hlt := hroles link hmem
      rw [eq_of_role_mem_signs hsign] at hlt
      exact Nat.lt_irrefl _ hlt

/-- The index of an operator is the first to be tried if no other one of its level stands behind it,
or, for powers, before it. -/
theorem exists_tried_first {ls rs : List Token} {ks : List Keyword} (a : Nat) (hls : WellNested ls)
    (ht : t.keyword = op.role) (hside : Shows ks (if op = .power then ls else rs))
    (hks : ∀ k ∈ ks, k ∉ (Form.operators op.operatorLevel).signs) :
    ∃ is, readOperators op.operatorLevel ⟨a, ls ++ t :: rs⟩ =
      readSplit ⟨a, ls ++ t :: rs⟩ op.operatorLevel (ls.length :: is) := by
  have hflat : t.IsFlat := by
    unfold Token.IsFlat
    rw [ht]
    exact isFlat_role op
  have hcount : (op.operatorLevel.operators.map (·.1)).count op.role = 1 := by
    cases op <;> decide
  have hright : op.operatorLevel.groupsRight = decide (op = .power) := by
    cases op <;> rfl
  -- Entries of the side on which nothing of the level stands yield no index.
  have hnone {entries : List (Nat × Keyword)} (h : ∀ en ∈ entries, en.2 ∈ ks) :
      (entries.flatMap fun en =>
        List.replicate ((op.operatorLevel.operators.map (·.1)).count en.2) en.1) = [] := by
    rw [List.flatMap_eq_nil_iff]
    intro en hen
    have hzero : (op.operatorLevel.operators.map (·.1)).count en.2 = 0 :=
      List.count_eq_zero.mpr (hks _ (h en hen))
    rw [hzero]
    rfl
  have hpositions : (⟨a, ls ++ t :: rs⟩ : Slice).positionsOf
      (op.operatorLevel.operators.map (·.1)) =
      ((depthZero 0 0 ls).flatMap fun en =>
        List.replicate ((op.operatorLevel.operators.map (·.1)).count en.2) en.1) ++
      ls.length :: ((depthZero 0 (ls.length + 1) rs).flatMap fun en =>
        List.replicate ((op.operatorLevel.operators.map (·.1)).count en.2) en.1) := by
    rw [Slice.positionsOf, hls.depthZero_append, depthZero_flat hflat, List.flatMap_append,
      List.flatMap_cons, ht, hcount, Nat.zero_add]
    rfl
  rw [readOperators_eq, hpositions, hright]
  by_cases hpower : op = .power
  · rw [if_pos hpower] at hside
    rw [hnone fun en hen => hside.of_mem hen, decide_eq_true hpower]
    exact ⟨_, rfl⟩
  · rw [if_neg hpower] at hside
    rw [hnone fun en hen => hside.of_mem hen, decide_eq_false hpower, List.reverse_append,
      List.reverse_singleton]
    exact ⟨_, rfl⟩

/-- An operator that is tried first reads the slice if both of its sides are operands. -/
theorem verdict_operators {ls rs : List Token} {left right : Expr} {ks : List Keyword} (a : Nat)
    (hls : WellNested ls) (ht : t.keyword = op.role)
    (hside : Shows ks (if op = .power then ls else rs))
    (hks : ∀ k ∈ ks, k ∉ (Form.operators op.operatorLevel).signs)
    (hleft : Fits op.operatorLevel.level ⟨a, ls⟩ left)
    (hright : Fits op.operatorLevel.level ⟨a + (ls.length + 1), rs⟩ right) :
    standard.verdict (.operators op.operatorLevel) ⟨a, ls ++ t :: rs⟩ =
      .ok (some (binary (Slice.position ⟨a, ls ++ t :: rs⟩) left op right)) := by
  obtain ⟨is, hread⟩ := exists_tried_first a hls ht hside hks
  obtain ⟨f, hf, -⟩ := id hleft
  obtain ⟨g, hg, -⟩ := id hright
  have hlpos : 0 < ls.length := pos_of_outcome_some hf
  have hrpos : 0 < rs.length := pos_of_outcome_some hg
  have hlookup : op.operatorLevel.operators.lookup t.keyword = some op := by
    rw [ht]
    cases op <;> rfl
  -- The token between the sides is the operator, as neither side is empty.
  have hop : operatorAt? ⟨a, ls ++ t :: rs⟩ op.operatorLevel ls.length = some op := by
    rw [operatorAt?, if_neg, List.getElem?_append_right (Nat.le_refl _), Nat.sub_self]
    · exact hlookup
    · simp only [Slice.length, List.length_append, List.length_cons]
      omega
  have htake : (⟨a, ls ++ t :: rs⟩ : Slice).take ls.length = ⟨a, ls⟩ := Slice.take_eq _ _ rfl rfl
  have hdrop : (⟨a, ls ++ t :: rs⟩ : Slice).drop (ls.length + 1) = ⟨a + (ls.length + 1), rs⟩ :=
    Slice.drop_eq _ _ (List.append_cons ..) (by simp)
  rw [verdict, Form.read, hread, readSplit_cons hop, htake, hdrop, Inquiry.resolve_bind,
    hleft.resolve_operand]
  simp only [Except.bind, Inquiry.resolve_bind, hright.resolve_operand]
  rfl

/-- The root of a chain reads it, if its sides are read before. -/
theorem verdict_root {ls rs : List Token} {left right : Expr} (hroot : IsRoot before op after)
    (hls : IsChain e before ls) (ht : t.keyword = op.role) (hrs : IsChain e' after rs)
    (hts : ∀ u ∈ ls ++ t :: rs, u.IsRegular) (a : Nat)
    (hleft : Fits op.operatorLevel.level ⟨a, ls⟩ left)
    (hright : Fits op.operatorLevel.level ⟨a + (ls.length + 1), rs⟩ right) :
    standard.verdict (.operators op.operatorLevel) ⟨a, ls ++ t :: rs⟩ =
      .ok (some (binary (Slice.position ⟨a, ls ++ t :: rs⟩) left op right)) := by
  rw [List.forall_mem_append, List.forall_mem_cons] at hts
  have hl := hls.hasOutline hts.1
  have hr := hrs.hasOutline hts.2.2
  -- The side on which the level does not occur again shows none of its words.
  have hside : Shows (shown (if op = .power then before else after))
      (if op = .power then ls else rs) := by
    split
    · exact hl.shows
    · exact hr.shows
  refine verdict_operators a hl.nested ht hside (fun k hk hsign => ?_) hleft hright
  rcases List.mem_append.mp hk with hk | hk
  · exact not_mem_operators_of_mem_heads hk hsign
  · obtain ⟨link, hmem, rfl⟩ := List.mem_map.mp hk
    exact hroot.outermost link hmem (Form.operators.inj (eq_of_role_mem_signs hsign)).symm

end chains

section readings

/-- A chain is read by precedence, and every operator that binds at the level, or more loosely,
takes it as its operand. The induction is on the reading: at its root both sides are read before. -/
theorem ReadsByPrecedence.fits {tree : Expr} {level : Nat} (h : ReadsByPrecedence e links tree)
    (hchain : IsChain e links ts) (hts : ∀ t ∈ ts, t.IsRegular) (hlevel : 800 ≤ level)
    (hlinks : ∀ link ∈ links, link.1.operatorLevel.level ≤ level) (a : Nat) :
    Fits level ⟨a, ts⟩ tree := by
  induction h generalizing ts level a with
  | operand e =>
    cases hchain with
    | operand hclosed => exact (hclosed.fits hts a).mono hlevel
  | @root e e' op before after left right hroot _ _ ihleft ihright =>
    obtain ⟨ls, t, rs, rfl, hls, ht, hrs⟩ := hchain.split
    obtain ⟨hlregular, -, hrregular⟩ :
        (∀ u ∈ ls, u.IsRegular) ∧ t.IsRegular ∧ ∀ u ∈ rs, u.IsRegular := by
      rwa [List.forall_mem_append, List.forall_mem_cons] at hts
    have hfloor := op.operatorLevel.le_level
    have hleft := ihleft hls hlregular hfloor
      (fun link hmem => hroot.level_le (List.mem_append_left _ hmem)) a
    have hright := ihright hrs hrregular hfloor
      (fun link hmem => hroot.level_le (List.mem_append_right _ hmem)) (a + (ls.length + 1))
    have hverdict := verdict_root hroot hls ht hrs hts a hleft hright
    have hpos : 0 < (⟨a, ls ++ t :: rs⟩ : Slice).length := hchain.length_pos
    rw [hchain.position hts a] at hverdict
    refine ⟨.operators op.operatorLevel, ?_, by simp, fun _ => hlinks (op, e') (by simp)⟩
    refine outcome_standard_eq_some_iff.mpr ⟨_, rfl, hpos, hverdict, fun f hlt => ?_⟩
    -- Every looser form rejects the chain, since no link of it binds more loosely than the root.
    refine hchain.rejects hts (by simp) (Nat.lt_of_le_of_lt hfloor hlt)
      (fun link hmem => Nat.lt_of_le_of_lt ?_ hlt) a
    rcases List.mem_append.mp hmem with hmem | hmem
    · exact hroot.level_le (List.mem_append_left _ hmem)
    · rcases List.mem_cons.mp hmem with rfl | hmem
      · exact Nat.le_refl _
      · exact hroot.level_le (List.mem_append_right _ hmem)

/-- One more link in front of a chain with a root is the new root, or the root stays. -/
theorem IsRoot.cons {op op' : BinaryOp} (h : IsRoot before op after) :
    IsRoot [] op' (before ++ (op, e) :: after) ∨ IsRoot ((op', e') :: before) op after := by
  have hloosest : ∀ link ∈ before ++ (op, e) :: after,
      op.operatorLevel.rank ≤ link.1.operatorLevel.rank := by
    intro link hmem
    rcases List.mem_append.mp hmem with hmem | hmem
    · exact h.loosest link (List.mem_append_left _ hmem)
    · rcases List.mem_cons.mp hmem with rfl | hmem
      · exact Nat.le_refl _
      · exact h.loosest link (List.mem_append_right _ hmem)
  rcases Nat.lt_trichotomy op'.operatorLevel.rank op.operatorLevel.rank with hlt | heq | hgt
  -- The new link is looser than all others.
  · refine .inl ⟨fun link hmem => ?_, fun link hmem hsame => ?_⟩
    · exact Nat.le_of_lt (Nat.lt_of_lt_of_le hlt (hloosest link hmem))
    · split at hmem
      · cases hmem
      · have hle := hloosest link hmem
        rw [hsame] at hle
        exact Nat.not_lt.mpr hle hlt
  -- It is of the level of the root, and comes before it: of two powers the first is the root.
  · have hlevel := OperatorLevel.rank_injective heq
    by_cases hpower : op' = .power
    · refine .inl ⟨fun link hmem => heq ▸ hloosest link hmem, fun link hmem => ?_⟩
      rw [if_pos hpower] at hmem
      cases hmem
    · refine .inr ⟨List.forall_mem_cons.mpr ⟨Nat.le_of_eq heq.symm, h.loosest⟩, fun link hmem => ?_⟩
      have hpower' : op ≠ .power := fun hop => hpower ((eq_power_iff hlevel).mpr hop)
      have houter := h.outermost
      rw [if_neg hpower'] at hmem houter
      exact houter link hmem
  · refine .inr ⟨List.forall_mem_cons.mpr ⟨Nat.le_of_lt hgt, h.loosest⟩, fun link hmem => ?_⟩
    have houter := h.outermost
    split at hmem
    · rename_i hpower
      rw [if_pos hpower] at houter
      rcases List.mem_cons.mp hmem with rfl | hmem
      · exact fun hsame => Nat.ne_of_gt hgt (congrArg OperatorLevel.rank hsame)
      · exact houter link hmem
    · rename_i hpower
      rw [if_neg hpower] at houter
      exact houter link hmem

/-- Among the links of a chain one is the root. -/
theorem exists_isRoot (hlinks : links ≠ []) :
    ∃ before op e' after, links = before ++ (op, e') :: after ∧ IsRoot before op after := by
  induction links with
  | nil => exact absurd rfl hlinks
  | cons link links ih =>
    obtain ⟨op', e'⟩ := link
    by_cases hlast : links = []
    · subst hlast
      exact ⟨[], op', e', [], rfl, by simp, by simp⟩
    · obtain ⟨before, op, e, after, rfl, hroot⟩ := ih hlast
      rcases hroot.cons with hnew | hold
      · exact ⟨[], op', e', _, rfl, hnew⟩
      · exact ⟨_, op, e, after, rfl, hold⟩

/-- Every chain has a reading by precedence. -/
theorem exists_readsByPrecedence (e : Expr) (links : List (BinaryOp × Expr)) :
    ∃ tree, ReadsByPrecedence e links tree := by
  induction hn : links.length using Nat.strongRecOn generalizing e links with
  | _ n ih =>
    by_cases hlinks : links = []
    · subst hlinks
      exact ⟨e, .operand e⟩
    · obtain ⟨before, op, e', after, rfl, hroot⟩ := exists_isRoot hlinks
      rw [List.length_append, List.length_cons] at hn
      obtain ⟨left, hleft⟩ := ih before.length (by omega) e before rfl
      obtain ⟨right, hright⟩ := ih after.length (by omega) e' after rfl
      exact ⟨_, .root hroot hleft hright⟩

end readings

/-- A chain of closed operands and operators has one reading by precedence. A fresh session whose
nesting limit exceeds the number of tokens accepts the chain and reads it so. -/
theorem read_of_isChain (e : Expr) (links : List (BinaryOp × Expr)) (s : Slice) (o : Options)
    (n : Nat) (hs : s.IsRegular) (hchain : IsChain e links s.tokens)
    (hroom : s.length < o.maxNestingDepth) :
    ∃ tree, (∀ t, ReadsByPrecedence e links t ↔ t = tree) ∧
      ∃ rule, ((Parse.read standard s).run.run (.start o n)).1 = .ok (some (rule, tree)) := by
  obtain ⟨tree, htree⟩ := exists_readsByPrecedence e links
  have hlevel : ∀ l : OperatorLevel, l.level ≤ 900 := by
    intro l
    cases l <;> decide
  have hread (t : Expr) (ht : ReadsByPrecedence e links t) :
      ∃ f : Form, standard.outcome s = .ok (some (f.rule, t)) := by
    have hfits : Fits 900 s t :=
      ht.fits hchain hs (by decide) (fun link _ => hlevel link.1.operatorLevel) s.start
    obtain ⟨f, hf, -⟩ := hfits
    exact ⟨f, hf⟩
  obtain ⟨f, hf⟩ := hread tree htree
  refine ⟨tree, fun t => ⟨fun ht => ?_, fun ht => ht ▸ htree⟩, f.rule, ?_⟩
  · obtain ⟨g, hg⟩ := hread t ht
    rw [hf] at hg
    cases hg
    rfl
  · obtain ⟨τ, hrun, -⟩ := Parse.read_run (.refl s) (Session.recalls_start standard s o n)
      (by simpa [Session.start] using Nat.le_of_lt hroom)
    rw [hrun]
    exact hf

/-- In `$x minus $x to the power of ( $y ) to the power of 2 minus $y` the powers group from the
right and the differences from the left. -/
theorem read_of_isChain_powers :
    let x := Token.ofName "$x"
    let y := Token.ofName "$y"
    let two := Token.ofText .number "2" .unknown
    let minus := (Word.ofRole .minus).val
    let power := (Word.ofRole .toThePowerOf).val
    let o := (Word.ofRole .openParen).val
    let c := (Word.ofRole .closeParen).val
    let x' := identifier x.position "$x"
    let y' := identifier y.position "$y"
    let two' := literal two.position (.number ⟨false, { mantissa := 2, scale := 0 }⟩)
    let links :=
      [(.subtract, x'), (.power, grouping o.position y'), (.power, two'), (.subtract, y')]
    let s : Slice := ⟨0, [x, minus, x, power, o, y, c, power, two, minus, y]⟩
    s.IsRegular ∧ IsChain x' links s.tokens ∧ s.length < 12 ∧
      ∃ rule, ((Parse.read standard s).run.run (.start { maxNestingDepth := 12 } 0)).1 =
        .ok (some (rule, binary x.position (binary x.position x' .subtract
          (binary x.position x' .power
            (binary o.position (grouping o.position y') .power two'))) .subtract y')) := by
  intro x y two minus power o c x' y' two' links s
  have hx : Token.Names x "$x" := Token.names_ofName (by decide +kernel)
  have hy : Token.Names y "$y" := Token.names_ofName (by decide +kernel)
  have hxs : IsClosed x' [x] := .name hx.2
  have hys : IsClosed y' [y] := .name hy.2
  have htwo : IsClosed two' [two] := .value (.number rfl (by decide +kernel))
  have hinner : Slice.selection { maxNestingDepth := 12 } 0 ⟨0, [y]⟩ =
      .ok (some (Form.identifier.rule, y')) :=
    (selection_eq_outcome (by decide)).trans (outcome_identifier hy 0)
  have hparens : IsClosed (grouping o.position y') [o, y, c] := .parens rfl rfl hinner
  have hchain : IsChain x' links s.tokens :=
    .link hxs rfl (.link hxs rfl (.link hparens rfl (.link htwo rfl (.operand hys))))
  have hregular : ∀ t ∈ s.tokens, t.kind.isPlain = true →
      t.keyword = .unknown ∨ t.keyword = .numericLiteral := by
    decide
  -- The root of all is the last difference, and below it the first one; of the powers it is the
  -- first.
  have hlast : IsRoot [(.subtract, x'), (.power, grouping o.position y'), (.power, two')]
      .subtract [] := ⟨by decide, by decide⟩
  have hfirst : IsRoot [] .subtract [(.power, grouping o.position y'), (.power, two')] :=
    ⟨by decide, by decide⟩
  have hpower : IsRoot [] .power [(.power, two')] := ⟨by decide, by decide⟩
  have hpower' : IsRoot [] .power [] := ⟨by decide, by decide⟩
  have hlinks : ReadsByPrecedence x' links _ :=
    .root hlast (.root hfirst (.operand x')
      (.root hpower (.operand x')
        (.root hpower' (.operand (grouping o.position y')) (.operand two')))) (.operand y')
  obtain ⟨tree, htree, hread⟩ := read_of_isChain x' links s { maxNestingDepth := 12 } 0 hregular
    hchain (by decide)
  rw [← (htree _).mp hlinks] at hread
  exact ⟨hregular, hchain, by decide, hread⟩

end Prose.Expr
