import Prose.Expr.Form
import Prose.Proofs.Token.Literal

namespace Prose

/-- The tokens that play a role through a word or a mark. Names and literals are none of them. -/
abbrev Word (k : Keyword) :=
  { t : Token // t.keyword = k ∧ t.kind.isPlain = false }

def Word.ofRole (k : Keyword) : Word k :=
  ⟨⟨.word, k.name, k, .unknown⟩, rfl, rfl⟩

namespace Token

def Names (t : Token) (n : String) : Prop :=
  t.keyword = .unknown ∧ t.name? = some n

/-- The token is a literal with the value. A number in words has become one with digits. -/
def Denotes (t : Token) : Literal → Prop
  | .number n => t.kind = .number ∧ (t.keyword = .unknown ∨ t.keyword = .numericLiteral) ∧
      t.numberValue = .ok (.number n)
  | .text x => t.kind = .string ∧ t.keyword = .unknown ∧ t.unescaped = .ok x
  | .character c => t.kind = .character ∧ t.keyword = .unknown ∧
      t.characterValue = .ok (.character c)
  | .boolean b => t.kind.isPlain = false ∧ t.keyword = if b then .trueWord else .falseWord
  | .null => t.kind.isPlain = false ∧ t.keyword = .null

end Token

def BinaryOp.operatorLevel : BinaryOp → Expr.OperatorLevel
  | add | subtract => .additive
  | multiply | divide | modulo => .multiplicative
  | power => .power
  | conjunction => .conjunction
  | disjunction => .disjunction
  | equal | notEqual | greater | less | atLeast | atMost => .comparison
  | bitAnd => .bitAnd
  | bitOr => .bitOr
  | bitXor => .bitXor
  | shiftLeft | shiftRight => .shift
  | concat => .concatenation
  | contains => .contains

def BinaryOp.role : BinaryOp → Keyword
  | add => .plus
  | subtract => .minus
  | multiply => .multipliedBy
  | divide => .dividedBy
  | modulo => .modulo
  | power => .toThePowerOf
  | conjunction => .andWord
  | disjunction => .orWord
  | equal => .isEqualTo
  | notEqual => .isNotEqualTo
  | greater => .isGreaterThan
  | less => .isLessThan
  | atLeast => .isAtLeast
  | atMost => .isAtMost
  | bitAnd => .bitwiseAnd
  | bitOr => .bitwiseOr
  | bitXor => .bitwiseXor
  | shiftLeft => .shiftedLeftBy
  | shiftRight => .shiftedRightBy
  | concat => .concatenatedWith
  | contains => .contains

def TypeName.role : TypeName → Keyword
  | number => .numberType
  | text => .textType
  | boolean => .booleanType
  | character => .characterType
  | list => .list

namespace Expr

mutual

def bare : Expr → Expr
  | literal _ v => literal .unknown v
  | identifier _ n => identifier .unknown n
  | grouping _ e => bare e
  | list _ es => list .unknown (bareList es)
  | binary _ l op r => binary .unknown (bare l) op (bare r)
  | unary _ op e => unary .unknown op (bare e)
  | nullCheck _ e b => nullCheck .unknown (bare e) b
  | typeCheck _ e t => typeCheck .unknown (bare e) t
  | cast _ e t => cast .unknown (bare e) t
  | index _ c i => index .unknown (bare c) (bare i)
  | slice _ c f t => slice .unknown (bare c) (bare f) (bare t)
  | call _ f args => call .unknown f (bareList args)
  | ternary _ c t e => ternary .unknown (bare c) (bare t) (bare e)
  | selection _ s arms d =>
    selection .unknown (bare s) (bareArms arms)
      (match d with
      | some e => some (bare e)
      | none => none)
termination_by structural e => e

def bareList : List Expr → List Expr
  | [] => []
  | e :: es => bare e :: bareList es
termination_by structural es => es

def bareArms : List (Expr × Expr) → List (Expr × Expr)
  | [] => []
  | (p, r) :: arms => (bare p, bare r) :: bareArms arms
termination_by structural arms => arms

end

mutual

/-- The tokens write the expression in the shape of its own form, every operand in parentheses. -/
inductive Writes : Expr → List Token → Prop
  | literal {p v} {t : Token} (h : t.Denotes v) : Writes (literal p v) [t]
  | identifier {p n} {t : Token} (h : t.Names n) : Writes (identifier p n) [t]
  | grouping {p e ts} (h : Wraps e ts) : Writes (grouping p e) ts
  | emptyList {p} (w : Word .emptyList) : Writes (list p []) [w]
  | list {p es ts} (w : Word .listOf) (h : WritesItems es ts) : Writes (list p es) (w.val :: ts)
  | binary {p l op r ls rs} (hl : Wraps l ls) (w : Word op.role) (hr : Wraps r rs) :
      Writes (binary p l op r) (ls ++ w.val :: rs)
  | unary {p op e ts} (w : Word (unaryLead op)) (h : Wraps e ts) : Writes (unary p op e) (w.val :: ts)
  | nullCheck {p e b ts} (h : Wraps e ts) (w : Word (if b then .isNotNull else .isNull)) :
      Writes (nullCheck p e b) (ts ++ [w.val])
  | typeCheck {p e n ts} (h : Wraps e ts) (w : Word .isA) (u : Word n.role) :
      Writes (typeCheck p e n) (ts ++ [w.val, u.val])
  | cast {p e n ts} (v : Word .cast) (h : Wraps e ts) (w : Word .asA) (u : Word n.role) :
      Writes (cast p e n) (v.val :: (ts ++ [w.val, u.val]))
  | index {p c i cs is} (v : Word .item) (hi : Wraps i is) (w : Word .of) (hc : Wraps c cs) :
      Writes (index p c i) (v.val :: (is ++ w.val :: cs))
  | slice {p c f t cs fs ts} (u : Word .slice) (hc : Wraps c cs) (v : Word .fromWord)
      (hf : Wraps f fs) (w : Word .to) (ht : Wraps t ts) :
      Writes (slice p c f t) (u.val :: (cs ++ v.val :: (fs ++ w.val :: ts)))
  | call {p f} {t : Token} (w : Word .call) (h : t.Names f) : Writes (call p f []) [w.val, t]
  | callWith {p f args ts} {t : Token} (w : Word .call) (h : t.Names f) (v : Word .withWord)
      (hargs : WritesItems args ts) : Writes (call p f args) (w.val :: t :: v.val :: ts)
  | ternary {p c a b cs as bs} (u : Word .ifWord) (hc : Wraps c cs) (v : Word .thenWord)
      (ha : Wraps a as) (w : Word .otherwise) (hb : Wraps b bs) :
      Writes (ternary p c a b) (u.val :: (cs ++ v.val :: (as ++ w.val :: bs)))
  | selection {p s arms d ss ts} (v : Word .matchWord) (hs : Wraps s ss) (w : Word .withWord)
      (harms : WritesArms arms d ts) : Writes (selection p s arms d) (v.val :: (ss ++ w.val :: ts))

inductive Wraps : Expr → List Token → Prop
  | parens {e ts} (o : Word .openParen) (h : Writes e ts) (c : Word .closeParen) :
      Wraps e (o.val :: (ts ++ [c.val]))

inductive WritesItems : List Expr → List Token → Prop
  | last {e ts} (h : Wraps e ts) : WritesItems [e] ts
  | more {e es ts us} (h : Wraps e ts) (w : Word .comma) (hes : WritesItems es us) :
      WritesItems (e :: es) (ts ++ w.val :: us)

inductive WritesArms : List (Expr × Expr) → Option Expr → List Token → Prop
  | last {p r ps rs} (hp : Wraps p ps) (w : Word .gives) (hr : Wraps r rs) :
      WritesArms [(p, r)] none (ps ++ w.val :: rs)
  | fallback {d ds} (v : Word .otherwise) (w : Word .gives) (hd : Wraps d ds) :
      WritesArms [] (some d) (v.val :: w.val :: ds)
  | more {p r arms d ps rs us} (hp : Wraps p ps) (v : Word .gives) (hr : Wraps r rs)
      (w : Word .comma) (harms : WritesArms arms d us) :
      WritesArms ((p, r) :: arms) d (ps ++ v.val :: (rs ++ w.val :: us))

end

end Expr

def IsName (n : String) : Prop :=
  Shape.isIdentifier n.toList = true
  deriving Decidable

def Number.Decimal.IsProducible (n : Decimal) : Prop :=
  ∃ t : Token, t.numberValue = .ok (.number n)

def Token.ofName (n : String) : Token :=
  ⟨.identifier, n, .unknown, .unknown⟩

theorem Token.names_ofName {n : String} (h : IsName n) : (ofName n).Names n := by
  refine ⟨rfl, ?_⟩
  rw [Token.name?, if_pos ⟨rfl, Shape.ofText_of_isIdentifier h⟩]
  rfl

namespace Expr

mutual

/-- All names are well formed, all numbers can be read from some token, and no match is without both
arms and a fallback. -/
def IsWritable : Expr → Prop
  | literal _ v =>
    match v with
    | .number n => n.IsProducible
    | _ => True
  | identifier _ n => IsName n
  | grouping _ e => IsWritable e
  | list _ es => AreWritable es
  | binary _ l _ r => IsWritable l ∧ IsWritable r
  | unary _ _ e => IsWritable e
  | nullCheck _ e _ => IsWritable e
  | typeCheck _ e _ => IsWritable e
  | cast _ e _ => IsWritable e
  | index _ c i => IsWritable c ∧ IsWritable i
  | slice _ c f t => IsWritable c ∧ IsWritable f ∧ IsWritable t
  | call _ f args => IsName f ∧ AreWritable args
  | ternary _ c t e => IsWritable c ∧ IsWritable t ∧ IsWritable e
  | selection _ s arms d =>
    IsWritable s ∧ ArmsAreWritable arms ∧
      (match d with
      | some e => IsWritable e
      | none => arms ≠ [])
termination_by structural e => e

def AreWritable : List Expr → Prop
  | [] => True
  | e :: es => IsWritable e ∧ AreWritable es
termination_by structural es => es

def ArmsAreWritable : List (Expr × Expr) → Prop
  | [] => True
  | (p, r) :: arms => IsWritable p ∧ IsWritable r ∧ ArmsAreWritable arms
termination_by structural arms => arms

end

theorem exists_names {n : String} (h : IsName n) : ∃ t : Token, t.Names n :=
  ⟨_, Token.names_ofName h⟩

/-- There is a token for every literal. -/
theorem exists_denotes {v : Literal} {p : Position} (h : (literal p v).IsWritable) :
    ∃ t : Token, t.Denotes v := by
  cases v with
  | number n =>
    obtain ⟨t, ht⟩ := h
    exact ⟨{ t with kind := .number, keyword := .unknown }, rfl, .inl rfl, ht⟩
  | text x =>
    have hvalue := Token.unescaped_quotedLiteral .string (q := '"') rfl x.toList
    rw [String.ofList_toList] at hvalue
    exact ⟨Token.quotedLiteral .string '"' x.toList, rfl, rfl, hvalue⟩
  | character c =>
    have hvalue := Token.characterValue_quotedLiteral .character (q := '\'') rfl c
    exact ⟨Token.quotedLiteral .character '\'' [c], rfl, rfl, hvalue⟩
  | boolean b =>
    have w := Word.ofRole (if b then .trueWord else .falseWord)
    exact ⟨w.val, w.property.2, w.property.1⟩
  | null => exact ⟨(Word.ofRole .null).val, (Word.ofRole .null).property.2, rfl⟩

theorem exists_wraps {e : Expr} (h : ∃ ts, Writes e ts) : ∃ ts, Wraps e ts := by
  obtain ⟨ts, hts⟩ := h
  exact ⟨_, .parens (.ofRole _) hts (.ofRole _)⟩

mutual

/-- Every writable expression can be written down. -/
theorem exists_writes : ∀ e : Expr, e.IsWritable → ∃ ts, Writes e ts
  -- Every part is written in parentheses, so that the words of a part are never those of the whole.
  | literal _ _, h => by
    obtain ⟨t, ht⟩ := exists_denotes h
    exact ⟨_, .literal ht⟩
  | identifier _ _, h => by
    obtain ⟨t, ht⟩ := exists_names h
    exact ⟨_, .identifier ht⟩
  | grouping _ e, h => by
    obtain ⟨ts, hts⟩ := exists_wraps (exists_writes e h)
    exact ⟨_, .grouping hts⟩
  | list _ [], _ => ⟨_, .emptyList (.ofRole _)⟩
  | list _ (e :: es), h => by
    obtain ⟨ts, hts⟩ := exists_writesItems (e :: es) (List.cons_ne_nil _ _) h
    exact ⟨_, .list (.ofRole _) hts⟩
  | binary _ l _ r, h => by
    obtain ⟨ls, hl⟩ := exists_wraps (exists_writes l h.1)
    obtain ⟨rs, hr⟩ := exists_wraps (exists_writes r h.2)
    exact ⟨_, .binary hl (.ofRole _) hr⟩
  | unary _ _ e, h => by
    obtain ⟨ts, hts⟩ := exists_wraps (exists_writes e h)
    exact ⟨_, .unary (.ofRole _) hts⟩
  | nullCheck _ e _, h => by
    obtain ⟨ts, hts⟩ := exists_wraps (exists_writes e h)
    exact ⟨_, .nullCheck hts (.ofRole _)⟩
  | typeCheck _ e _, h => by
    obtain ⟨ts, hts⟩ := exists_wraps (exists_writes e h)
    exact ⟨_, .typeCheck hts (.ofRole _) (.ofRole _)⟩
  | cast _ e _, h => by
    obtain ⟨ts, hts⟩ := exists_wraps (exists_writes e h)
    exact ⟨_, .cast (.ofRole _) hts (.ofRole _) (.ofRole _)⟩
  | index _ c i, h => by
    obtain ⟨cs, hc⟩ := exists_wraps (exists_writes c h.1)
    obtain ⟨is, hi⟩ := exists_wraps (exists_writes i h.2)
    exact ⟨_, .index (.ofRole _) hi (.ofRole _) hc⟩
  | slice _ c f t, h => by
    obtain ⟨cs, hc⟩ := exists_wraps (exists_writes c h.1)
    obtain ⟨fs, hf⟩ := exists_wraps (exists_writes f h.2.1)
    obtain ⟨ts, ht⟩ := exists_wraps (exists_writes t h.2.2)
    exact ⟨_, .slice (.ofRole _) hc (.ofRole _) hf (.ofRole _) ht⟩
  | call _ f [], h => by
    obtain ⟨t, ht⟩ := exists_names h.1
    exact ⟨_, .call (.ofRole _) ht⟩
  | call _ f (e :: es), h => by
    obtain ⟨t, ht⟩ := exists_names h.1
    obtain ⟨ts, hts⟩ := exists_writesItems (e :: es) (List.cons_ne_nil _ _) h.2
    exact ⟨_, .callWith (.ofRole _) ht (.ofRole _) hts⟩
  | ternary _ c a b, h => by
    obtain ⟨cs, hc⟩ := exists_wraps (exists_writes c h.1)
    obtain ⟨as, ha⟩ := exists_wraps (exists_writes a h.2.1)
    obtain ⟨bs, hb⟩ := exists_wraps (exists_writes b h.2.2)
    exact ⟨_, .ternary (.ofRole _) hc (.ofRole _) ha (.ofRole _) hb⟩
  | selection _ s arms (some d), h => by
    obtain ⟨ss, hs⟩ := exists_wraps (exists_writes s h.1)
    obtain ⟨ds, hd⟩ := exists_wraps (exists_writes d h.2.2)
    obtain ⟨ts, hts⟩ := exists_writesArms arms (some d) h.2.1
      (.inr ⟨_, .fallback (.ofRole _) (.ofRole _) hd⟩)
    exact ⟨_, .selection (.ofRole _) hs (.ofRole _) hts⟩
  | selection _ s arms none, h => by
    obtain ⟨ss, hs⟩ := exists_wraps (exists_writes s h.1)
    obtain ⟨ts, hts⟩ := exists_writesArms arms none h.2.1 (.inl ⟨rfl, h.2.2⟩)
    exact ⟨_, .selection (.ofRole _) hs (.ofRole _) hts⟩
termination_by structural e => e

theorem exists_writesItems : ∀ es : List Expr, es ≠ [] → AreWritable es →
    ∃ ts, WritesItems es ts
  | [], hne, _ => (hne rfl).elim
  | [e], _, h => by
    obtain ⟨ts, hts⟩ := exists_wraps (exists_writes e h.1)
    exact ⟨_, .last hts⟩
  | e :: e' :: es, _, h => by
    obtain ⟨ts, hts⟩ := exists_wraps (exists_writes e h.1)
    obtain ⟨us, hus⟩ := exists_writesItems (e' :: es) (List.cons_ne_nil _ _) h.2
    exact ⟨_, .more hts (.ofRole _) hus⟩
termination_by structural es => es

/-- The arms can be written if there are some, or if the fallback can be. -/
theorem exists_writesArms : ∀ (arms : List (Expr × Expr)) (d : Option Expr), ArmsAreWritable arms →
    (d = none ∧ arms ≠ []) ∨ (∃ ts, WritesArms [] d ts) → ∃ ts, WritesArms arms d ts
  | [], _, _, h => h.elim (fun hd => (hd.2 rfl).elim) id
  | (p, r) :: arms, d, harms, h => by
    obtain ⟨ps, hp⟩ := exists_wraps (exists_writes p harms.1)
    obtain ⟨rs, hr⟩ := exists_wraps (exists_writes r harms.2.1)
    by_cases hlast : d = none ∧ arms = []
    · obtain ⟨rfl, rfl⟩ := hlast
      exact ⟨_, .last hp (.ofRole _) hr⟩
    · obtain ⟨us, hus⟩ := exists_writesArms arms d harms.2.2
        (h.imp_left fun hd => ⟨hd.1, fun ha => hlast ⟨hd.1, ha⟩⟩)
      exact ⟨_, .more hp (.ofRole _) hr (.ofRole _) hus⟩
termination_by structural arms => arms

end

end Expr

end Prose
