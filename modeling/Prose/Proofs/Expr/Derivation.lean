import Prose.Expr.Reading
import Prose.Proofs.Expr.Writing

/-! The grammar of expressions as a relation between expressions and tokens, without an order of the
forms and without priorities. Places are those of first tokens. -/
namespace Prose

namespace Token

def firstPlace (ts : List Token) : Position :=
  (ts.head?.map (·.position)).getD .unknown

inductive Spells (t : Token) : Literal → Prop
  | number {v} (hk : t.kind = .number) (hv : t.numberValue = .ok v) : t.Spells v
  | ordinal {v} (hk : t.keyword = .ordinal) (hv : t.ordinalValue = .ok v) : t.Spells v
  | text {x} (hk : t.kind = .string) (hv : t.unescaped = .ok x) : t.Spells (.text x)
  | character {v} (hk : t.kind = .character) (hv : t.characterValue = .ok v) : t.Spells v
  | constant {v} (hv : Expr.constant? t.keyword = some v) : t.Spells v

end Token

namespace Expr

mutual

inductive Derives : Expr → List Token → Prop
  | literal {v} {t : Token} (h : t.Spells v) : Derives (literal t.position v) [t]
  | identifier {n} {t : Token} (h : t.name? = some n) : Derives (identifier t.position n) [t]
  | grouping {e ts} {o c : Token} (ho : o.keyword = .openParen) (h : Derives e ts)
      (hc : c.keyword = .closeParen) : Derives (grouping o.position e) (o :: (ts ++ [c]))
  | article {e ts} {t : Token} (ht : t.keyword.isArticle = true) (h : Derives e ts) :
      Derives (e.movedTo t.position) (t :: ts)
  | emptyList {t : Token} (ht : t.keyword = .emptyList) : Derives (list t.position []) [t]
  | list {es ts} {t : Token} (ht : t.keyword = .listOf) (h : DerivesItems es ts) :
      Derives (list t.position es) (t :: ts)
  | binary {l r op ls rs} {t : Token} (hl : Derives l ls) (ht : t.keyword = BinaryOp.role op)
      (hr : Derives r rs) :
      Derives (binary (Token.firstPlace (ls ++ t :: rs)) l op r) (ls ++ t :: rs)
  | unary {e op ts} {t : Token} (ht : t.keyword = unaryLead op) (h : Derives e ts) :
      Derives (unary t.position op e) (t :: ts)
  | phrase {l r ls rs} {p : ArithmeticPhrase} {t u : Token} (ht : t.keyword = p.lead)
      (hl : Derives l ls) (hu : u.keyword = .andWord) (hr : Derives r rs) :
      Derives (binary t.position l p.op r) (t :: (ls ++ u :: rs))
  | nullCheck {e ts} {negated : Bool} {t : Token} (h : Derives e ts)
      (ht : t.keyword = if negated then .isNotNull else .isNull) :
      Derives (nullCheck (Token.firstPlace (ts ++ [t])) e negated) (ts ++ [t])
  | typeCheck {e n ts} {t u : Token} (h : Derives e ts) (ht : t.keyword = .isA)
      (hu : TypeName.ofKeyword? u.keyword = some n) :
      Derives (typeCheck (Token.firstPlace (ts ++ [t, u])) e n) (ts ++ [t, u])
  | cast {e n ts} {t u v : Token} (ht : t.keyword = .cast) (h : Derives e ts)
      (hu : u.keyword = .asA) (hv : TypeName.ofKeyword? v.keyword = some n) :
      Derives (cast t.position e n) (t :: (ts ++ [u, v]))
  | index {c i cs is} {t u : Token} (ht : t.keyword = .item ∨ t.keyword = .element)
      (hi : Derives i is) (hu : u.keyword = .of) (hc : Derives c cs) :
      Derives (index t.position c i) (t :: (is ++ u :: cs))
  | ordinalIndex {c v cs} {t u w : Token} (ht : t.keyword = .ordinal) (hv : t.ordinalValue = .ok v)
      (hu : u.keyword = .item ∨ u.keyword = .element) (hw : w.keyword = .of) (hc : Derives c cs) :
      Derives (index t.position c (literal t.position v)) (t :: u :: w :: cs)
  | slice {c a b cs as bs} {t u v : Token} (ht : t.keyword = .slice) (hc : Derives c cs)
      (hu : u.keyword = .fromWord) (ha : Derives a as) (hv : v.keyword = .to)
      (hb : Derives b bs) : Derives (slice t.position c a b) (t :: (cs ++ u :: (as ++ v :: bs)))
  | call {n} {t u : Token} (ht : t.keyword = .call) (hu : u.name? = some n) :
      Derives (call t.position n []) [t, u]
  | callWith {n es ts} {t u v : Token} (ht : t.keyword = .call) (hu : u.name? = some n)
      (hv : v.keyword = .withWord) (h : DerivesItems es ts) :
      Derives (call t.position n es) (t :: u :: v :: ts)
  | ternary {e ts} {t : Token} (ht : t.keyword = .ifWord) (h : DerivesTernary e (t :: ts)) :
      Derives e (t :: ts)
  | selection {e arms d ss ts} {t u : Token} (ht : t.keyword = .matchWord) (hs : Derives e ss)
      (hu : u.keyword = .withWord) (h : DerivesArms arms d ts) :
      Derives (selection t.position e arms d) (t :: (ss ++ u :: ts))

inductive DerivesTernary : Expr → List Token → Prop
  | last {c a b cs as bs} {t u v : Token} (hc : Derives c cs) (hu : u.keyword = .thenWord)
      (ha : Derives a as) (hv : v.keyword = .otherwise) (hb : Derives b bs) :
      DerivesTernary (ternary t.position c a b) (t :: (cs ++ u :: (as ++ v :: bs)))
  | more {c a b cs as bs} {t u v : Token} (hc : Derives c cs) (hu : u.keyword = .thenWord)
      (ha : Derives a as) (hv : v.keyword = .otherwiseIf) (hb : DerivesTernary b (v :: bs)) :
      DerivesTernary (ternary t.position c a b) (t :: (cs ++ u :: (as ++ v :: bs)))

inductive DerivesItems : List Expr → List Token → Prop
  | last {e ts} (h : Derives e ts) : DerivesItems [e] ts
  | more {e es ts us} {t : Token} (h : Derives e ts) (ht : t.keyword = .comma)
      (hes : DerivesItems es us) : DerivesItems (e :: es) (ts ++ t :: us)

inductive DerivesArms : List (Expr × Expr) → Option Expr → List Token → Prop
  | last {p r ps rs} {t : Token} (hp : Derives p ps) (ht : t.keyword = .gives)
      (hr : Derives r rs) : DerivesArms [(p, r)] none (ps ++ t :: rs)
  | fallback {d ds} {t u : Token} (ht : t.keyword = .otherwise) (hu : u.keyword = .gives)
      (hd : Derives d ds) : DerivesArms [] (some d) (t :: u :: ds)
  | more {p r arms d ps rs us} {t u : Token} (hp : Derives p ps) (ht : t.keyword = .gives)
      (hr : Derives r rs) (hu : u.keyword = .comma) (h : DerivesArms arms d us) :
      DerivesArms ((p, r) :: arms) d ((ps ++ t :: rs) ++ u :: us)

end

/-- An expression has a token. -/
theorem Derives.ne_nil {e : Expr} {ts : List Token} (h : e.Derives ts) : ts ≠ [] := by
  cases h <;> simp

end Expr

end Prose
