import Prose.Expr.Form
import Prose.Inquiry
import Prose.Slice.Depth
import Prose.Token.Value

/-! How each form reads a whole slice. A form rejects the slice (`none`), accepts it, or commits to
it and fails. It commits once its leading word and every word that divides its parts are found; from
then on a part that cannot be read is a problem. The parts are read by asking for the reading of
shorter slices, so a form does not depend on the other forms. -/
namespace Prose

abbrev Reading := Option (Expr.Rule × Expr)

namespace Expr

abbrev Query := Inquiry Slice fun _ => Reading

def read (s : Slice) : Query Reading :=
  .question s

/-- The expression that a part of a committed form must be. The part is missing if it has no tokens,
and invalid if it cannot be read. -/
def requiredOr (missing invalid : Problem) (part : Slice) : Query Expr :=
  if part.isEmpty then .fail missing
  else do
    match ← read part with
    | some (_, e) => pure e
    | none => .fail invalid

def missingPart (origin name : String) (tokens : List Token) : Problem :=
  { cause := .missing name, origin, tokens }

def invalidPart (origin name : String) (tokens : List Token) : Problem :=
  { cause := .invalid name, origin, tokens }

def required (origin name : String) (part : Slice) (whole : List Token) : Query Expr :=
  requiredOr (missingPart origin name whole) (invalidPart origin name part.tokens) part

def requiredType (origin : String) (part : Slice) (whole : List Token) : Query TypeName :=
  let invalid := (invalidPart origin "type name" part.tokens).withHelp
    "use one of: number, text, boolean, character, list"
  match part.tokens with
  | [] => .fail (missingPart origin "a type name" whole)
  | [t] =>
    match TypeName.ofKeyword? t.keyword with
    | some n => pure n
    | none => .fail invalid
  | _ => .fail invalid

inductive Side where
  | before | after
  deriving DecidableEq

def Fixity.faces (f : Fixity) : Side → Bool
  | .before => f.isOpenRight
  | .after => f.isOpenLeft

/-- What an operand turns out to be. A looser operand can be read, but by a form that binds less
tightly than the operator and is open towards it; its tokens are not the operand's alone. -/
inductive Operand where
  | bound (e : Expr)
  | looser
  | unread

def ruleBehind (rule : Rule) (start : Nat) : List Token → Query Rule
  | _ :: t :: ts =>
    if rule.form.fixity = .transparent then do
      match ← read ⟨start + 1, t :: ts⟩ with
      | some (inner, _) => ruleBehind inner (start + 1) (t :: ts)
      | none => pure rule
    else pure rule
  | _ => pure rule

def operand (level : Nat) (side : Side) (part : Slice) : Query Operand := do
  match ← read part with
  | none => pure .unread
  | some (rule, e) =>
    let rule ← ruleBehind rule part.start part.tokens
    pure (if rule.form.fixity.faces side && rule.priority > level then .looser else .bound e)

/-- The required operand of a committed form. A form with a looser operand is rejected. -/
def requiredOperand (origin name : String) (level : Nat) (side : Side) (part : Slice)
    (whole : List Token) : Query (Option Expr) :=
  if part.isEmpty then .fail (missingPart origin name whole)
  else do
    match ← operand level side part with
    | .bound e => pure (some e)
    | .looser => pure none
    | .unread => .fail (invalidPart origin name part.tokens)

def literalOr (origin : String) (t : Token) (value : Except LiteralFault Literal) : Query Expr :=
  match value with
  | .ok v => pure (.literal t.position v)
  | .error fault => .fail { cause := .literal fault, origin, tokens := [t] }

/-- Reads `( E )`, where the two parentheses match. -/
def readParenthesized (s : Slice) : Query (Option Expr) :=
  match s.inside .openParen with
  | none => pure none
  | some ⟨inner, h⟩ => do
    let e ← required "parse_parenthesized" "an expression inside `( )`" inner s.tokens
    pure (some (.grouping (s.place (Slice.length_pos_of_inside h)) e))

/-- Reads `the E`. An article means nothing, so this form never commits. An expression that begins
with an operand is not read behind an article: the article belongs to the operand. -/
def readArticle (s : Slice) : Query (Option Expr) :=
  match s.tokens with
  | article :: t :: ts =>
    if article.keyword.isArticle then do
      match ← operand Form.identifier.level .after ⟨s.start + 1, t :: ts⟩ with
      | .bound e => pure (some (e.movedTo article.position))
      | _ => pure none
    else pure none
  | _ => pure none

/-- Reads `if C then A otherwise B`, where `otherwise if` goes on with a further condition. The
number bounds how often it does. -/
def readTernaryFrom : Nat → Slice → Query (Option Expr)
  | 0, _ => pure none
  | n + 1, s =>
    match s.seek .thenWord 1 with
    | none => pure none
    | some thenAt =>
      match thenAt.behind.seekOf [.otherwise, .otherwiseIf] with
      | none => pure none
      | some (elseAt, branch) => do
        let origin := "parse_ternary"
        let condition ← required origin "a condition" thenAt.before s.tokens
        let thenValue ← required origin "a value after `then`" elseAt.before s.tokens
        let elseValue ←
          if branch = .otherwiseIf then do
            let rest := elseAt.onward
            match ← readTernaryFrom n rest with
            | some e => pure e
            | none =>
              .fail (missingPart origin "`then` and `otherwise` after `otherwise if`" rest.tokens)
          else required origin "a value after `otherwise`" elseAt.behind s.tokens
        pure (some (.ternary thenAt.place condition thenValue elseValue))

def readTernary (s : Slice) : Query (Option Expr) :=
  if s.startsWith .ifWord then readTernaryFrom s.length s else pure none

/-- The arms of a match, and the result of a last arm `otherwise gives R`. -/
def readArms (whole : List Token) : List Slice → Query (List (Expr × Expr) × Option Expr)
  | [] => pure ([], none)
  | arm :: arms =>
    let origin := "parse_match"
    match arm.seek .gives 0 with
    | none => .fail (missingPart origin "`gives`" (if arm.isEmpty then whole else arm.tokens))
    | some givesAt => do
      let result ← required origin "a result after `gives`" givesAt.behind arm.tokens
      if givesAt.1 = 1 ∧ arm.startsWith .otherwise then
        if arms.isEmpty then pure ([], some result)
        else
          .fail ((invalidPart origin "arm order" arm.tokens).withHelp
            "`otherwise gives` must be the last arm")
      else do
        let pattern ← required origin "a pattern before `gives`" givesAt.upTo arm.tokens
        let (rest, fallback) ← readArms whole arms
        pure ((pattern, result) :: rest, fallback)

/-- Reads `match E with P gives R , P gives R , otherwise gives R`. -/
def readSelection (s : Slice) : Query (Option Expr) :=
  match s.seekBehind .matchWord .withWord with
  | none => pure none
  | some withAt => do
    let origin := "parse_match"
    let subject ← required origin "a value to match" withAt.before s.tokens
    let arms := withAt.behind
    if arms.isEmpty then .fail (missingPart origin "at least one `gives` arm" s.tokens)
    else do
      let (arms, fallback) ← readArms s.tokens (arms.split .comma)
      pure (some (.selection withAt.place subject arms fallback))

/-- The first of the given splits of a slice at an operator whose two sides are operands of their
own. An operator at an end of the slice divides nothing. -/
def chooseSplit (s : Slice) (l : OperatorLevel) : List (s.Index 0) → Query (Option Expr)
  | [] => pure none
  | i :: is =>
    match if i.1 = 0 ∨ i.1 + 1 = s.length then none
      else s.tokens[i.1]?.bind fun t => l.operators.lookup t.keyword with
    | none => chooseSplit s l is
    | some op => do
      match ← operand l.level .before i.upTo with
      | .bound left =>
        match ← operand l.level .after i.behind with
        | .bound right => pure (some (.binary i.place left op right))
        | _ => chooseSplit s l is
      | _ => chooseSplit s l is

/-- Reads `A op B`. Operators that group to the left are tried from the last one, the others from
the first. -/
def readOperators (l : OperatorLevel) (s : Slice) : Query (Option Expr) :=
  let positions := s.seekAny (l.operators.map (·.1))
  chooseSplit s l (if l.groupsRight then positions else positions.reverse)

/-- Reads `not X`, `the length of X` and the like. -/
def readUnary (op : UnaryOp) (s : Slice) : Query (Option Expr) :=
  if h : s.startsWith (unaryLead op) ∧ 2 ≤ s.length then do
    have hlength := s.length_pos_of_startsWith h.1
    match ← requiredOperand (unaryOrigin op) "operand" (unaryLevel op) .after (s.onward 1 hlength)
        s.tokens with
    | some e => pure (some (.unary (s.place hlength) op e))
    | none => pure none
  else pure none

def phraseHelp (lead : Token) : String :=
  "write it as `" ++ lead.text ++ " A and B`"

/-- The first of the given splits of the tokens behind the lead of an arithmetic phrase whose sides
can be read. With none the phrase is rejected if a right side was looser, and a problem otherwise.
-/
def choosePhraseSplit (p : ArithmeticPhrase) (lead : Token) (whole : List Token) (operands : Slice)
    (looser : Bool) : List (operands.Index 0) → Query (Option Expr)
  | [] =>
    if looser then pure none
    else .fail ((invalidPart p.origin "operands" whole).withHelp (phraseHelp lead))
  | i :: is => do
    match ← read i.upTo with
    | none => choosePhraseSplit p lead whole operands looser is
    | some (_, left) =>
      match ← operand p.level .after i.behind with
      | .bound right => pure (some (.binary lead.position left p.op right))
      | .looser => choosePhraseSplit p lead whole operands true is
      | .unread => choosePhraseSplit p lead whole operands looser is

/-- Reads `the sum of A and B` and the like; committed once an `and` follows the lead. -/
def readPhrase (p : ArithmeticPhrase) (s : Slice) : Query (Option Expr) :=
  if h : s.startsWith p.lead then
    have hlength := s.length_pos_of_startsWith h
    let operands := s.onward 1 hlength
    let ands := operands.seekAll .andWord
    let inner := ands.filter fun i => 0 < i.1 && i.1 + 1 < operands.length
    if ands.isEmpty then pure none
    else if inner.isEmpty then
      .fail ((missingPart p.origin "an operand on each side of `and`" s.tokens).withHelp
        (phraseHelp (s.lead hlength)))
    else choosePhraseSplit p (s.lead hlength) s.tokens operands false inner
  else pure none

/-- Reads `E is a TYPE`, divided at the last `is a`. -/
def readTypeCheck (s : Slice) : Query (Option Expr) :=
  match (s.seekAll .isA).getLast? with
  | none => pure none
  | some i =>
    if i.1 = 0 ∨ i.1 + 1 = s.length then pure none
    else do
      let origin := "parse_type_check"
      let typeName ← requiredType origin i.behind s.tokens
      match ← requiredOperand origin "a value to test" Form.typeCheck.level .before i.upTo
          s.tokens with
      | some e => pure (some (.typeCheck i.place e typeName))
      | none => pure none

/-- Reads `E is null` and `E is not null`. -/
def readNullCheck (s : Slice) : Query (Option Expr) :=
  let negated? : Option Bool :=
    match s.tokens.getLast?.map (·.keyword) with
    | some Keyword.isNull => some false
    | some Keyword.isNotNull => some true
    | _ => none
  match negated? with
  | none => pure none
  | some negated =>
    if h : s.length ≤ 1 then pure none
    else do
      have hlength : 0 < s.length := Nat.lt_of_succ_lt (Nat.lt_of_not_le h)
      match ← requiredOperand "parse_null_check" "a value to test" Form.nullCheck.level .before
          (s.upTo (s.length - 1) (Nat.sub_le ..)) s.tokens with
      | some e => pure (some (.nullCheck (s.place hlength) e negated))
      | none => pure none

/-- Reads `cast E as a TYPE`. -/
def readCast (s : Slice) : Query (Option Expr) :=
  match s.seekBehind .cast .asA with
  | none => pure none
  | some asAt => do
    let origin := "parse_cast"
    let e ← required origin "a value to cast" asAt.before s.tokens
    let target ← requiredType origin asAt.behind s.tokens
    pure (some (.cast asAt.place e target))

/-- Reads `slice E from A to B`. -/
def readSlice (s : Slice) : Query (Option Expr) :=
  match s.seekBehind .slice .fromWord with
  | none => pure none
  | some fromAt =>
    match s.seek .to (fromAt.1 + 1) with
    | none => pure none
    | some toAt => do
      let origin := "parse_slice"
      let collection ← required origin "a list to slice" fromAt.before s.tokens
      let start ← required origin "a start after `from`" toAt.before s.tokens
      match ← requiredOperand origin "an end after `to`" Form.slice.level .after toAt.behind
          s.tokens with
      | some stop => pure (some (.slice toAt.place collection start stop))
      | none => pure none

/-- The list behind the index of an element. -/
def readCollection (s : Slice) (place : Position) (index : Expr) (rest : Slice) :
    Query (Option Expr) := do
  match ← requiredOperand "parse_index" "a list after `of`" Form.index.level .after rest
      s.tokens with
  | some collection => pure (some (.index place collection index))
  | none => pure none

def readIndex (s : Slice) : Query (Option Expr) :=
  let origin := "parse_index"
  if s.startsWith .item ∨ s.startsWith .element then
    match s.seek .of 1 with
    | none => pure none
    | some ofAt => do
      let index ← required origin "a position" ofAt.before s.tokens
      readCollection s ofAt.place index ofAt.behind
  else
    match s.tokens with
    | first :: noun :: preposition :: rest =>
      if first.keyword = .ordinal ∧ (noun.keyword = .item ∨ noun.keyword = .element) ∧
          preposition.keyword = .of then do
        let index ← literalOr origin first first.ordinalValue
        readCollection s first.position index ⟨s.start + 3, rest⟩
      else pure none
    | _ => pure none

/-- The items of a list form. Only the last of them lies open at the end of the form. -/
def readItems (origin name : String) (level : Nat) (whole : List Token) :
    List Slice → Query (Option (List Expr))
  | [] => pure (some [])
  | [last] => do
    match ← requiredOperand origin name level .after last whole with
    | some e => pure (some [e])
    | none => pure none
  | part :: parts => do
    let e ← required origin name part whole
    match ← readItems origin name level whole parts with
    | some es => pure (some (e :: es))
    | none => pure none

/-- Reads `call $f` and `call $f with A , B`. -/
def readCall (s : Slice) : Query (Option Expr) :=
  let origin := "parse_call"
  match if s.startsWith .call then s.tokens else [] with
  | lead :: f :: rest =>
    match f.name? with
    | none =>
      .fail ((invalidPart origin "function name" [f]).withHelp
        "function names start with `$`, as in `call $greet`")
    | some callee =>
      match rest with
      | [] => pure (some (.call lead.position callee []))
      | [t] =>
        if t.keyword = .withWord then .fail (missingPart origin "arguments after `with`" s.tokens)
        else .fail (missingPart origin "`with` before the arguments" s.tokens)
      | t :: items =>
        if t.keyword = .withWord then do
          match ← readItems origin "an argument" Form.call.level s.tokens
              (Slice.split ⟨s.start + 3, items⟩ .comma) with
          | some arguments => pure (some (.call lead.position callee arguments))
          | none => pure none
        else .fail (missingPart origin "`with` before the arguments" s.tokens)
  | _ => pure none

/-- Reads `a list of A , B , C` and `an empty list`. -/
def readList (s : Slice) : Query (Option Expr) :=
  if h : s.length = 1 ∧ s.startsWith .emptyList then
    pure (some (.list (s.place (s.length_pos_of_startsWith h.2)) []))
  else if h : 2 ≤ s.length ∧ s.startsWith .listOf then do
    have hlength := s.length_pos_of_startsWith h.2
    match ← readItems "parse_list_literal" "a list item" Form.list.level s.tokens
        ((s.onward 1 hlength).split .comma) with
    | some items => pure (some (.list (s.place hlength) items))
    | none => pure none
  else pure none

def readToken (s : Slice) (value : Token → Option (Query Expr)) : Query (Option Expr) :=
  match s.tokens with
  | [t] =>
    match value t with
    | some e => some <$> e
    | none => pure none
  | _ => pure none

def readNumber (s : Slice) : Query (Option Expr) :=
  readToken s fun t =>
    if t.kind = .number then some (literalOr "parse_number" t t.numberValue) else none

def readOrdinal (s : Slice) : Query (Option Expr) :=
  readToken s fun t =>
    if t.keyword = .ordinal then some (literalOr "parse_ordinal" t t.ordinalValue) else none

def readText (s : Slice) : Query (Option Expr) :=
  readToken s fun t =>
    match t.kind with
    | .string => some (literalOr "parse_text" t (t.unescaped.map .text))
    | .character => some (literalOr "parse_text" t t.characterValue)
    | _ => none

def constant? : Keyword → Option Literal
  | .trueWord => some (.boolean true)
  | .falseWord => some (.boolean false)
  | .null => some .null
  | _ => none

def readConstant (s : Slice) : Query (Option Expr) :=
  readToken s fun t => (constant? t.keyword).map fun v => pure (.literal t.position v)

def readIdentifier (s : Slice) : Query (Option Expr) :=
  readToken s fun t => t.name?.map fun n => pure (.identifier t.position n)

def Form.read : Form → Slice → Query (Option Expr)
  | parenthesized => readParenthesized
  | article => readArticle
  | ternary => readTernary
  | selection => readSelection
  | operators l => readOperators l
  | unary op => readUnary op
  | typeCheck => readTypeCheck
  | nullCheck => readNullCheck
  | phrase p => readPhrase p
  | cast => readCast
  | slice => readSlice
  | index => readIndex
  | call => readCall
  | list => readList
  | number => readNumber
  | ordinal => readOrdinal
  | text => readText
  | constant => readConstant
  | identifier => readIdentifier

end Expr

end Prose
