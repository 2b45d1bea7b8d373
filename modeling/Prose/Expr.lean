import Prose.Number.Decimal
import Prose.Position
import Prose.Text.Quoted
import Prose.Keyword

namespace Prose

inductive Literal where
  | number (value : Number.Decimal)
  | text (value : String)
  | character (value : Char)
  | boolean (value : Bool)
  | null
  deriving DecidableEq, Inhabited

inductive TypeName where
  | number | text | boolean | character | list
  deriving DecidableEq, Inhabited

inductive BinaryOp where
  | add | subtract | multiply | divide | modulo | power | conjunction | disjunction | equal
  | notEqual | greater | less | atLeast | atMost | bitAnd | bitOr | bitXor | shiftLeft
  | shiftRight | concat | contains
  deriving DecidableEq, Inhabited

inductive UnaryOp where
  | negation | negate | bitNot | absolute | squareRoot | length
  deriving DecidableEq, Inhabited

/-- An expression with the place of its first token. The arms of a match are pairs of a pattern and
a result. -/
inductive Expr where
  | literal (place : Position) (value : Literal)
  | identifier (place : Position) (name : String)
  | grouping (place : Position) (inner : Expr)
  | list (place : Position) (items : List Expr)
  | binary (place : Position) (left : Expr) (op : BinaryOp) (right : Expr)
  | unary (place : Position) (op : UnaryOp) (operand : Expr)
  | nullCheck (place : Position) (operand : Expr) (negated : Bool)
  | typeCheck (place : Position) (operand : Expr) (typeName : TypeName)
  | cast (place : Position) (operand : Expr) (target : TypeName)
  | index (place : Position) (collection index : Expr)
  | slice (place : Position) (collection start stop : Expr)
  | call (place : Position) (callee : String) (arguments : List Expr)
  | ternary (place : Position) (condition thenValue elseValue : Expr)
  | selection (place : Position) (subject : Expr) (arms : List (Expr × Expr))
      (fallback : Option Expr)
  deriving Inhabited

namespace TypeName

def ofKeyword? : Keyword → Option TypeName
  | .numberType => some number
  | .textType => some text
  | .booleanType => some boolean
  | .characterType => some character
  | .list => some list
  | _ => none

def word : TypeName → String
  | number => "number"
  | text => "text"
  | boolean => "boolean"
  | character => "character"
  | list => "list"

end TypeName

def BinaryOp.symbol : BinaryOp → String
  | add => "+"
  | subtract => "-"
  | multiply => "*"
  | divide => "/"
  | modulo => "%"
  | power => "^"
  | conjunction => "and"
  | disjunction => "or"
  | equal => "=="
  | notEqual => "!="
  | greater => ">"
  | less => "<"
  | atLeast => ">="
  | atMost => "<="
  | bitAnd => "&"
  | bitOr => "|"
  | bitXor => "xor"
  | shiftLeft => "<<"
  | shiftRight => ">>"
  | concat => "++"
  | contains => "contains"

def UnaryOp.symbol : UnaryOp → String
  | negation => "not"
  | negate => "neg"
  | bitNot => "~"
  | absolute => "abs"
  | squareRoot => "sqrt"
  | length => "len"

def Literal.pretty : Literal → String
  | number n => n.render
  | text s => Text.quoted '"' s.toList
  | character c => Text.quoted '\'' [c]
  | boolean b => if b then "true" else "false"
  | null => "null"

namespace Expr

def position : Expr → Position
  | literal p .. | identifier p .. | grouping p .. | list p .. | binary p .. | unary p ..
  | nullCheck p .. | typeCheck p .. | cast p .. | index p .. | slice p .. | call p ..
  | ternary p .. | selection p .. => p

def movedTo (place : Position) : Expr → Expr
  | literal _ v => literal place v
  | identifier _ n => identifier place n
  | grouping _ e => grouping place e
  | list _ es => list place es
  | binary _ l op r => binary place l op r
  | unary _ op e => unary place op e
  | nullCheck _ e b => nullCheck place e b
  | typeCheck _ e t => typeCheck place e t
  | cast _ e t => cast place e t
  | index _ c i => index place c i
  | slice _ c f t => slice place c f t
  | call _ f args => call place f args
  | ternary _ c t e => ternary place c t e
  | selection _ s arms d => selection place s arms d

def typeName : Expr → String
  | literal .. => "Literal"
  | identifier .. => "Identifier"
  | grouping .. => "Grouping"
  | list .. => "List"
  | binary .. => "Binary"
  | unary .. => "Unary"
  | nullCheck .. => "NullCheck"
  | typeCheck .. => "TypeCheck"
  | cast .. => "Cast"
  | index .. => "Index"
  | slice .. => "Slice"
  | call .. => "Call"
  | ternary .. => "Ternary"
  | selection .. => "Match"

mutual

/-- The expression as a prefix form in parentheses; a grouping leaves no trace. -/
def pretty : Expr → String
  | literal _ v => v.pretty
  | identifier _ n => n
  | grouping _ e => pretty e
  | list _ es => "[" ++ " ".intercalate (prettyList es) ++ "]"
  | binary _ l op r => "(" ++ op.symbol ++ " " ++ pretty l ++ " " ++ pretty r ++ ")"
  | unary _ op e => "(" ++ op.symbol ++ " " ++ pretty e ++ ")"
  | nullCheck _ e negated =>
    "(" ++ (if negated then "not-null?" else "null?") ++ " " ++ pretty e ++ ")"
  | typeCheck _ e t => "(is-a " ++ pretty e ++ " " ++ t.word ++ ")"
  | cast _ e t => "(cast " ++ pretty e ++ " " ++ t.word ++ ")"
  | index _ c i => "(item " ++ pretty i ++ " " ++ pretty c ++ ")"
  | slice _ c f t => "(slice " ++ pretty c ++ " " ++ pretty f ++ " " ++ pretty t ++ ")"
  | call _ f args => "(" ++ " ".intercalate ("call" :: f :: prettyList args) ++ ")"
  | ternary _ c t e => "(if " ++ pretty c ++ " " ++ pretty t ++ " " ++ pretty e ++ ")"
  | selection _ s arms d =>
    "(" ++ " ".intercalate ("match" :: pretty s :: prettyArms arms ++
      match d with
      | some e => ["(otherwise " ++ pretty e ++ ")"]
      | none => []) ++ ")"
termination_by structural e => e

def prettyList : List Expr → List String
  | [] => []
  | e :: es => pretty e :: prettyList es
termination_by structural es => es

def prettyArms : List (Expr × Expr) → List String
  | [] => []
  | (p, r) :: arms => ("(" ++ pretty p ++ " " ++ pretty r ++ ")") :: prettyArms arms
termination_by structural arms => arms

end

end Expr

end Prose
