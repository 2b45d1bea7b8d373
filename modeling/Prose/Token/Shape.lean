import Prose.Text.Numeric
import Prose.Vocabulary

namespace Prose

inductive Shape where
  | number | string | character | boolean | null | identifier | other
  deriving DecidableEq, Inhabited

namespace Shape

def isDigits (cs : List Char) : Bool :=
  !cs.isEmpty && cs.all Text.isDecimalDigit

def isUnsigned (cs : List Char) : Bool :=
  match cs.dropWhile (· != '.') with
  | [] => isDigits cs
  | _ :: fraction => isDigits (cs.takeWhile (· != '.')) && isDigits fraction

def isNumber : List Char → Bool
  | '-' :: cs => isUnsigned cs
  | cs => isUnsigned cs

/-- What follows the opening quote of a text: any characters but a quote, a backslash always with
the character behind it, which is on the same line, and last the closing quote. -/
def closesString : List Char → Bool
  | [] => false
  | ['"'] => true
  | '\\' :: c :: cs => c != '\n' && closesString cs
  | c :: cs => c != '"' && c != '\\' && closesString cs

def isString : List Char → Bool
  | '"' :: cs => closesString cs
  | _ => false

def isCharacter : List Char → Bool
  | ['\'', c, '\''] => c != '\'' && c != '\\'
  | ['\'', b, c, '\''] => b == '\\' && c != '\n'
  | _ => false

def startsName (c : Char) : Bool :=
  c.isAlpha || c == '_'

def isIdentifier : List Char → Bool
  | '$' :: c :: cs => startsName c && cs.all fun d => startsName d || d.isDigit
  | _ => false

def ofText (text : String) : Shape :=
  if isNumber text.toList then .number
  else if isString text.toList then .string
  else if isCharacter text.toList then .character
  else if isIdentifier text.toList then .identifier
  else
    match Keyword.ofText text with
    | .trueWord | .falseWord => .boolean
    | .null => .null
    | _ => .other

end Shape

end Prose
