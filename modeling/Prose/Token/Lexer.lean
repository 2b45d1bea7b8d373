import Prose.Text.Alphabetic
import Prose.Text.Numeric
import Prose.Token

/-! Source text to tokens. The text is cut into pieces from the left; each piece is a token or a
gap, and nothing of the text is left out. -/
namespace Prose

inductive LexicalFault where
  | unterminatedString
  | unterminatedCharacter
  | unexpected (found : Char)
  deriving DecidableEq

structure LexicalError where
  fault : LexicalFault
  position : Position
  deriving DecidableEq

namespace LexicalError

def message (e : LexicalError) : String :=
  match e.fault with
  | .unterminatedString => "unterminated string starting at " ++ e.position.render
  | .unterminatedCharacter => "unterminated character literal at " ++ e.position.render
  | .unexpected c => "unexpected character `" ++ c.toString ++ "` at " ++ e.position.render

end LexicalError

namespace Lexer

structure Piece where
  kind : Option Token.Kind
  text : List Char
  deriving DecidableEq

def startsWord (c : Char) : Bool :=
  Text.isAlphabetic c || c == '_'

def continuesWord (c : Char) : Bool :=
  Text.isAlphabetic c || Text.isNumeric c || c == '_'

/-- The rest of a text literal through its closing quote; a backslash takes the next character with
it. -/
def stringTail : List Char → Option (List Char)
  | [] => none
  | '"' :: _ => some ['"']
  | ['\\'] => none
  | '\\' :: c :: cs => (stringTail cs).map fun t => '\\' :: c :: t
  | c :: cs => (stringTail cs).map (c :: ·)

def characterTail : List Char → Option (List Char)
  | '\\' :: c :: '\'' :: _ => some ['\\', c, '\'']
  | c :: '\'' :: _ => if c == '\\' || c == '\n' then none else some [c, '\'']
  | _ => none

/-- The digits that continue a number, with a point only where a digit follows it. -/
def numberTail (cs : List Char) : List Char :=
  cs.takeWhile Char.isDigit ++
    match cs.dropWhile Char.isDigit with
    | '.' :: d :: rest => if d.isDigit then '.' :: d :: rest.takeWhile Char.isDigit else []
    | _ => []

def piece (c : Char) (cs : List Char) : Except LexicalFault Piece :=
  if [' ', '\r', '\t', '\n'].contains c then .ok ⟨none, [c]⟩
  else if c == '#' then .ok ⟨none, c :: cs.takeWhile (· != '\n')⟩
  else if ['.', ',', ';', ':', '(', ')', '\x7b', '\x7d'].contains c then
    .ok ⟨some .punctuation, [c]⟩
  else if c == '"' then
    match stringTail cs with
    | some t => .ok ⟨some .string, c :: t⟩
    | none => .error .unterminatedString
  else if c == '\'' then
    match characterTail cs with
    | some t => .ok ⟨some .character, c :: t⟩
    | none => .error .unterminatedCharacter
  else if c == '$' then
    match cs with
    | d :: _ =>
      if startsWord d then .ok ⟨some .identifier, c :: cs.takeWhile continuesWord⟩
      else .error (.unexpected c)
    | [] => .error (.unexpected c)
  else if c.isDigit then .ok ⟨some .number, c :: numberTail cs⟩
  else if startsWord c then .ok ⟨some .word, c :: cs.takeWhile continuesWord⟩
  else if ['+', '-', '*', '/', '=', '<', '>', '!', '%', '&', '|', '^', '?'].contains c then
    .ok ⟨some .operator, [c]⟩
  else .error (.unexpected c)

/-- The tokens of a text whose first character stands at `p`. Each piece takes at least one
character, so as many steps as there are characters are enough. -/
def tokensFrom : Nat → Position → List Char → Except LexicalError (List Token)
  | 0, _, _ => .ok []
  | _ + 1, _, [] => .ok []
  | n + 1, p, c :: cs =>
    match piece c cs with
    | .error fault => .error ⟨fault, p⟩
    | .ok piece => do
      let rest ← tokensFrom n (piece.text.foldl Position.after p) ((c :: cs).drop piece.text.length)
      match piece.kind with
      | some kind => .ok (.ofText kind (String.ofList piece.text) p :: rest)
      | none => .ok rest

end Lexer

def tokenize (source name : String) : Except LexicalError (List Token) :=
  Lexer.tokensFrom source.toList.length ⟨1, 1, name⟩ source.toList

end Prose
