import Prose.Expr
import Prose.Problem
import Prose.Slice
import Prose.Token.Shape

namespace Prose

namespace Text

def unescapeChar? : Char → Option Char
  | 'n' => some '\n'
  | 't' => some '\t'
  | 'r' => some '\r'
  | '0' => some '\x00'
  | '"' => some '"'
  | '\'' => some '\''
  | '\\' => some '\\'
  | _ => none

def unescape : List Char → Except LiteralFault (List Char)
  | [] => .ok []
  | ['\\'] => .error .loneBackslash
  | '\\' :: c :: cs =>
    match unescapeChar? c with
    | some d => (unescape cs).map (d :: ·)
    | none => .error (.unknownEscape c)
  | c :: cs => (unescape cs).map (c :: ·)

/-- What stands between the first and the last character, which must be of one byte each. -/
def withoutQuotes? : List Char → Option (List Char)
  | [] => none
  | c :: cs =>
    match cs.getLast? with
    | some d => if c.utf8Size = 1 ∧ d.utf8Size = 1 then some cs.dropLast else none
    | none => none

end Text

namespace Token

/-- The name of an identifier token. A token with an identifier's kind and letters beyond ASCII has
no name. -/
def name? (t : Token) : Option String :=
  if t.kind = .identifier ∧ Shape.ofText t.text = .identifier then some t.text else none

def unescaped (t : Token) : Except LiteralFault String :=
  match Text.withoutQuotes? t.text.toList with
  | none => .error .withoutQuotes
  | some cs => (Text.unescape cs).map String.ofList

def numberValue (t : Token) : Except LiteralFault Literal :=
  match if Shape.ofText t.text = .number then Number.Decimal.read? t.text.toList else none with
  | some n => .ok (.number n)
  | none => .error (.notANumber t.text)

def ordinalValue (t : Token) : Except LiteralFault Literal :=
  match (Number.ordinal? (Text.fold t.text)).bind Number.Decimal.ofNat? with
  | some n => .ok (.number n)
  | none => .error (.notAnOrdinal t.text)

def characterValue (t : Token) : Except LiteralFault Literal := do
  let s ← t.unescaped
  match s.toList with
  | [c] => .ok (.character c)
  | _ => .error (.notACharacter t.text)

end Token

def Slice.name? (s : Slice) : Option String :=
  match s.tokens with
  | [t] => t.name?
  | _ => none

theorem Slice.length_of_name? {s : Slice} {n : String} (h : s.name? = some n) : s.length = 1 := by
  obtain ⟨a, _ | ⟨t, _ | ⟨u, ts⟩⟩⟩ := s
  · cases h
  · rfl
  · cases h

end Prose
