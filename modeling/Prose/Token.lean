import Prose.Position
import Prose.Vocabulary

namespace Prose

inductive Token.Kind where
  | word | identifier | number | string | character | punctuation | operator
  deriving DecidableEq, Inhabited

/-- A piece of source text; quotes and escapes of a literal belong to its text. -/
structure Token where
  kind : Token.Kind
  text : String
  keyword : Keyword
  position : Position
  deriving DecidableEq, Inhabited

namespace Token

/-- Names and literals play no grammar role, whatever they spell. -/
def Kind.isPlain : Kind → Bool
  | string | character | identifier | number => true
  | _ => false

def ofText (kind : Kind) (text : String) (position : Position) : Token :=
  ⟨kind, text, if kind.isPlain then .unknown else .ofText text, position⟩

def render (tokens : List Token) : String :=
  " ".intercalate (tokens.map text)

end Token

end Prose
