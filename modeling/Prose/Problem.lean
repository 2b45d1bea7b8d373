import Prose.Token.Lexer

namespace Prose

inductive Problem.Code where
  | unrecognized | missingPart | invalidLiteral | malformedChain | blockStructure | nestingLimit
  | invalidPart
  deriving DecidableEq

def Problem.Code.text : Problem.Code → String
  | unrecognized => "C0001"
  | missingPart => "C0002"
  | invalidLiteral => "C0003"
  | malformedChain => "C0004"
  | blockStructure => "C0005"
  | nestingLimit => "C0006"
  | invalidPart => "C0007"

/-- Why a literal has no value. The texts are those of the words and tokens at fault. -/
inductive LiteralFault where
  | tooLarge
  | notADigitWord (word : String)
  | scaleAfterPoint (word : String)
  | secondPoint
  | notANumber (text : String)
  | notAnOrdinal (text : String)
  | notACharacter (text : String)
  | withoutQuotes
  | unknownEscape (c : Char)
  | loneBackslash
  deriving DecidableEq

inductive ChainFault where
  | empty
  | withoutIf
  | withoutThen (lead : String)
  | withoutPredecessor (lead : String)
  | otherwiseNotLast
  | unexpectedClause
  | missing (part : String)
  | invalid (part : String)
  deriving DecidableEq

inductive StructureFault where
  | neverOpened (closer : String)
  | neverClosed
  | doNeverClosed
  | withoutTerminator
  deriving DecidableEq

/-- What is wrong. `stated` carries a wording of its own. -/
inductive Problem.Cause where
  | unrecognized (what : String)
  | missing (part : String)
  | invalid (part : String)
  | literal (fault : LiteralFault)
  | chain (fault : ChainFault)
  | blocks (fault : StructureFault)
  | tooDeep (limit : Nat)
  | lexical (error : LexicalError)
  | stated (code : Problem.Code) (text : String)
  deriving DecidableEq

/-- A problem that ends the reading of a statement: its cause, the name of the rule that raised it,
the tokens at fault and a hint. -/
structure Problem where
  cause : Problem.Cause
  origin : String
  tokens : List Token
  help : Option String := none
  deriving DecidableEq

def LiteralFault.message : LiteralFault → String
  | tooLarge => "number is too large"
  | notADigitWord w => "only digit words may follow `point`, found `" ++ w ++ "`"
  | scaleAfterPoint w => "`" ++ w ++ "` cannot follow `point`"
  | secondPoint => "a number cannot contain two decimal points"
  | notANumber t => "`" ++ t ++ "` is not a valid number"
  | notAnOrdinal t => "`" ++ t ++ "` is not an ordinal"
  | notACharacter t => t ++ " is not a single character"
  | withoutQuotes => "literal is missing its quotes"
  | unknownEscape c => "unknown escape `\\" ++ c.toString ++ "`"
  | loneBackslash => "literal ends with a lone `\\`"

def StructureFault.message : StructureFault → String
  | neverOpened t => "`" ++ t ++ "` closes a block that was never opened"
  | neverClosed => "statement opens a block that is never closed"
  | doNeverClosed => "`do` block is never closed"
  | withoutTerminator => "statement is missing its closing `.`"

namespace Problem

def missingText (part shown : String) : String :=
  "expected " ++ part ++ " in `" ++ shown ++ "`"

def invalidText (part shown : String) : String :=
  part ++ " `" ++ shown ++ "` could not be parsed"

end Problem

def ChainFault.message (shown : String) : ChainFault → String
  | empty => "empty conditional"
  | withoutIf => "a conditional must start with `if`"
  | withoutThen lead => "`" ++ lead ++ "` has no `then`"
  | withoutPredecessor lead => "`" ++ lead ++ "` without a preceding `if`"
  | otherwiseNotLast => "`otherwise` must be the last branch of a conditional"
  | unexpectedClause => "unexpected `" ++ shown ++ "` in a conditional"
  | missing part => Problem.missingText part shown
  | invalid part => Problem.invalidText part shown

namespace Problem

def Cause.code : Cause → Code
  | unrecognized _ => .unrecognized
  | missing _ => .missingPart
  | invalid _ => .invalidPart
  | literal _ => .invalidLiteral
  | chain _ => .malformedChain
  | blocks _ => .blockStructure
  | tooDeep _ => .nestingLimit
  | lexical _ => .unrecognized
  | stated code _ => code

def code (p : Problem) : Code :=
  p.cause.code

def message (p : Problem) : String :=
  let shown := Token.render p.tokens
  match p.cause with
  | .unrecognized what => "could not understand " ++ what ++ " `" ++ shown ++ "`"
  | .missing part => missingText part shown
  | .invalid part => invalidText part shown
  | .literal fault => fault.message
  | .chain fault => fault.message shown
  | .blocks fault => fault.message
  | .tooDeep limit => "nesting is deeper than " ++ toString limit ++ " levels"
  | .lexical error => error.message
  | .stated _ text => text

def render (p : Problem) : String :=
  "error[" ++ p.code.text ++ "] in " ++ p.origin ++ ": " ++ p.message

def position? (p : Problem) : Option Position :=
  p.tokens.head?.map (·.position)

def withHelp (p : Problem) (help : String) : Problem :=
  { p with help := some help }

/-- A lexical error as a problem; it points at an empty token in the place of the error. -/
def ofLexicalError (e : LexicalError) : Problem :=
  { cause := .lexical e, origin := "tokenize", tokens := [⟨.operator, "", .unknown, e.position⟩] }

end Problem

end Prose
