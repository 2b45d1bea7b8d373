import Prose.Block
import Prose.Condense

namespace Prose

/-- All that a parse produced: the statements that could be read, the problems of those that could
not, the log, what the observers were told, and the trace. -/
structure Parsed where
  nodes : List Stmt
  errors : List Problem
  logs : List LogEntry
  deliveries : List Delivery
  trace : List TraceRecord

def Parsed.isClean (p : Parsed) : Bool :=
  p.errors.isEmpty

/-- A parser has options and observers, who are told of every later parse. It can be used again. -/
structure Parser where
  options : Options := {}
  observers : Nat := 0
  deriving DecidableEq, Inhabited

namespace Parser

def subscribe (p : Parser) : Parser :=
  { p with observers := p.observers + 1 }

def session (p : Parser) : Session :=
  .start p.options p.observers

def collect (nodes : List Stmt) (σ : Session) : Parsed :=
  ⟨nodes, σ.errors.toList, σ.logs.toList, σ.deliveries.toList, σ.trace.toList⟩

def abort (p : Parser) (e : Problem) : Parsed :=
  { collect [] ((p.session.record (.aborted e)).notify (.error e)) with errors := [e] }

def program (count : Nat) (tokens : List Token) : StateM Session (List Stmt) := do
  let name := (← get).options.sourceName
  modify (·.log .debug ("parsing `" ++ name ++ "`: " ++ toString count ++ " tokens (" ++
    toString tokens.length ++ " after condensing)"))
  let nodes ← Parse.block .standard (.ofTokens tokens)
  modify fun σ => σ.log .info ("parsed " ++ toString nodes.length ++ " statements with " ++
    toString σ.errors.size ++ " errors")
  return nodes

/-- Parses tokens. There is no answer only where a spelled-out fraction has too many places. -/
def parse (p : Parser) (tokens : List Token) : Option Parsed :=
  match condense tokens with
  | .error (.problem e) => some (p.abort e)
  | .error .placesExhausted => none
  | .ok condensed =>
    let (nodes, σ) := (program tokens.length condensed).run p.session
    some (collect nodes σ)

def parseSource (p : Parser) (source : String) : Option Parsed :=
  match tokenize source p.options.sourceName with
  | .error e => some (p.abort (.ofLexicalError e))
  | .ok tokens => p.parse tokens

end Parser

def parse (tokens : List Token) : Option Parsed :=
  ({} : Parser).parse tokens

def parseSource (source name : String) : Option Parsed :=
  ({ options := { sourceName := name } } : Parser).parseSource source

end Prose
