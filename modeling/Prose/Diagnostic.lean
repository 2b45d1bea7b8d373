import Prose.Problem

namespace Prose

/-- The lines of a text. A line ends before a line feed, or before a carriage return in front of
one. -/
def Text.lines (cs : List Char) : List (List Char) :=
  let pieces := cs.splitOn '\n'
  (pieces.dropLast.map fun l => if l.getLast? = some '\r' then l.dropLast else l) ++
    pieces.getLast?.toList

structure Diagnostic.Printer where
  fileName : String
  source : String
  deriving DecidableEq

namespace Diagnostic.Printer

def lineNumber (n : Nat) : String :=
  let digits := toString n
  "".pushn ' ' (3 - digits.length) ++ digits

def excerpt (d : Printer) (place : Position) : String :=
  let column := max place.column 1
  let line := ((Text.lines d.source.toList)[place.line - 1]?).getD []
  "  --> " ++ d.fileName ++ ":" ++ toString place.line ++ ":" ++ toString column ++ "\n" ++
    "   |\n" ++
    lineNumber place.line ++ " | " ++ String.ofList line ++ "\n" ++
    "   | " ++ "".pushn ' ' (column - 1) ++ "^\n"

def render (d : Printer) (p : Problem) : String :=
  "error[" ++ p.code.text ++ "]: " ++ p.message ++ "\n" ++
    (match p.position? with
      | some place => if place.line = 0 then "" else d.excerpt place
      | none => "") ++
    (match p.help with
      | some help => "help: " ++ help ++ "\n"
      | none => "")

end Diagnostic.Printer

end Prose
