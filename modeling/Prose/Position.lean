namespace Prose

/-- A place in a named source; lines and columns count from one, columns in characters. -/
structure Position where
  line : Nat
  column : Nat
  source : String
  deriving DecidableEq

namespace Position

def unknown : Position :=
  ⟨0, 0, "<unknown>"⟩

instance : Inhabited Position := ⟨unknown⟩

def render (p : Position) : String :=
  p.source ++ ":" ++ toString p.line ++ ":" ++ toString p.column

def after (p : Position) (c : Char) : Position :=
  if c = '\n' then { p with line := p.line + 1, column := 1 } else { p with column := p.column + 1 }

end Position

end Prose
