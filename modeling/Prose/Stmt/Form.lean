import Prose.Stmt

namespace Prose.Stmt

inductive Form where
  | block | entryPoint | functionDefinition | structureDefinition | conditional | whileLoop
  | untilLoop | doLoop | forEach | forRange | repeatLoop | tryCatch | assignment | declaration
  | increment | print | returning | breaking | continuing | exiting | throwing | assertion
  | importing | listAdd | listRemove | swap | readInto | expression
  deriving DecidableEq, Inhabited

namespace Form

def table : List (Form × String × Nat) := [
  (block, "block", 1000), (entryPoint, "entry point", 950),
  (functionDefinition, "function definition", 940),
  (structureDefinition, "structure definition", 930), (conditional, "conditional", 920),
  (whileLoop, "while", 910), (untilLoop, "until", 905), (doLoop, "do loop", 900),
  (forEach, "for each", 890), (forRange, "for range", 880), (repeatLoop, "repeat", 870),
  (tryCatch, "try", 860), (assignment, "assignment", 850), (declaration, "declaration", 845),
  (increment, "increment", 840), (print, "print", 830), (returning, "return", 820),
  (breaking, "break", 815), (continuing, "continue", 814), (exiting, "exit", 813),
  (throwing, "throw", 810), (assertion, "assert", 800), (importing, "import", 790),
  (listAdd, "list add", 780), (listRemove, "list remove", 775), (swap, "swap", 770),
  (readInto, "read", 760), (expression, "expression", 100)]

def all : List Form :=
  table.map (·.1)

def name (f : Form) : String :=
  ((table.lookup f).map (·.1)).getD ""

def level (f : Form) : Nat :=
  ((table.lookup f).map (·.2)).getD 0

end Form

structure Rule where
  form : Form
  priority : Nat
  deriving DecidableEq, Inhabited

def Form.rule (f : Form) : Rule :=
  ⟨f, f.level⟩

end Prose.Stmt
