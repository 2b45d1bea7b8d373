import Prose.Grammar
import Prose.Log
import Prose.Memo
import Prose.Options

/-! Sessions: the state of the parses over one token stream. A session collects problems and log
entries, tells its observers of them as they arise, counts how deep cascades and blocks are nested,
remembers readings, and keeps a trace. -/
namespace Prose

inductive Event where
  | error (p : Problem)
  | log (e : LogEntry)
  deriving DecidableEq

/-- An event as one observer is told of it; observers are numbered in the order of subscription. -/
structure Delivery where
  observer : Nat
  event : Event
  deriving DecidableEq

inductive TraceRecord where
  | reading (key : Nat × Nat) (form : Expr.Form) (e : Expr)
  | statement (form : Stmt.Form) (result : Stmt)
  | recovered (p : Problem)
  | aborted (p : Problem)
  | logged (e : LogEntry)

namespace TraceRecord

def label : TraceRecord → String
  | reading .. | statement .. => "TRACE"
  | recovered _ | aborted _ => "DEBUG"
  | logged e => e.level.label

def text : TraceRecord → String
  | reading _ form e => "expression `" ++ e.pretty ++ "` via " ++ form.name
  | statement form s => "statement " ++ s.typeName ++ " via " ++ form.name
  | recovered p => "recovered from " ++ p.render
  | aborted p => "parse aborted: " ++ p.render
  | logged e => e.message

end TraceRecord

structure Session where
  options : Options
  observers : Nat
  depth : Nat := 0
  memo : Memo := .empty
  errors : Array Problem := #[]
  logs : Array LogEntry := #[]
  deliveries : Array Delivery := #[]
  trace : Array TraceRecord := #[]

namespace Session

def start (options : Options) (observers : Nat) : Session :=
  { options, observers }

def notify (σ : Session) (e : Event) : Session :=
  { σ with deliveries := σ.deliveries ++ (List.range σ.observers).map (Delivery.mk · e) }

def record (σ : Session) (r : TraceRecord) : Session :=
  { σ with trace := σ.trace.push r }

def log (σ : Session) (level : LogLevel) (message : String) : Session :=
  let σ := (σ.record (.logged ⟨level, message⟩)).notify (.log ⟨level, message⟩)
  { σ with logs := σ.logs.push ⟨level, message⟩ }

def report (σ : Session) (p : Problem) : Session :=
  let σ := (σ.record (.recovered p)).notify (.error p)
  { σ with errors := σ.errors.push p }

def remember (σ : Session) (s : Slice) (r : Reading) : Session :=
  { σ with memo := σ.memo.insert s r }

end Session

abbrev Parse := ExceptT Problem (StateM Session)

namespace Parse

def tooDeep (limit : Nat) (origin : String) (tokens : List Token) : Problem :=
  { cause := .tooDeep limit, origin, tokens }

/-- Runs a step one level deeper, unless that is deeper than the options allow. -/
def nested {α : Type} (origin : String) (tokens : List Token) (step : Parse α) : Parse α :=
  ExceptT.mk fun σ =>
    if σ.options.maxNestingDepth ≤ σ.depth then
      (.error (tooDeep σ.options.maxNestingDepth origin tokens), σ)
    else
      let (result, τ) := step.run { σ with depth := σ.depth + 1 }
      (result, { τ with depth := τ.depth - 1 })

end Parse

end Prose
