import Prose.Expr.Cascade
import Prose.Segment
import Prose.Stmt.Reading

namespace Prose.Parse

def warn (message : String) : StateM Session Unit :=
  modify (·.log .warning message)

def reply (g : Grammar) (block : Slice → StateM Session (List Stmt)) :
    (q : Stmt.Question) → Parse q.Reply
  | .reading s => read g s
  | .block origin whole inner => nested origin whole (block inner)
  | .unusedValue e shown => do
    if (← get).options.warnOnDiscardedValues then
      warn (e.position.render ++ ": the value of `" ++ Token.render shown ++ "` is never used")

abbrev Selection := Option (Stmt.Rule × Stmt)

def firstStatement (answer : (q : Stmt.Question) → Parse q.Reply) (s : Slice) :
    List Stmt.Rule → Parse Selection
  | [] => pure none
  | rule :: rules => do
    match ← (rule.form.read s).run answer with
    | some st => do
      modify (·.record (.statement rule.form st))
      pure (some (rule, st))
    | none => firstStatement answer s rules

def statementWith (g : Grammar) (answer : (q : Stmt.Question) → Parse q.Reply) (s : Slice) :
    Parse Selection :=
  if s.isEmpty then pure none
  else nested "parse_statement" s.tokens (firstStatement answer s g.statements)

def sentence (g : Grammar) (answer : (q : Stmt.Question) → Parse q.Reply) :
    Sentence → Parse Stmt
  | .chain slices => (Stmt.readConditional slices).run answer
  | .orphan s =>
    throw { cause := .chain (.withoutPredecessor ((s.head?.map (·.text)).getD "")),
            origin := "parse_block", tokens := s.tokens }
  | .plain s => do
    match ← statementWith g answer s with
    | some (_, st) => pure st
    | none =>
      throw { cause := .unrecognized "statement", origin := "parse_block", tokens := s.tokens }
  | .broken _ p => throw p

/-- The statements that the sentences become. A problem is reported and costs its sentence. -/
def sentences (g : Grammar) (answer : (q : Stmt.Question) → Parse q.Reply) :
    List Sentence → StateM Session (List Stmt)
  | [] => pure []
  | x :: xs => do
    match ← (sentence g answer x).run with
    | .ok st => return st :: (← sentences g answer xs)
    | .error p => do
      modify (·.report p)
      sentences g answer xs

def divide (s : Slice) : StateM Session (List Segment) := do
  let d := Segment.divide (← get).options.requireTerminators s
  match d.openEnd with
  | some place => warn (place.render ++ ": statement is missing its closing `.`")
  | none => pure ()
  return d.segments

/-- Reads a block of at most `n` tokens. The blocks inside a statement are shorter than the block it
stands in, so the number falls with every level. -/
def blockWithin (g : Grammar) : Nat → Slice → StateM Session (List Stmt)
  | 0, _ => pure []
  | n + 1, s => do
    let segments ← divide s
    sentences g (reply g (blockWithin g n)) (Sentence.ofSegments [] segments)

def block (g : Grammar) (s : Slice) : StateM Session (List Stmt) :=
  blockWithin g s.length s

def inquire {α : Type} (g : Grammar) (n : Nat) (q : Stmt.Query α) : Parse α :=
  q.run (reply g (blockWithin g n))

def statement (g : Grammar) (s : Slice) : Parse Selection :=
  statementWith g (reply g (blockWithin g s.length)) s

def conditional (g : Grammar) (chain : List Slice) : Parse Stmt :=
  inquire g ((chain.map (·.length)).foldr (· + ·) 0) (Stmt.readConditional chain)

def body (g : Grammar) (origin : String) (part : Slice) (whole : List Token) : Parse (List Stmt) :=
  inquire g part.length (Stmt.requiredBody origin part whole)

end Prose.Parse
