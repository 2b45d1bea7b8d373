import Prose.Expr.Reading
import Prose.Session

namespace Prose.Parse

def firstReading (answer : Slice → Parse Reading) (s : Slice) : List Expr.Rule → Parse Reading
  | [] => pure none
  | rule :: rules => do
    match ← (rule.form.read s).run answer with
    | some e => do
      modify (·.record (.reading (Memo.key s) rule.form e))
      pure (some (rule, e))
    | none => firstReading answer s rules

/-- Reads a slice of at most `n` tokens. A form asks about shorter slices only, so the number falls
with every level. -/
def readWithin (g : Grammar) : Nat → Slice → Parse Reading
  | 0, _ => pure none
  | n + 1, s =>
    if s.isEmpty then pure none
    else do
      match (← get).memo.find? s with
      | some r => pure r
      | none => do
        let r ← nested "parse_expression" s.tokens (firstReading (readWithin g n) s g.expressions)
        modify (·.remember s r)
        pure r

def read (g : Grammar) (s : Slice) : Parse Reading :=
  readWithin g s.length s

end Prose.Parse
