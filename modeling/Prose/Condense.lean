import Prose.Number.Spelled
import Prose.Phrase

/-! Condensing: numbers in words and phrases of several words become single tokens. -/
namespace Prose

namespace Condense

/-- The token that the first group of `t :: ts` becomes, and how many tokens the group has: a number
in words, `fin` as the end of a block, a phrase, or the token itself. -/
def group (t : Token) (ts : List Token) : Except CondenseFailure (Token × Nat) := do
  match ← Number.spelled? (t :: ts) with
  | some number => .ok number
  | none =>
    if t.keyword = .fin then .ok ({ t with keyword := .blockEnd }, 1)
    else
      match Phrase.find? (t :: ts) with
      | some p =>
        let text := Token.render ((t :: ts).take p.length)
        .ok ({ t with text, keyword := p.role }, p.length)
      | none => .ok (t, 1)

/-- Condenses group by group; as many steps as there are tokens are enough. -/
def groups : Nat → List Token → Except CondenseFailure (List Token)
  | 0, _ => .ok []
  | _ + 1, [] => .ok []
  | n + 1, t :: ts => do
    let (token, taken) ← group t ts
    let rest ← groups n ((t :: ts).drop taken)
    .ok (token :: rest)

end Condense

def condense (tokens : List Token) : Except CondenseFailure (List Token) :=
  Condense.groups tokens.length tokens

end Prose
