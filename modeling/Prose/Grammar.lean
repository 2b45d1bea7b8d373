import Prose.Expr.Form
import Prose.Stmt.Form

namespace Prose

structure GrammarError where
  table : String
  priority : Nat
  first : String
  second : String
  deriving DecidableEq

def GrammarError.message (e : GrammarError) : String :=
  e.table ++ " rules `" ++ e.first ++ "` and `" ++ e.second ++ "` share priority " ++
    toString e.priority

class Ranked (ρ : Type) where
  priority : ρ → Nat
  name : ρ → String

structure Tables (ρ σ : Type) where
  expressions : List ρ
  statements : List σ
  deriving DecidableEq

abbrev Grammar := Tables Expr.Rule Stmt.Rule

instance : Ranked Expr.Rule := ⟨Expr.Rule.priority, (·.form.name)⟩

instance : Ranked Stmt.Rule := ⟨Stmt.Rule.priority, (·.form.name)⟩

namespace Grammar

def place {ρ : Type} (priority : ρ → Nat) (a : ρ) : List ρ → List ρ
  | [] => [a]
  | b :: rest => if priority b ≤ priority a then a :: b :: rest else b :: place priority a rest

def ordered {ρ : Type} (priority : ρ → Nat) (rules : List ρ) : List ρ :=
  rules.foldr (place priority) []

def clash? {ρ : Type} (priority : ρ → Nat) : List ρ → Option (ρ × ρ)
  | a :: b :: rest =>
    if priority a = priority b then some (a, b) else clash? priority (b :: rest)
  | _ => none

/-- The rules of a table in order, unless two have the same priority. -/
def arrange {ρ : Type} [Ranked ρ] (table : String) (rules : List ρ) :
    Except GrammarError (List ρ) :=
  let rules := ordered Ranked.priority rules
  match clash? Ranked.priority rules with
  | some (a, b) => .error ⟨table, Ranked.priority a, Ranked.name a, Ranked.name b⟩
  | none => .ok rules

def ofRules {ρ σ : Type} [Ranked ρ] [Ranked σ] (expressions : List ρ) (statements : List σ) :
    Except GrammarError (Tables ρ σ) := do
  let expressions ← arrange "expression" expressions
  let statements ← arrange "statement" statements
  .ok ⟨expressions, statements⟩

def standard : Grammar :=
  ⟨ordered Expr.Rule.priority (Expr.Form.all.map (·.rule)),
    ordered Stmt.Rule.priority (Stmt.Form.all.map (·.rule))⟩

end Grammar

end Prose
