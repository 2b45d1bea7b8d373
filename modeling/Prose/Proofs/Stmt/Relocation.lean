import Prose.Proofs.Expr.Relocation
import Prose.Stmt.Reading

namespace Prose

instance : Relocates Param := ⟨fun ρ p => { p with place := ρ.place p.place }⟩

namespace Stmt

variable (ρ : Relocation)

mutual

def moved : Stmt → Stmt
  | entryPoint p body => entryPoint (ρ.place p) (movedAll body)
  | functionDefinition p n ps body =>
    functionDefinition (ρ.place p) n (relocate ρ ps) (movedAll body)
  | structureDefinition p n fs => structureDefinition (ρ.place p) n (relocate ρ fs)
  | block p body => block (ρ.place p) (movedAll body)
  | conditional p c body branches elseBody =>
    conditional (ρ.place p) (relocate ρ c) (movedAll body) (movedBranches branches)
      (match elseBody with
      | some b => some (movedAll b)
      | none => none)
  | whileLoop p c body => whileLoop (ρ.place p) (relocate ρ c) (movedAll body)
  | untilLoop p c body => untilLoop (ρ.place p) (relocate ρ c) (movedAll body)
  | doWhile p body c => doWhile (ρ.place p) (movedAll body) (relocate ρ c)
  | doUntil p body c => doUntil (ρ.place p) (movedAll body) (relocate ρ c)
  | forEach p n e body => forEach (ρ.place p) n (relocate ρ e) (movedAll body)
  | forRange p n a b step body =>
    forRange (ρ.place p) n (relocate ρ a) (relocate ρ b) (relocate ρ step) (movedAll body)
  | repeatLoop p e body => repeatLoop (ρ.place p) (relocate ρ e) (movedAll body)
  | tryCatch p body n handler cleanup =>
    tryCatch (ρ.place p) (movedAll body) n (movedAll handler)
      (match cleanup with
      | some b => some (movedAll b)
      | none => none)
  | returning p e => returning (ρ.place p) (relocate ρ e)
  | breaking p => breaking (ρ.place p)
  | continuing p => continuing (ρ.place p)
  | exiting p => exiting (ρ.place p)
  | throwing p e => throwing (ρ.place p) (relocate ρ e)
  | assignment p t e => assignment (ρ.place p) (relocate ρ t) (relocate ρ e)
  | declaration p n e => declaration (ρ.place p) n (relocate ρ e)
  | increment p n e => increment (ρ.place p) n (relocate ρ e)
  | decrement p n e => decrement (ρ.place p) n (relocate ρ e)
  | swap p l r => swap (ρ.place p) l r
  | listAdd p e l => listAdd (ρ.place p) (relocate ρ e) (relocate ρ l)
  | listRemove p e l => listRemove (ρ.place p) (relocate ρ e) (relocate ρ l)
  | print p e => print (ρ.place p) (relocate ρ e)
  | readInto p n => readInto (ρ.place p) n
  | assertion p e => assertion (ρ.place p) (relocate ρ e)
  | importing p n => importing (ρ.place p) n
  | expression p e => expression (ρ.place p) (relocate ρ e)
termination_by structural st => st

def movedAll : List Stmt → List Stmt
  | [] => []
  | st :: sts => moved st :: movedAll sts
termination_by structural sts => sts

def movedBranches : List Branch → List Branch
  | [] => []
  | .mk p c body :: branches =>
    .mk (ρ.place p) (relocate ρ c) (movedAll body) :: movedBranches branches
termination_by structural branches => branches

end

end Stmt

instance : Relocates Stmt := ⟨Stmt.moved⟩

instance : Relocates Branch :=
  ⟨fun ρ => fun | .mk p c body => .mk (ρ.place p) (relocate ρ c) (relocate ρ body)⟩

instance : Relocates Stmt.Rule := ⟨fun _ => id⟩

namespace Stmt

variable (ρ : Relocation)

section structures

variable (p : Position) (n : String) (c : Expr) (body : List Stmt)

@[simp] theorem relocate_rule (r : Rule) : relocate ρ r = r := rfl

@[simp] theorem relocate_param : relocate ρ (⟨n, p⟩ : Param) = ⟨n, ρ.place p⟩ := rfl

@[simp] theorem relocate_branch :
    relocate ρ (Branch.mk p c body) = .mk (ρ.place p) (relocate ρ c) (relocate ρ body) := rfl

theorem movedAll_eq : movedAll ρ body = relocate ρ body := by
  induction body with
  | nil => rfl
  | cons st sts ih => exact congrArg (relocate ρ st :: ·) ih

theorem movedBranches_eq (branches : List Branch) :
    movedBranches ρ branches = relocate ρ branches := by
  induction branches with
  | nil => rfl
  | cons branch branches ih =>
    obtain ⟨p, c, body⟩ := branch
    rw [relocate_cons, relocate_branch, ← ih, ← movedAll_eq]
    rfl

@[simp] theorem relocate_entryPoint :
    relocate ρ (entryPoint p body) = entryPoint (ρ.place p) (relocate ρ body) := by
  rw [← movedAll_eq]
  rfl

@[simp] theorem relocate_functionDefinition (ps : List Param) :
    relocate ρ (functionDefinition p n ps body) =
      functionDefinition (ρ.place p) n (relocate ρ ps) (relocate ρ body) := by
  rw [← movedAll_eq]
  rfl

@[simp] theorem relocate_block :
    relocate ρ (block p body) = block (ρ.place p) (relocate ρ body) := by
  rw [← movedAll_eq]
  rfl

@[simp] theorem relocate_conditional (branches : List Branch) (elseBody : Option (List Stmt)) :
    relocate ρ (conditional p c body branches elseBody) =
      conditional (ρ.place p) (relocate ρ c) (relocate ρ body) (relocate ρ branches)
        (relocate ρ elseBody) := by
  rw [← movedAll_eq, ← movedBranches_eq]
  cases elseBody with
  | none => rfl
  | some b =>
    rw [relocate_some, ← movedAll_eq]
    rfl

@[simp] theorem relocate_whileLoop :
    relocate ρ (whileLoop p c body) = whileLoop (ρ.place p) (relocate ρ c) (relocate ρ body) := by
  rw [← movedAll_eq]
  rfl

@[simp] theorem relocate_untilLoop :
    relocate ρ (untilLoop p c body) = untilLoop (ρ.place p) (relocate ρ c) (relocate ρ body) := by
  rw [← movedAll_eq]
  rfl

@[simp] theorem relocate_doWhile :
    relocate ρ (doWhile p body c) = doWhile (ρ.place p) (relocate ρ body) (relocate ρ c) := by
  rw [← movedAll_eq]
  rfl

@[simp] theorem relocate_doUntil :
    relocate ρ (doUntil p body c) = doUntil (ρ.place p) (relocate ρ body) (relocate ρ c) := by
  rw [← movedAll_eq]
  rfl

@[simp] theorem relocate_forEach :
    relocate ρ (forEach p n c body) =
      forEach (ρ.place p) n (relocate ρ c) (relocate ρ body) := by
  rw [← movedAll_eq]
  rfl

@[simp] theorem relocate_forRange (a b : Expr) (step : Option Expr) :
    relocate ρ (forRange p n a b step body) =
      forRange (ρ.place p) n (relocate ρ a) (relocate ρ b) (relocate ρ step)
        (relocate ρ body) := by
  rw [← movedAll_eq]
  rfl

@[simp] theorem relocate_repeatLoop :
    relocate ρ (repeatLoop p c body) =
      repeatLoop (ρ.place p) (relocate ρ c) (relocate ρ body) := by
  rw [← movedAll_eq]
  rfl

@[simp] theorem relocate_tryCatch (errorName : Option String) (handler : List Stmt)
    (cleanup : Option (List Stmt)) :
    relocate ρ (tryCatch p body errorName handler cleanup) =
      tryCatch (ρ.place p) (relocate ρ body) errorName (relocate ρ handler)
        (relocate ρ cleanup) := by
  rw [← movedAll_eq, ← movedAll_eq]
  cases cleanup with
  | none => rfl
  | some b =>
    rw [relocate_some, ← movedAll_eq]
    rfl

@[simp] theorem position_relocate_stmt (st : Stmt) :
    (relocate ρ st).position = ρ.place st.position := by
  cases st with
  | conditional p c body branches elseBody => rw [relocate_conditional, position, position]
  | tryCatch p body errorName handler cleanup => rw [relocate_tryCatch, position, position]
  | _ => rfl

end structures

section along

theorem relocate_along_params (n : Nat) (ps : List Param) : relocate (.along n) ps = ps :=
  List.map_id ps

theorem relocate_along_option (n : Nat) (e : Option Expr) : relocate (.along n) e = e := by
  cases e with
  | none => rfl
  | some e => rw [relocate_some, Expr.relocate_along_expr]

mutual

/-- In the same places a statement is the same. -/
theorem moved_along (n : Nat) : ∀ st : Stmt, moved (.along n) st = st
  | entryPoint _ body => by rw [moved, movedAll_along n body]; rfl
  | functionDefinition _ _ ps body => by
    rw [moved, relocate_along_params, movedAll_along n body]; rfl
  | structureDefinition _ _ fs => by rw [moved, relocate_along_params]; rfl
  | block _ body => by rw [moved, movedAll_along n body]; rfl
  | conditional _ c body branches none => by
    rw [moved, Expr.relocate_along_expr, movedAll_along n body, movedBranches_along n branches]; rfl
  | conditional _ c body branches (some b) => by
    rw [moved, Expr.relocate_along_expr, movedAll_along n body, movedBranches_along n branches,
      movedAll_along n b]
    rfl
  | whileLoop _ c body | untilLoop _ c body | doWhile _ body c | doUntil _ body c
  | forEach _ _ c body | repeatLoop _ c body => by
    rw [moved, Expr.relocate_along_expr, movedAll_along n body]; rfl
  | forRange _ _ a b step body => by
    rw [moved, Expr.relocate_along_expr, Expr.relocate_along_expr, relocate_along_option,
      movedAll_along n body]
    rfl
  | tryCatch _ body _ handler none => by
    rw [moved, movedAll_along n body, movedAll_along n handler]; rfl
  | tryCatch _ body _ handler (some b) => by
    rw [moved, movedAll_along n body, movedAll_along n handler, movedAll_along n b]; rfl
  | returning _ e | increment _ _ e | decrement _ _ e => by rw [moved, relocate_along_option]; rfl
  | breaking _ | continuing _ | exiting _ | swap .. | readInto .. | importing .. => rfl
  | throwing _ e | declaration _ _ e | print _ e | assertion _ e | expression _ e => by
    rw [moved, Expr.relocate_along_expr]; rfl
  | assignment _ e e' | listAdd _ e e' | listRemove _ e e' => by
    rw [moved, Expr.relocate_along_expr, Expr.relocate_along_expr]; rfl
termination_by structural st => st

theorem movedAll_along (n : Nat) : ∀ sts : List Stmt, movedAll (.along n) sts = sts
  | [] => rfl
  | st :: sts => by rw [movedAll, moved_along n st, movedAll_along n sts]
termination_by structural sts => sts

theorem movedBranches_along (n : Nat) :
    ∀ branches : List Branch, movedBranches (.along n) branches = branches
  | [] => rfl
  | .mk _ c body :: branches => by
    rw [movedBranches, Expr.relocate_along_expr, movedAll_along n body,
      movedBranches_along n branches]
    rfl
termination_by structural branches => branches

end

@[simp] theorem relocate_along_stmt (n : Nat) (st : Stmt) : relocate (.along n) st = st :=
  moved_along n st

@[simp] theorem relocate_along_stmts (n : Nat) (sts : List Stmt) :
    relocate (.along n) sts = sts := by
  rw [← movedAll_eq]
  exact movedAll_along n sts

end along

end Stmt

end Prose
