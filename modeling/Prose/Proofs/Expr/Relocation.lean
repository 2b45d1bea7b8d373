import Prose.Expr.Reading
import Prose.Proofs.Slice.Relocation

namespace Prose

namespace Expr

variable (ρ : Relocation)

mutual

def moved : Expr → Expr
  | literal p v => literal (ρ.place p) v
  | identifier p n => identifier (ρ.place p) n
  | grouping p e => grouping (ρ.place p) (moved e)
  | list p es => list (ρ.place p) (movedList es)
  | binary p l op r => binary (ρ.place p) (moved l) op (moved r)
  | unary p op e => unary (ρ.place p) op (moved e)
  | nullCheck p e b => nullCheck (ρ.place p) (moved e) b
  | typeCheck p e t => typeCheck (ρ.place p) (moved e) t
  | cast p e t => cast (ρ.place p) (moved e) t
  | index p c i => index (ρ.place p) (moved c) (moved i)
  | slice p c f t => slice (ρ.place p) (moved c) (moved f) (moved t)
  | call p f args => call (ρ.place p) f (movedList args)
  | ternary p c t e => ternary (ρ.place p) (moved c) (moved t) (moved e)
  | selection p s arms d =>
    selection (ρ.place p) (moved s) (movedArms arms)
      (match d with
      | some e => some (moved e)
      | none => none)
termination_by structural e => e

def movedList : List Expr → List Expr
  | [] => []
  | e :: es => moved e :: movedList es
termination_by structural es => es

def movedArms : List (Expr × Expr) → List (Expr × Expr)
  | [] => []
  | (p, r) :: arms => (moved p, moved r) :: movedArms arms
termination_by structural arms => arms

end

end Expr

instance : Relocates Expr := ⟨Expr.moved⟩

instance : Relocates Expr.Rule := ⟨fun _ => id⟩

instance : Relocates TypeName := ⟨fun _ => id⟩

namespace Expr

variable (ρ : Relocation)

def Operand.relocated : Operand → Operand
  | .bound e => .bound (relocate ρ e)
  | .looser => .looser
  | .unread => .unread

instance : Relocates Operand := ⟨Operand.relocated⟩

section structures

@[simp] theorem relocate_rule (r : Rule) : relocate ρ r = r := rfl

@[simp] theorem relocate_typeName (n : TypeName) : relocate ρ n = n := rfl

@[simp] theorem relocate_bound (e : Expr) :
    relocate ρ (Operand.bound e) = .bound (relocate ρ e) := rfl

@[simp] theorem relocate_looser : relocate ρ Operand.looser = .looser := rfl

@[simp] theorem relocate_unread : relocate ρ Operand.unread = .unread := rfl

theorem movedList_eq (es : List Expr) : movedList ρ es = relocate ρ es := by
  induction es with
  | nil => rfl
  | cons e es ih => exact congrArg (relocate ρ e :: ·) ih

theorem movedArms_eq (arms : List (Expr × Expr)) : movedArms ρ arms = relocate ρ arms := by
  induction arms with
  | nil => rfl
  | cons arm arms ih => exact congrArg (relocate ρ arm :: ·) ih

@[simp] theorem relocate_list (p : Position) (es : List Expr) :
    relocate ρ (list p es) = list (ρ.place p) (relocate ρ es) :=
  congrArg (list (ρ.place p)) (movedList_eq ρ es)

@[simp] theorem relocate_call (p : Position) (f : String) (args : List Expr) :
    relocate ρ (call p f args) = call (ρ.place p) f (relocate ρ args) :=
  congrArg (call (ρ.place p) f) (movedList_eq ρ args)

@[simp] theorem relocate_selection (p : Position) (e : Expr) (arms : List (Expr × Expr))
    (d : Option Expr) :
    relocate ρ (selection p e arms d) =
      selection (ρ.place p) (relocate ρ e) (relocate ρ arms) (relocate ρ d) := by
  have harms := movedArms_eq ρ arms
  cases d with
  | none => exact congrArg (selection _ _ · _) harms
  | some d => exact congrArg (selection _ _ · _) harms

@[simp] theorem position_relocate_expr (e : Expr) :
    (relocate ρ e).position = ρ.place e.position := by
  cases e with
  | selection p e arms d => rw [relocate_selection, position, position]
  | _ => rfl

/-- An expression that stands behind an article is relocated to where the article is. -/
theorem relocate_movedTo (p : Position) (e : Expr) :
    relocate ρ (e.movedTo p) = (relocate ρ e).movedTo (ρ.place p) := by
  cases e with
  | selection _ e arms d => rw [relocate_selection, movedTo, movedTo, relocate_selection]
  | _ => rfl

end structures

section along

mutual

/-- In the same places an expression is the same. -/
theorem moved_along (n : Nat) : ∀ e : Expr, moved (.along n) e = e
  | literal .. => rfl
  | identifier .. => rfl
  | grouping _ e => by rw [moved, moved_along n e]; rfl
  | list _ es => by rw [moved, movedList_along n es]; rfl
  | binary _ l _ r => by rw [moved, moved_along n l, moved_along n r]; rfl
  | unary _ _ e => by rw [moved, moved_along n e]; rfl
  | nullCheck _ e _ => by rw [moved, moved_along n e]; rfl
  | typeCheck _ e _ => by rw [moved, moved_along n e]; rfl
  | cast _ e _ => by rw [moved, moved_along n e]; rfl
  | index _ c i => by rw [moved, moved_along n c, moved_along n i]; rfl
  | slice _ c f t => by rw [moved, moved_along n c, moved_along n f, moved_along n t]; rfl
  | call _ _ args => by rw [moved, movedList_along n args]; rfl
  | ternary _ c t e => by rw [moved, moved_along n c, moved_along n t, moved_along n e]; rfl
  | selection _ s arms none => by rw [moved, moved_along n s, movedArms_along n arms]; rfl
  | selection _ s arms (some d) => by
    rw [moved, moved_along n s, movedArms_along n arms, moved_along n d]; rfl
termination_by structural e => e

theorem movedList_along (n : Nat) : ∀ es : List Expr, movedList (.along n) es = es
  | [] => rfl
  | e :: es => by rw [movedList, moved_along n e, movedList_along n es]
termination_by structural es => es

theorem movedArms_along (n : Nat) : ∀ arms : List (Expr × Expr), movedArms (.along n) arms = arms
  | [] => rfl
  | (p, r) :: arms => by
    rw [movedArms, moved_along n p, moved_along n r, movedArms_along n arms]
termination_by structural arms => arms

end

@[simp] theorem relocate_along_expr (n : Nat) (e : Expr) : relocate (.along n) e = e :=
  moved_along n e

end along

end Expr

end Prose
