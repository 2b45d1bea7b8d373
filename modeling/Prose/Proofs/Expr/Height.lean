import Prose.Proofs.Expr.Questions

namespace Prose.Expr

open Inquiry Slice

def children : Expr → List Expr
  | literal .. | identifier .. => []
  | grouping _ e | unary _ _ e | nullCheck _ e _ | typeCheck _ e _ | cast _ e _ => [e]
  | list _ es | call _ _ es => es
  | binary _ l _ r => [l, r]
  | index _ c i => [c, i]
  | slice _ c a b => [c, a, b]
  | ternary _ c t e => [c, t, e]
  | selection _ s arms d => s :: (arms.flatMap (fun arm => [arm.1, arm.2]) ++ d.toList)

def isTernary : Expr → Bool
  | ternary .. => true
  | _ => false

mutual

def height : Expr → Nat
  | literal .. | identifier .. => 1
  | grouping _ e | unary _ _ e | nullCheck _ e _ | typeCheck _ e _ | cast _ e _ => height e + 1
  | list _ es | call _ _ es => heightList es + 1
  | binary _ l _ r => max (height l) (height r) + 1
  | index _ c i => max (height c) (height i) + 1
  | slice _ c a b => max (height c) (max (height a) (height b)) + 1
  | ternary _ c t e => max (height c) (max (height t) (height e)) + 1
  | selection _ s arms d => max (height s) (max (heightArms arms) (heightFallback d)) + 1
termination_by structural e => e

def heightList : List Expr → Nat
  | [] => 0
  | e :: es => max (height e) (heightList es)
termination_by structural es => es

def heightArms : List (Expr × Expr) → Nat
  | [] => 0
  | (p, r) :: arms => max (max (height p) (height r)) (heightArms arms)
termination_by structural arms => arms

def heightFallback : Option Expr → Nat
  | none => 0
  | some e => height e
termination_by structural d => d

end

mutual

/-- How often, on one path from the root to a leaf, a conditional has a conditional for what holds
otherwise, at most. -/
def chained : Expr → Nat
  | literal .. | identifier .. => 0
  | grouping _ e | unary _ _ e | nullCheck _ e _ | typeCheck _ e _ | cast _ e _ => chained e
  | list _ es | call _ _ es => chainedList es
  | binary _ l _ r => max (chained l) (chained r)
  | index _ c i => max (chained c) (chained i)
  | slice _ c a b => max (chained c) (max (chained a) (chained b))
  | ternary _ c t e =>
    max (chained c) (max (chained t) (if e.isTernary then chained e + 1 else chained e))
  | selection _ s arms d => max (chained s) (max (chainedArms arms) (chainedFallback d))
termination_by structural e => e

def chainedList : List Expr → Nat
  | [] => 0
  | e :: es => max (chained e) (chainedList es)
termination_by structural es => es

def chainedArms : List (Expr × Expr) → Nat
  | [] => 0
  | (p, r) :: arms => max (max (chained p) (chained r)) (chainedArms arms)
termination_by structural arms => arms

def chainedFallback : Option Expr → Nat
  | none => 0
  | some e => chained e
termination_by structural d => d

end

section children

variable {e c : Expr} {es : List Expr} {arms : List (Expr × Expr)} {n : Nat}

theorem heightList_le (h : ∀ e ∈ es, e.height ≤ n) : heightList es ≤ n := by
  induction es with
  | nil => exact Nat.zero_le n
  | cons e es ih =>
    obtain ⟨he, hes⟩ := List.forall_mem_cons.mp h
    exact Nat.max_le.mpr ⟨he, ih hes⟩

theorem heightArms_le (h : ∀ e ∈ arms.flatMap (fun arm => [arm.1, arm.2]), e.height ≤ n) :
    heightArms arms ≤ n := by
  induction arms with
  | nil => exact Nat.zero_le n
  | cons arm arms ih =>
    rw [List.flatMap_cons, List.forall_mem_append] at h
    obtain ⟨harm, harms⟩ := h
    have hp : arm.1.height ≤ n := harm arm.1 (List.mem_cons_self ..)
    have hr : arm.2.height ≤ n := harm arm.2 (List.mem_cons_of_mem _ (List.mem_singleton_self _))
    exact Nat.max_le.mpr ⟨Nat.max_le.mpr ⟨hp, hr⟩, ih harms⟩

/-- An expression is one node higher than what is right below its root. -/
theorem height_le_of_children (h : ∀ c ∈ e.children, c.height ≤ n) : e.height ≤ n + 1 := by
  cases e with
  | literal _ v => exact Nat.le_add_left 1 n
  | identifier _ x => exact Nat.le_add_left 1 n
  | list _ es => exact Nat.succ_le_succ (heightList_le h)
  | call _ f es => exact Nat.succ_le_succ (heightList_le h)
  | selection _ s arms d =>
    obtain ⟨hs, hrest⟩ := List.forall_mem_cons.mp h
    obtain ⟨harms, hd⟩ := List.forall_mem_append.mp hrest
    have hfallback : heightFallback d ≤ n := by
      cases d with
      | none => exact Nat.zero_le n
      | some e => exact hd e (List.mem_singleton_self e)
    exact Nat.succ_le_succ (Nat.max_le.mpr ⟨hs, Nat.max_le.mpr ⟨heightArms_le harms, hfallback⟩⟩)
  | _ =>
    simp only [children, List.forall_mem_cons] at h
    simp only [height]
    omega

theorem chained_le_chainedList (h : c ∈ es) : c.chained ≤ chainedList es := by
  induction es with
  | nil => cases h
  | cons e es ih =>
    rcases List.mem_cons.mp h with rfl | h
    · exact Nat.le_max_left ..
    · exact Nat.le_trans (ih h) (Nat.le_max_right ..)

theorem chained_le_chainedArms (h : c ∈ arms.flatMap (fun arm => [arm.1, arm.2])) :
    c.chained ≤ chainedArms arms := by
  induction arms with
  | nil => cases h
  | cons arm arms ih =>
    simp only [List.flatMap_cons, List.mem_append, List.mem_cons, List.not_mem_nil, or_false] at h
    simp only [chainedArms]
    rcases h with (rfl | rfl) | h
    · omega
    · omega
    · have hrest := ih h
      omega

theorem chained_le_of_mem_children (h : c ∈ e.children) : c.chained ≤ e.chained := by
  cases e with
  | literal _ v => cases h
  | identifier _ x => cases h
  | list _ es => exact chained_le_chainedList h
  | call _ f es => exact chained_le_chainedList h
  | selection _ s arms d =>
    simp only [children, List.mem_cons, List.mem_append, Option.mem_toList] at h
    simp only [chained]
    rcases h with rfl | h | rfl
    · omega
    · have harms := chained_le_chainedArms h
      omega
    · simp only [chainedFallback]
      omega
  | ternary _ x y z =>
    simp only [children, List.mem_cons, List.not_mem_nil, or_false] at h
    simp only [chained]
    rcases h with rfl | rfl | rfl
    · omega
    · omega
    · split <;> omega
  | _ =>
    simp only [children, List.mem_cons, List.not_mem_nil, or_false] at h
    simp only [chained]
    grind

@[simp] theorem height_movedTo (place : Position) (e : Expr) :
    (e.movedTo place).height = e.height := by
  cases e <;> rfl

@[simp] theorem chained_movedTo (place : Position) (e : Expr) :
    (e.movedTo place).chained = e.chained := by
  cases e <;> rfl

theorem height_pos (e : Expr) : 0 < e.height := by
  cases e <;> exact Nat.succ_pos _

end children

/-- The expression is made of expressions of which `P` is known: it is such an expression in another
place, everything right below its root is one, but for the number that an ordinal stands for, or it
is a conditional that goes on with a further condition. -/
inductive Composed (P : Expr → Prop) : Expr → Prop
  | moved {e : Expr} (place : Position) (h : P e) : Composed P (e.movedTo place)
  | children {e : Expr} (h : ∀ c ∈ e.children, P c) : Composed P e
  | ordinal {c : Expr} (place place' : Position) (v : Literal) (h : P c) :
      Composed P (index place c (literal place' v))
  | chain {c t e : Expr} (place : Position) (hc : P c) (ht : P t) (hternary : e.isTernary = true)
      (he : Composed P e) : Composed P (ternary place c t e)

/-- What is made of expressions of some height is one node higher, but for further conditions. -/
theorem Composed.height_le {n : Nat} {e : Expr}
    (h : Composed (fun c => c.height ≤ n + c.chained) e) : e.height ≤ n + 1 + e.chained := by
  induction h with
  | @moved e place h =>
    rw [height_movedTo, chained_movedTo]
    omega
  | @children e h =>
    have hheight : e.height ≤ n + e.chained + 1 := by
      apply height_le_of_children
      intro c hc
      exact Nat.le_trans (h c hc) (Nat.add_le_add_left (chained_le_of_mem_children hc) n)
    omega
  | @ordinal c place place' v h =>
    have hpos := height_pos c
    simp only [height, chained]
    omega
  | @chain c t e place hc ht hternary he ih =>
    simp only [height, chained, hternary, if_true]
    omega

end Prose.Expr
