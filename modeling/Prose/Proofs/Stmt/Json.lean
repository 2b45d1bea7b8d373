import Prose.Proofs.Expr.Json
import Prose.Proofs.Stmt.Leaves
import Prose.Proofs.Stmt.Relocation
import Prose.Stmt.Json

namespace Prose

open Json Json.Decoder

namespace Expr

variable {n : Nat}

theorem decodes_ofJson {e : Expr} (hp : relocate Position.holding e = e)
    (hl : ∀ l ∈ e.leaves, l.IsProper) : Decodes n ofJson (e.toJson Position.toJson) e :=
  fun d _ => decodes_toJson hp hl (d + 1) d d.lt_succ_self

theorem decodes_optional_ofJson {e : Option Expr} (hp : relocate Position.holding e = e)
    (hl : ∀ l ∈ leavesList e.toList, l.IsProper) :
    Decodes n (optional ofJson) (.optional (·.toJson Position.toJson) e) e := by
  refine decodes_optional (toJson_ne_null _) ?_
  rintro e ⟨⟩
  simp only [Option.toList_some, leavesList, List.append_nil] at hl
  exact decodes_ofJson (Option.some.inj hp) hl

end Expr

namespace Stmt

variable {pos : Position → Json} {p : Position} {n : Nat}

theorem decodes_params {ps : List Param} (hp : relocate Position.holding ps = ps) :
    Decodes n (list paramOfJson) (.array (ps.map (paramToJson Position.toJson))) ps := by
  induction ps with
  | nil => exact decodes_nil
  | cons q ps ih =>
    rw [relocate_cons, List.cons.injEq] at hp
    refine decodes_cons (fun d hd => ?_) (ih hp.2)
    have hplace : Position.holding.place q.place = q.place := congrArg Param.place hp.1
    refine finds_record ["name", "position"] [_, _] (by decide) rfl (Nat.le_of_lt hd) fun d hd => ?_
    exact (decodes_text n q.name d hd).bind <|
      (Position.decodes_toJson hplace n d hd).bind (.pure d q)

theorem decodes_errorName (name : Option String) :
    Decodes n (optional text) (.optional .text name) name :=
  decodes_optional (fun _ => Json.noConfusion) fun s _ => decodes_text n s

theorem decodes_node {kind : Json} {st : Stmt} (hp : Position.holding.place p = p)
    (h : ∀ n, Decodes n (kindOfJson (list (ofJsonWithin n)) p) kind st) (n : Nat) :
    Decodes n (ofJsonWithin n) (Expr.node p.toJson kind) st := by
  intro d hd
  cases n with
  | zero => cases hd
  | succ n =>
    exact Expr.finds_node hp (h n) (Nat.le_of_lt_succ hd)

mutual

/-- A statement is found in its document, if there are as many levels to enter as this has. -/
theorem decodes_toJson : ∀ {st : Stmt}, moved Position.holding st = st →
    (∀ l ∈ leaves st, l.IsProper) → ∀ n, Decodes n (ofJsonWithin n) (st.toJson Position.toJson) st
  -- By the constructors of statements: a node takes one level, below which its members are decoded
  -- in the order in which they are written.
  | entryPoint p body, hp, hl, n => by
    simp only [moved, entryPoint.injEq] at hp
    refine decodes_node hp.1 (fun n => decodes_variant ["body"] [_]
      (by decide) rfl rfl (fun _ => rfl) fun d hd => ?_) n
    exact (decodes_listToJson hp.2 hl n d hd).bind (.pure d _)
  | functionDefinition p name ps body, hp, hl, n => by
    simp only [moved, functionDefinition.injEq] at hp
    simp only [leaves, List.forall_mem_cons, List.forall_mem_append] at hl
    refine decodes_node hp.1 (fun n => decodes_variant ["name", "params", "body"] [_, _, _]
      (by decide) rfl rfl (fun _ => rfl) fun d hd => ?_) n
    exact (decodes_text n name d hd).bind <| (decodes_params hp.2.2.1 d hd).bind <|
      (decodes_listToJson hp.2.2.2 hl.2.2 n d hd).bind (.pure d _)
  | structureDefinition p name fs, hp, _, n => by
    simp only [moved, structureDefinition.injEq] at hp
    refine decodes_node hp.1 (fun n => decodes_variant ["name", "fields"] [_, _]
      (by decide) rfl rfl (fun _ => rfl) fun d hd => ?_) n
    exact (decodes_text n name d hd).bind <| (decodes_params hp.2.2 d hd).bind (.pure d _)
  | block p body, hp, hl, n => by
    simp only [moved, block.injEq] at hp
    refine decodes_node hp.1 (fun n => decodes_tagged rfl fun d hd => ?_) n
    exact (decodes_listToJson hp.2 hl n d hd).map (block p)
  -- An optional block is split into its two cases, as it is where the document is written.
  | conditional p c body branches none, hp, hl, n => by
    simp only [moved, conditional.injEq] at hp
    simp only [leaves, List.forall_mem_append] at hl
    refine decodes_node hp.1 (fun n => decodes_variant
      ["condition", "body", "else_ifs", "else_body"] [_, _, _, _] (by decide) rfl
      rfl (fun _ => rfl) fun d hd => ?_) n
    exact (Expr.decodes_ofJson hp.2.1 hl.1 d hd).bind <|
      (decodes_listToJson hp.2.2.1 hl.2.1 n d hd).bind <|
      (decodes_branchesToJson hp.2.2.2.1 hl.2.2.1 n d hd).bind <|
      (decodes_none (list (ofJsonWithin n)) d hd).bind (.pure d _)
  | conditional p c body branches (some b), hp, hl, n => by
    simp only [moved, conditional.injEq, Option.some.injEq] at hp
    simp only [leaves, List.forall_mem_append] at hl
    refine decodes_node hp.1 (fun n => decodes_variant
      ["condition", "body", "else_ifs", "else_body"] [_, _, _, _] (by decide) rfl
      rfl (fun _ => rfl) fun d hd => ?_) n
    have hb := decodes_some Json.noConfusion (decodes_listToJson hp.2.2.2.2 hl.2.2.2 n)
    exact (Expr.decodes_ofJson hp.2.1 hl.1 d hd).bind <|
      (decodes_listToJson hp.2.2.1 hl.2.1 n d hd).bind <|
      (decodes_branchesToJson hp.2.2.2.1 hl.2.2.1 n d hd).bind <| (hb d hd).bind (.pure d _)
  | whileLoop p c body, hp, hl, n => by
    simp only [moved, whileLoop.injEq] at hp
    simp only [leaves, List.forall_mem_append] at hl
    refine decodes_node hp.1 (fun n => decodes_variant ["condition", "body"] [_, _]
      (by decide) rfl rfl (fun _ => rfl) fun d hd => ?_) n
    exact (Expr.decodes_ofJson hp.2.1 hl.1 d hd).bind <|
      (decodes_listToJson hp.2.2 hl.2 n d hd).bind (.pure d _)
  | untilLoop p c body, hp, hl, n => by
    simp only [moved, untilLoop.injEq] at hp
    simp only [leaves, List.forall_mem_append] at hl
    refine decodes_node hp.1 (fun n => decodes_variant ["condition", "body"] [_, _]
      (by decide) rfl rfl (fun _ => rfl) fun d hd => ?_) n
    exact (Expr.decodes_ofJson hp.2.1 hl.1 d hd).bind <|
      (decodes_listToJson hp.2.2 hl.2 n d hd).bind (.pure d _)
  | doWhile p body c, hp, hl, n => by
    simp only [moved, doWhile.injEq] at hp
    simp only [leaves, List.forall_mem_append] at hl
    refine decodes_node hp.1 (fun n => decodes_variant ["body", "condition"] [_, _]
      (by decide) rfl rfl (fun _ => rfl) fun d hd => ?_) n
    exact (decodes_listToJson hp.2.1 hl.1 n d hd).bind <|
      (Expr.decodes_ofJson hp.2.2 hl.2 d hd).bind (.pure d _)
  | doUntil p body c, hp, hl, n => by
    simp only [moved, doUntil.injEq] at hp
    simp only [leaves, List.forall_mem_append] at hl
    refine decodes_node hp.1 (fun n => decodes_variant ["body", "condition"] [_, _]
      (by decide) rfl rfl (fun _ => rfl) fun d hd => ?_) n
    exact (decodes_listToJson hp.2.1 hl.1 n d hd).bind <|
      (Expr.decodes_ofJson hp.2.2 hl.2 d hd).bind (.pure d _)
  | forEach p name e body, hp, hl, n => by
    simp only [moved, forEach.injEq] at hp
    simp only [leaves, List.forall_mem_cons, List.forall_mem_append] at hl
    refine decodes_node hp.1 (fun n => decodes_variant ["variable", "iterable", "body"] [_, _, _]
      (by decide) rfl rfl (fun _ => rfl) fun d hd => ?_) n
    exact (decodes_text n name d hd).bind <| (Expr.decodes_ofJson hp.2.2.1 hl.2.1 d hd).bind <|
      (decodes_listToJson hp.2.2.2 hl.2.2 n d hd).bind (.pure d _)
  | forRange p name a b step body, hp, hl, n => by
    simp only [moved, forRange.injEq] at hp
    simp only [leaves, List.forall_mem_cons, List.forall_mem_append] at hl
    refine decodes_node hp.1 (fun n => decodes_variant ["variable", "from", "to", "step", "body"]
      [_, _, _, _, _] (by decide) rfl rfl (fun _ => rfl) fun d hd => ?_) n
    exact (decodes_text n name d hd).bind <| (Expr.decodes_ofJson hp.2.2.1 hl.2.1 d hd).bind <|
      (Expr.decodes_ofJson hp.2.2.2.1 hl.2.2.1 d hd).bind <|
      (Expr.decodes_optional_ofJson hp.2.2.2.2.1 hl.2.2.2.1 d hd).bind <|
      (decodes_listToJson hp.2.2.2.2.2 hl.2.2.2.2 n d hd).bind (.pure d _)
  | repeatLoop p e body, hp, hl, n => by
    simp only [moved, repeatLoop.injEq] at hp
    simp only [leaves, List.forall_mem_append] at hl
    refine decodes_node hp.1 (fun n => decodes_variant ["count", "body"] [_, _]
      (by decide) rfl rfl (fun _ => rfl) fun d hd => ?_) n
    exact (Expr.decodes_ofJson hp.2.1 hl.1 d hd).bind <|
      (decodes_listToJson hp.2.2 hl.2 n d hd).bind (.pure d _)
  | tryCatch p body name handler none, hp, hl, n => by
    simp only [moved, tryCatch.injEq] at hp
    simp only [leaves, List.forall_mem_append] at hl
    refine decodes_node hp.1 (fun n => decodes_variant ["body", "error_name", "handler", "finally"]
      [_, _, _, _] (by decide) rfl rfl (fun _ => rfl) fun d hd => ?_) n
    exact (decodes_listToJson hp.2.1 hl.1 n d hd).bind <| (decodes_errorName name d hd).bind <|
      (decodes_listToJson hp.2.2.2.1 hl.2.1.2 n d hd).bind <|
      (decodes_none (list (ofJsonWithin n)) d hd).bind (.pure d _)
  | tryCatch p body name handler (some b), hp, hl, n => by
    simp only [moved, tryCatch.injEq, Option.some.injEq] at hp
    simp only [leaves, List.forall_mem_append] at hl
    refine decodes_node hp.1 (fun n => decodes_variant ["body", "error_name", "handler", "finally"]
      [_, _, _, _] (by decide) rfl rfl (fun _ => rfl) fun d hd => ?_) n
    have hb := decodes_some Json.noConfusion (decodes_listToJson hp.2.2.2.2 hl.2.2 n)
    exact (decodes_listToJson hp.2.1 hl.1 n d hd).bind <| (decodes_errorName name d hd).bind <|
      (decodes_listToJson hp.2.2.2.1 hl.2.1.2 n d hd).bind <| (hb d hd).bind (.pure d _)
  | returning p e, hp, hl, n => by
    simp only [moved, returning.injEq] at hp
    refine decodes_node hp.1 (fun n => decodes_tagged rfl fun d hd => ?_) n
    exact (Expr.decodes_optional_ofJson hp.2 hl d hd).map (returning p)
  -- A statement without parts is the name of its kind, so there is nothing to decode below it.
  | breaking p, hp, _, n => by
    simp only [moved, breaking.injEq] at hp
    exact decodes_node hp (fun n d _ => by cases d <;> rfl) n
  | continuing p, hp, _, n => by
    simp only [moved, continuing.injEq] at hp
    exact decodes_node hp (fun n d _ => by cases d <;> rfl) n
  | exiting p, hp, _, n => by
    simp only [moved, exiting.injEq] at hp
    exact decodes_node hp (fun n d _ => by cases d <;> rfl) n
  | throwing p e, hp, hl, n => by
    simp only [moved, throwing.injEq] at hp
    refine decodes_node hp.1 (fun n => decodes_tagged rfl fun d hd => ?_) n
    exact (Expr.decodes_ofJson hp.2 hl d hd).map (throwing p)
  | assignment p x e, hp, hl, n => by
    simp only [moved, assignment.injEq] at hp
    simp only [leaves, List.forall_mem_append] at hl
    refine decodes_node hp.1 (fun n => decodes_variant ["target", "value"] [_, _]
      (by decide) rfl rfl (fun _ => rfl) fun d hd => ?_) n
    exact (Expr.decodes_ofJson hp.2.1 hl.1 d hd).bind <|
      (Expr.decodes_ofJson hp.2.2 hl.2 d hd).bind (.pure d _)
  | declaration p name e, hp, hl, n => by
    simp only [moved, declaration.injEq] at hp
    simp only [leaves, List.forall_mem_cons] at hl
    refine decodes_node hp.1 (fun n => decodes_variant ["name", "value"] [_, _]
      (by decide) rfl rfl (fun _ => rfl) fun d hd => ?_) n
    exact (decodes_text n name d hd).bind <|
      (Expr.decodes_ofJson hp.2.2 hl.2 d hd).bind (.pure d _)
  | increment p name e, hp, hl, n => by
    simp only [moved, increment.injEq] at hp
    simp only [leaves, List.forall_mem_cons] at hl
    refine decodes_node hp.1 (fun n => decodes_variant ["name", "amount"] [_, _]
      (by decide) rfl rfl (fun _ => rfl) fun d hd => ?_) n
    exact (decodes_text n name d hd).bind <|
      (Expr.decodes_optional_ofJson hp.2.2 hl.2 d hd).bind (.pure d _)
  | decrement p name e, hp, hl, n => by
    simp only [moved, decrement.injEq] at hp
    simp only [leaves, List.forall_mem_cons] at hl
    refine decodes_node hp.1 (fun n => decodes_variant ["name", "amount"] [_, _]
      (by decide) rfl rfl (fun _ => rfl) fun d hd => ?_) n
    exact (decodes_text n name d hd).bind <|
      (Expr.decodes_optional_ofJson hp.2.2 hl.2 d hd).bind (.pure d _)
  | swap p l r, hp, _, n => by
    simp only [moved, swap.injEq] at hp
    refine decodes_node hp.1 (fun n => decodes_variant ["left", "right"] [_, _]
      (by decide) rfl rfl (fun _ => rfl) fun d hd => ?_) n
    exact (decodes_text n l d hd).bind <| (decodes_text n r d hd).bind (.pure d _)
  | listAdd p e l, hp, hl, n => by
    simp only [moved, listAdd.injEq] at hp
    simp only [leaves, List.forall_mem_append] at hl
    refine decodes_node hp.1 (fun n => decodes_variant ["value", "list"] [_, _]
      (by decide) rfl rfl (fun _ => rfl) fun d hd => ?_) n
    exact (Expr.decodes_ofJson hp.2.1 hl.1 d hd).bind <|
      (Expr.decodes_ofJson hp.2.2 hl.2 d hd).bind (.pure d _)
  | listRemove p e l, hp, hl, n => by
    simp only [moved, listRemove.injEq] at hp
    simp only [leaves, List.forall_mem_append] at hl
    refine decodes_node hp.1 (fun n => decodes_variant ["value", "list"] [_, _]
      (by decide) rfl rfl (fun _ => rfl) fun d hd => ?_) n
    exact (Expr.decodes_ofJson hp.2.1 hl.1 d hd).bind <|
      (Expr.decodes_ofJson hp.2.2 hl.2 d hd).bind (.pure d _)
  | print p e, hp, hl, n => by
    simp only [moved, print.injEq] at hp
    refine decodes_node hp.1 (fun n => decodes_tagged rfl fun d hd => ?_) n
    exact (Expr.decodes_ofJson hp.2 hl d hd).map (print p)
  | readInto p name, hp, _, n => by
    simp only [moved, readInto.injEq] at hp
    refine decodes_node hp.1 (fun n => decodes_tagged rfl fun d hd => ?_) n
    exact (decodes_text n name d hd).map (readInto p)
  | assertion p e, hp, hl, n => by
    simp only [moved, assertion.injEq] at hp
    refine decodes_node hp.1 (fun n => decodes_tagged rfl fun d hd => ?_) n
    exact (Expr.decodes_ofJson hp.2 hl d hd).map (assertion p)
  | importing p name, hp, _, n => by
    simp only [moved, importing.injEq] at hp
    refine decodes_node hp.1 (fun n => decodes_tagged rfl fun d hd => ?_) n
    exact (decodes_text n name d hd).map (importing p)
  | expression p e, hp, hl, n => by
    simp only [moved, expression.injEq] at hp
    refine decodes_node hp.1 (fun n => decodes_tagged rfl fun d hd => ?_) n
    exact (Expr.decodes_ofJson hp.2 hl d hd).map (expression p)
termination_by structural st => st

theorem decodes_listToJson : ∀ {sts : List Stmt}, movedAll Position.holding sts = sts →
    (∀ l ∈ leavesAll sts, l.IsProper) → ∀ n,
    Decodes n (list (ofJsonWithin n)) (.array (listToJson Position.toJson sts)) sts
  | [], _, _, _ => decodes_nil
  | st :: sts, hp, hl, n => by
    simp only [movedAll, List.cons.injEq] at hp
    simp only [leavesAll, List.forall_mem_append] at hl
    exact decodes_cons (decodes_toJson hp.1 hl.1 n) (decodes_listToJson hp.2 hl.2 n)
termination_by structural sts => sts

theorem decodes_branchesToJson : ∀ {branches : List Branch},
    movedBranches Position.holding branches = branches →
    (∀ l ∈ leavesBranches branches, l.IsProper) → ∀ n,
    Decodes n (list (branchOfJson (list (ofJsonWithin n))))
      (.array (branchesToJson Position.toJson branches)) branches
  | [], _, _, _ => decodes_nil
  | .mk p c body :: branches, hp, hl, n => by
    simp only [movedBranches, List.cons.injEq, Branch.mk.injEq] at hp
    simp only [leavesBranches, List.forall_mem_append] at hl
    refine decodes_cons (fun d hd => ?_) (decodes_branchesToJson hp.2 hl.2 n)
    refine finds_record ["condition", "body", "position"] [_, _, _] (by decide) rfl
      (Nat.le_of_lt hd) fun d hd => ?_
    have hplace := Position.decodes_toJson hp.1.1 n d hd
    have hc := Expr.decodes_ofJson hp.1.2.1 hl.1.1 d hd
    have hbody := decodes_listToJson hp.1.2.2 hl.1.2 n d hd
    refine Finds.of_eq (hplace.bind (hc.bind (hbody.bind (.pure d _)))) ?_
    simp only [levelsItems, Nat.max_zero]
    omega
termination_by structural branches => branches

end

section plain

open Prose.Expr (isPlain_node)

theorem isPlain_optional {e : Option Expr} (hpos : ∀ p, (pos p).IsPlain) :
    (Json.optional (·.toJson pos) e).IsPlain := by
  cases e with
  | none => exact .null
  | some e => exact e.isPlain_toJson hpos

theorem isPlain_errorName (name : Option String) : (Json.optional .text name).IsPlain := by
  cases name with
  | none => exact .null
  | some s => exact .text s

theorem isPlain_params (hpos : ∀ p, (pos p).IsPlain) (ps : List Param) :
    (Json.array (ps.map (paramToJson pos))).IsPlain := by
  refine .array (List.forall_mem_map.mpr fun q _ => .record ?_)
  simp [IsPlain.text, hpos]

mutual

theorem isPlain_toJson (hpos : ∀ p, (pos p).IsPlain) : ∀ st : Stmt, (st.toJson pos).IsPlain
  -- A member is a name or the document of a part, and all of these are plain.
  | entryPoint p body => isPlain_node (hpos p) <| .tagged <| .record <| by
    simp [isPlain_listToJson hpos body]
  | functionDefinition p name ps body => isPlain_node (hpos p) <| .tagged <| .record <| by
    simp [IsPlain.text, isPlain_params hpos ps, isPlain_listToJson hpos body]
  | structureDefinition p name fs => isPlain_node (hpos p) <| .tagged <| .record <| by
    simp [IsPlain.text, isPlain_params hpos fs]
  | block p body => isPlain_node (hpos p) (.tagged (isPlain_listToJson hpos body))
  | conditional p c body branches none => isPlain_node (hpos p) <| .tagged <| .record <| by
    simp [c.isPlain_toJson hpos, isPlain_listToJson hpos body, IsPlain.null,
      isPlain_branchesToJson hpos branches]
  | conditional p c body branches (some b) => isPlain_node (hpos p) <| .tagged <| .record <| by
    simp [c.isPlain_toJson hpos, isPlain_listToJson hpos body, isPlain_listToJson hpos b,
      isPlain_branchesToJson hpos branches]
  | whileLoop p c body | untilLoop p c body | doWhile p body c | doUntil p body c
  | repeatLoop p c body => isPlain_node (hpos p) <| .tagged <| .record <| by
    simp [c.isPlain_toJson hpos, isPlain_listToJson hpos body]
  | forEach p name e body => isPlain_node (hpos p) <| .tagged <| .record <| by
    simp [IsPlain.text, e.isPlain_toJson hpos, isPlain_listToJson hpos body]
  | forRange p name a b step body => isPlain_node (hpos p) <| .tagged <| .record <| by
    simp [IsPlain.text, a.isPlain_toJson hpos, b.isPlain_toJson hpos, isPlain_optional hpos,
      isPlain_listToJson hpos body]
  | tryCatch p body name handler none => isPlain_node (hpos p) <| .tagged <| .record <| by
    simp [isPlain_listToJson hpos body, isPlain_errorName, isPlain_listToJson hpos handler,
      IsPlain.null]
  | tryCatch p body name handler (some b) => isPlain_node (hpos p) <| .tagged <| .record <| by
    simp [isPlain_listToJson hpos body, isPlain_errorName, isPlain_listToJson hpos handler,
      isPlain_listToJson hpos b]
  | returning p e => isPlain_node (hpos p) (.tagged (isPlain_optional hpos))
  | breaking p | continuing p | exiting p => isPlain_node (hpos p) (.text _)
  | throwing p e | print p e | assertion p e | expression p e =>
    isPlain_node (hpos p) (.tagged (e.isPlain_toJson hpos))
  | assignment p x e | listAdd p x e | listRemove p x e =>
    isPlain_node (hpos p) <| .tagged <| .record <| by
      simp [x.isPlain_toJson hpos, e.isPlain_toJson hpos]
  | declaration p name e => isPlain_node (hpos p) <| .tagged <| .record <| by
    simp [IsPlain.text, e.isPlain_toJson hpos]
  | increment p name e | decrement p name e => isPlain_node (hpos p) <| .tagged <| .record <| by
    simp [IsPlain.text, isPlain_optional hpos]
  | swap p l r => isPlain_node (hpos p) <| .tagged <| .record <| by
    simp [IsPlain.text]
  | readInto p name | importing p name => isPlain_node (hpos p) (.tagged (.text name))
termination_by structural st => st

theorem isPlain_listToJson (hpos : ∀ p, (pos p).IsPlain) :
    ∀ sts : List Stmt, (Json.array (listToJson pos sts)).IsPlain
  | [] => isPlain_nil
  | st :: sts => isPlain_cons (isPlain_toJson hpos st) (isPlain_listToJson hpos sts)
termination_by structural sts => sts

theorem isPlain_branchesToJson (hpos : ∀ p, (pos p).IsPlain) :
    ∀ branches : List Branch, (Json.array (branchesToJson pos branches)).IsPlain
  | [] => isPlain_nil
  | .mk p c body :: branches => isPlain_cons
    (.record (by simp [c.isPlain_toJson hpos, isPlain_listToJson hpos body, hpos p]))
    (isPlain_branchesToJson hpos branches)
termination_by structural branches => branches

end

end plain

end Stmt

end Prose
