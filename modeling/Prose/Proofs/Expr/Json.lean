import Prose.Expr.Json
import Prose.Proofs.Expr.Leaves
import Prose.Proofs.Expr.Relocation
import Prose.Proofs.Json.Decoding
import Prose.Proofs.Json.Reading
import Prose.Proofs.Number.Reading

namespace Prose

open Json Json.Decoder

namespace Position

def holding : Relocation :=
  ⟨0, fun p => if p.line < Nat.pow 2 64 ∧ p.column < Nat.pow 2 64 then p else .unknown, by decide⟩

theorem lt_of_holding {p : Position} (h : holding.place p = p) :
    p.line < Nat.pow 2 64 ∧ p.column < Nat.pow 2 64 := by
  by_cases hp : p.line < Nat.pow 2 64 ∧ p.column < Nat.pow 2 64
  · exact hp
  · have hunknown : Position.unknown = p := (if_neg hp).symm.trans h
    exact hunknown ▸ by decide

theorem isPlain_toJson (p : Position) : p.toJson.IsPlain :=
  .record (by simp [Json.IsPlain.natural, Json.IsPlain.text])

theorem decodes_toJson {p : Position} (h : holding.place p = p) (n : Nat) :
    Decodes n ofJson p.toJson p := by
  obtain ⟨hline, hcolumn⟩ := lt_of_holding h
  intro d hd
  refine finds_record ["line", "column", "source"]
    [.natural p.line, .natural p.column, .text p.source] (by decide) rfl (Nat.le_of_lt hd)
      fun d hd => ?_
  exact (decodes_natural n hline d hd).bind <| (decodes_natural n hcolumn d hd).bind <|
    (decodes_text n p.source d hd).bind (.pure d p)

end Position

def Leaf.IsProper : Leaf → Prop
  | .value (.number d) => d.IsProper
  | _ => True

theorem Json.isPlain_nameIn {α : Type} [BEq α] (names : List (α × String)) (a : α) :
    (nameIn names a).IsPlain :=
  .text _

namespace Json.Decoder

theorem decodes_nameIn {α : Type} [BEq α] {names : List (α × String)} {a : α}
    (h : (names.find? (·.2 == (names.lookup a).getD "")).map (·.1) = some a) (n : Nat) :
    Decodes n (namedIn names) (nameIn names a) a := by
  intro d _
  have hname : namedIn names d (nameIn names a) =
      (names.find? (·.2 == (names.lookup a).getD "")).map (·.1) := by
    cases d <;> rfl
  rw [hname, h]
  exact .pure d a

end Json.Decoder

theorem TypeName.decodes_nameIn (t : TypeName) (n : Nat) :
    Decodes n (namedIn names) (.nameIn names t) t :=
  Json.Decoder.decodes_nameIn (by cases t <;> decide) n

theorem BinaryOp.decodes_nameIn (op : BinaryOp) (n : Nat) :
    Decodes n (namedIn names) (.nameIn names op) op :=
  Json.Decoder.decodes_nameIn (by cases op <;> decide) n

theorem UnaryOp.decodes_nameIn (op : UnaryOp) (n : Nat) :
    Decodes n (namedIn names) (.nameIn names op) op :=
  Json.Decoder.decodes_nameIn (by cases op <;> decide) n

namespace Literal

theorem decodes_toJson {v : Literal} (h : (Leaf.value v).IsProper) (n : Nat) :
    Decodes n ofJson v.toJson v := by
  cases v with
  | number x =>
    refine decodes_tagged rfl fun d _ => ?_
    have hx : Number.Decimal.ofJson d (.text x.render) = some x := by
      rw [Json.text, Number.Decimal.ofJson, Number.Decimal.IsProper.read?_render h]
      rfl
    exact (show Finds d 0 _ x from hx ▸ .pure d x).map number
  | text s => exact decodes_tagged rfl fun d hd => (decodes_text n s d hd).map text
  | character c => exact decodes_tagged rfl fun d hd => (decodes_char n c d hd).map character
  | boolean b => exact decodes_tagged rfl fun d hd => (decodes_boolean n b d hd).map boolean
  | null => exact fun d _ => by cases d <;> rfl

theorem isPlain_toJson (v : Literal) : v.toJson.IsPlain := by
  cases v with
  | null => exact .text _
  | boolean b => exact .tagged (.boolean b)
  | _ => exact .tagged (.text _)

end Literal

namespace Expr

variable {pos : Position → Json} {p : Position} {n : Nat}

theorem toJson_ne_null (pos : Position → Json) (e : Expr) : e.toJson pos ≠ .null := by
  cases e with
  | selection _ _ _ d => cases d <;> exact Json.noConfusion
  | _ => exact Json.noConfusion

/-- A node is decoded if its kind is decoded in its place, which is decoded first though it is
written behind the kind. -/
theorem finds_node {α : Type} {dec : Position → Decoder α} {kind : Json} {a : α} {d : Nat}
    (hp : Position.holding.place p = p) (h : Decodes n (dec p) kind a) (hd : d ≤ n) :
    Finds d (node p.toJson kind).levels
      ((fields ["kind", "position"] false d (node p.toJson kind)).bind fun
        | (d, [kind, place]) =>
          (Json.Decoder.required Position.ofJson d place).bind fun place =>
            Json.Decoder.required (dec place) d kind
        | _ => none) a := by
  refine finds_record ["kind", "position"] [kind, p.toJson] (by decide) rfl hd fun d hd => ?_
  refine Finds.of_eq ((Position.decodes_toJson hp n d hd).bind (h d hd)) ?_
  simp only [Json.levelsItems, Nat.max_zero]
  exact Nat.max_comm _ _

theorem decodes_node {kind : Json} {e : Expr} (hp : Position.holding.place p = p)
    (h : ∀ n, Decodes n (kindOfJson (ofJsonWithin n) p) kind e) (n : Nat) :
    Decodes n (ofJsonWithin n) (node p.toJson kind) e := by
  intro d hd
  cases n with
  | zero => cases hd
  | succ n =>
    exact finds_node hp (h n) (Nat.le_of_lt_succ hd)

mutual

/-- An expression is found in its document, if there are as many levels to enter as this has. -/
theorem decodes_toJson : ∀ {e : Expr}, moved Position.holding e = e →
    (∀ l ∈ leaves e, l.IsProper) → ∀ n, Decodes n (ofJsonWithin n) (e.toJson Position.toJson) e
  -- By the constructors of expressions: a node takes one level, below which its members are
  -- decoded.
  | literal p v, hp, hl, n => by
    simp only [moved, literal.injEq] at hp
    simp only [leaves, List.forall_mem_singleton] at hl
    refine decodes_node hp.1 (fun n => decodes_tagged rfl fun d hd => ?_) n
    exact (Literal.decodes_toJson hl n d hd).map (literal p)
  | identifier p x, hp, _, n => by
    simp only [moved, identifier.injEq] at hp
    refine decodes_node hp.1 (fun n => decodes_tagged rfl fun d hd => ?_) n
    exact (decodes_text n x d hd).map (identifier p)
  | grouping p e, hp, hl, n => by
    simp only [moved, grouping.injEq] at hp
    refine decodes_node hp.1 (fun n => decodes_tagged rfl fun d hd => ?_) n
    exact (decodes_toJson hp.2 hl n d hd).map (grouping p)
  | list p es, hp, hl, n => by
    simp only [moved, list.injEq] at hp
    refine decodes_node hp.1 (fun n => decodes_tagged rfl fun d hd => ?_) n
    exact (decodes_listToJson hp.2 hl n d hd).map (list p)
  | binary p l op r, hp, hl, n => by
    simp only [moved, binary.injEq] at hp
    simp only [leaves, List.forall_mem_append] at hl
    refine decodes_node hp.1 (fun n => decodes_variant ["left", "op", "right"] [_, _, _]
      (by decide) rfl rfl (fun _ => rfl) fun d hd => ?_) n
    exact (decodes_toJson hp.2.1 hl.1 n d hd).bind <|
      (BinaryOp.decodes_nameIn op n d hd).bind <|
      (decodes_toJson hp.2.2.2 hl.2 n d hd).bind (.pure d _)
  | unary p op e, hp, hl, n => by
    simp only [moved, unary.injEq] at hp
    refine decodes_node hp.1 (fun n => decodes_variant ["op", "operand"] [_, _]
      (by decide) rfl rfl (fun _ => rfl) fun d hd => ?_) n
    exact (UnaryOp.decodes_nameIn op n d hd).bind <|
      (decodes_toJson hp.2.2 hl n d hd).bind (.pure d _)
  | nullCheck p e negated, hp, hl, n => by
    simp only [moved, nullCheck.injEq] at hp
    refine decodes_node hp.1 (fun n => decodes_variant ["operand", "negated"] [_, _]
      (by decide) rfl rfl (fun _ => rfl) fun d hd => ?_) n
    exact (decodes_toJson hp.2.1 hl n d hd).bind <|
      (decodes_boolean n negated d hd).bind (.pure d _)
  | typeCheck p e t, hp, hl, n => by
    simp only [moved, typeCheck.injEq] at hp
    refine decodes_node hp.1 (fun n => decodes_variant ["operand", "type_name"] [_, _]
      (by decide) rfl rfl (fun _ => rfl) fun d hd => ?_) n
    exact (decodes_toJson hp.2.1 hl n d hd).bind <|
      (TypeName.decodes_nameIn t n d hd).bind (.pure d _)
  | cast p e t, hp, hl, n => by
    simp only [moved, cast.injEq] at hp
    refine decodes_node hp.1 (fun n => decodes_variant ["operand", "target"] [_, _]
      (by decide) rfl rfl (fun _ => rfl) fun d hd => ?_) n
    exact (decodes_toJson hp.2.1 hl n d hd).bind <|
      (TypeName.decodes_nameIn t n d hd).bind (.pure d _)
  | index p c i, hp, hl, n => by
    simp only [moved, index.injEq] at hp
    simp only [leaves, List.forall_mem_append] at hl
    refine decodes_node hp.1 (fun n => decodes_variant ["collection", "index"] [_, _]
      (by decide) rfl rfl (fun _ => rfl) fun d hd => ?_) n
    exact (decodes_toJson hp.2.1 hl.2 n d hd).bind <|
      (decodes_toJson hp.2.2 hl.1 n d hd).bind (.pure d _)
  | slice p c a b, hp, hl, n => by
    simp only [moved, slice.injEq] at hp
    simp only [leaves, List.forall_mem_append] at hl
    refine decodes_node hp.1 (fun n => decodes_variant ["collection", "from", "to"] [_, _, _]
      (by decide) rfl rfl (fun _ => rfl) fun d hd => ?_) n
    exact (decodes_toJson hp.2.1 hl.1 n d hd).bind <|
      (decodes_toJson hp.2.2.1 hl.2.1 n d hd).bind <|
      (decodes_toJson hp.2.2.2 hl.2.2 n d hd).bind (.pure d _)
  | call p f args, hp, hl, n => by
    simp only [moved, call.injEq] at hp
    simp only [leaves, List.forall_mem_cons] at hl
    refine decodes_node hp.1 (fun n => decodes_variant ["callee", "arguments"] [_, _]
      (by decide) rfl rfl (fun _ => rfl) fun d hd => ?_) n
    exact (decodes_text n f d hd).bind <|
      (decodes_listToJson hp.2.2 hl.2 n d hd).bind (.pure d _)
  | ternary p c a b, hp, hl, n => by
    simp only [moved, ternary.injEq] at hp
    simp only [leaves, List.forall_mem_append] at hl
    refine decodes_node hp.1 (fun n => decodes_variant ["condition", "then_value", "else_value"]
      [_, _, _] (by decide) rfl rfl (fun _ => rfl) fun d hd => ?_) n
    exact (decodes_toJson hp.2.1 hl.1 n d hd).bind <|
      (decodes_toJson hp.2.2.1 hl.2.1 n d hd).bind <|
      (decodes_toJson hp.2.2.2 hl.2.2 n d hd).bind (.pure d _)
  | selection p e arms none, hp, hl, n => by
    simp only [moved, selection.injEq] at hp
    simp only [leaves, List.forall_mem_append] at hl
    refine decodes_node hp.1 (fun n => decodes_variant ["subject", "arms", "default"] [_, _, _]
      (by decide) rfl rfl (fun _ => rfl) fun d hd => ?_) n
    exact (decodes_toJson hp.2.1 hl.1 n d hd).bind <|
      (decodes_armsToJson hp.2.2.1 hl.2.1 n d hd).bind <|
      (decodes_none (ofJsonWithin n) d hd).bind (.pure d _)
  | selection p e arms (some f), hp, hl, n => by
    simp only [moved, selection.injEq, Option.some.injEq] at hp
    simp only [leaves, List.forall_mem_append] at hl
    refine decodes_node hp.1 (fun n => decodes_variant ["subject", "arms", "default"] [_, _, _]
      (by decide) rfl rfl (fun _ => rfl) fun d hd => ?_) n
    have hf : Decodes n (optional (ofJsonWithin n)) (f.toJson Position.toJson) (some f) :=
      decodes_some (toJson_ne_null _ f) (decodes_toJson hp.2.2.2 hl.2.2 n)
    exact (decodes_toJson hp.2.1 hl.1 n d hd).bind <|
      (decodes_armsToJson hp.2.2.1 hl.2.1 n d hd).bind <| (hf d hd).bind (.pure d _)
termination_by structural e => e

theorem decodes_listToJson : ∀ {es : List Expr}, movedList Position.holding es = es →
    (∀ l ∈ leavesList es, l.IsProper) → ∀ n,
    Decodes n (Json.Decoder.list (ofJsonWithin n)) (.array (listToJson Position.toJson es)) es
  | [], _, _, _ => decodes_nil
  | e :: es, hp, hl, n => by
    simp only [movedList, List.cons.injEq] at hp
    simp only [leavesList, List.forall_mem_append] at hl
    exact decodes_cons (decodes_toJson hp.1 hl.1 n) (decodes_listToJson hp.2 hl.2 n)
termination_by structural es => es

theorem decodes_armsToJson : ∀ {arms : List (Expr × Expr)}, movedArms Position.holding arms = arms →
    (∀ l ∈ leavesArms arms, l.IsProper) → ∀ n,
    Decodes n (Json.Decoder.list (armOfJson (ofJsonWithin n)))
      (.array (armsToJson Position.toJson arms)) arms
  | [], _, _, _ => decodes_nil
  | (p, r) :: arms, hp, hl, n => by
    simp only [movedArms, List.cons.injEq, Prod.mk.injEq] at hp
    simp only [leavesArms, List.forall_mem_append] at hl
    refine decodes_cons (fun d hd => ?_) (decodes_armsToJson hp.2 hl.2 n)
    refine finds_record ["pattern", "result"] [_, _] (by decide) rfl (Nat.le_of_lt hd)
      fun d hd => ?_
    exact (decodes_toJson hp.1.1 hl.1.1 n d hd).bind <|
      (decodes_toJson hp.1.2 hl.1.2 n d hd).bind (.pure d _)
termination_by structural arms => arms

end

theorem isPlain_node {place kind : Json} (hp : place.IsPlain) (hk : kind.IsPlain) :
    (node place kind).IsPlain :=
  .record (by simp [hp, hk])

mutual

theorem isPlain_toJson (hpos : ∀ p, (pos p).IsPlain) : ∀ e : Expr, (e.toJson pos).IsPlain
  | literal p v => isPlain_node (hpos p) (.tagged v.isPlain_toJson)
  | identifier p x => isPlain_node (hpos p) (.tagged (.text x))
  | grouping p e => isPlain_node (hpos p) (.tagged (isPlain_toJson hpos e))
  | list p es => isPlain_node (hpos p) (.tagged (isPlain_listToJson hpos es))
  | binary p l op r => isPlain_node (hpos p) <| .tagged <| .record <| by
    simp [isPlain_toJson hpos l, isPlain_nameIn, isPlain_toJson hpos r]
  | unary p op e => isPlain_node (hpos p) <| .tagged <| .record <| by
    simp [isPlain_nameIn, isPlain_toJson hpos e]
  | nullCheck p e negated => isPlain_node (hpos p) <| .tagged <| .record <| by
    simp [isPlain_toJson hpos e, IsPlain.boolean]
  | typeCheck p e t => isPlain_node (hpos p) <| .tagged <| .record <| by
    simp [isPlain_toJson hpos e, isPlain_nameIn]
  | cast p e t => isPlain_node (hpos p) <| .tagged <| .record <| by
    simp [isPlain_toJson hpos e, isPlain_nameIn]
  | index p c i => isPlain_node (hpos p) <| .tagged <| .record <| by
    simp [isPlain_toJson hpos c, isPlain_toJson hpos i]
  | slice p c a b => isPlain_node (hpos p) <| .tagged <| .record <| by
    simp [isPlain_toJson hpos c, isPlain_toJson hpos a, isPlain_toJson hpos b]
  | call p f args => isPlain_node (hpos p) <| .tagged <| .record <| by
    simp [IsPlain.text, isPlain_listToJson hpos args]
  | ternary p c a b => isPlain_node (hpos p) <| .tagged <| .record <| by
    simp [isPlain_toJson hpos c, isPlain_toJson hpos a, isPlain_toJson hpos b]
  | selection p e arms none => isPlain_node (hpos p) <| .tagged <| .record <| by
    simp [isPlain_toJson hpos e, isPlain_armsToJson hpos arms, IsPlain.null]
  | selection p e arms (some f) => isPlain_node (hpos p) <| .tagged <| .record <| by
    simp [isPlain_toJson hpos e, isPlain_armsToJson hpos arms,
      isPlain_toJson hpos f]
termination_by structural e => e

theorem isPlain_listToJson (hpos : ∀ p, (pos p).IsPlain) :
    ∀ es : List Expr, (Json.array (listToJson pos es)).IsPlain
  | [] => isPlain_nil
  | e :: es => isPlain_cons (isPlain_toJson hpos e) (isPlain_listToJson hpos es)
termination_by structural es => es

theorem isPlain_armsToJson (hpos : ∀ p, (pos p).IsPlain) :
    ∀ arms : List (Expr × Expr), (Json.array (armsToJson pos arms)).IsPlain
  | [] => isPlain_nil
  | (p, r) :: arms => isPlain_cons
    (.record (by simp [isPlain_toJson hpos p, isPlain_toJson hpos r]))
    (isPlain_armsToJson hpos arms)
termination_by structural arms => arms

end

end Expr

end Prose
