import Prose.Expr
import Prose.Json.Binary
import Prose.Json.Decoder

namespace Prose

def Position.toJson (p : Position) : Json :=
  .record [("line", .natural p.line), ("column", .natural p.column), ("source", .text p.source)]

def Position.ofJson : Json.Decoder Position := fun d j => do
  match ← Json.Decoder.fields ["line", "column", "source"] false d j with
  | (d, [line, column, source]) =>
    some ⟨← Json.Decoder.required Json.Decoder.natural d line,
      ← Json.Decoder.required Json.Decoder.natural d column,
      ← Json.Decoder.required Json.Decoder.text d source⟩
  | _ => none

def TypeName.names : List (TypeName × String) :=
  [(number, "Number"), (text, "Text"), (boolean, "Boolean"), (character, "Character"),
    (list, "List")]

def BinaryOp.names : List (BinaryOp × String) := [
  (add, "Add"), (subtract, "Subtract"), (multiply, "Multiply"), (divide, "Divide"),
  (modulo, "Modulo"), (power, "Power"), (conjunction, "And"), (disjunction, "Or"),
  (equal, "Equal"), (notEqual, "NotEqual"), (greater, "Greater"), (less, "Less"),
  (atLeast, "AtLeast"), (atMost, "AtMost"), (bitAnd, "BitAnd"), (bitOr, "BitOr"),
  (bitXor, "BitXor"), (shiftLeft, "ShiftLeft"), (shiftRight, "ShiftRight"), (concat, "Concat"),
  (contains, "Contains")]

def UnaryOp.names : List (UnaryOp × String) :=
  [(negation, "Not"), (negate, "Negate"), (bitNot, "BitNot"), (absolute, "Absolute"),
    (squareRoot, "SquareRoot"), (length, "Length")]

def Json.nameIn {α : Type} [BEq α] (names : List (α × String)) (a : α) : Json :=
  .text ((names.lookup a).getD "")

def Json.Decoder.namedIn {α : Type} (names : List (α × String)) : Json.Decoder α :=
  Json.Decoder.plain fun s => (names.find? (·.2 == s)).map (·.1)

def Literal.toJson : Literal → Json
  | number n => .tagged "Number" (.text n.render)
  | text s => .tagged "Text" (.text s)
  | character c => .tagged "Character" (.text c.toString)
  | boolean b => .tagged "Boolean" (.boolean b)
  | null => .text "Null"

/-- Reads a decimal, written as a text with or without an exponent, or as a number. A number that is
no integer of 64 bits stands for the shortest text of its binary value. -/
def Number.Decimal.ofJson : Json.Decoder Number.Decimal
  | _, .string (some s) =>
    (Number.Decimal.read? s.toList).or (Number.Decimal.readScientific? s.toList)
  | _, .number n =>
    match n.integer? with
    | some i => (Number.Magnitude.of? i.natAbs 0).map (Number.Decimal.signed n.negative)
    | none => do
      let m ← Number.Magnitude.read? (← n.binary?).digits
      some (Number.Decimal.signed n.negative m)
  | _, _ => none

def Literal.ofJson : Json.Decoder Literal := fun d j => do
  match ← Json.Decoder.variant d j with
  | (d, "Number", some p) => (Number.Decimal.ofJson d p).map .number
  | (d, "Text", some p) => (Json.Decoder.text d p).map .text
  | (d, "Character", some p) => (Json.Decoder.char d p).map .character
  | (d, "Boolean", some p) => (Json.Decoder.boolean d p).map .boolean
  | (_, "Null", none) | (_, "Null", some .null) => some .null
  | _ => none

namespace Expr

def node (place : Json) (kind : Json) : Json :=
  .record [("kind", kind), ("position", place)]

mutual

def toJson (pos : Position → Json) : Expr → Json
  | literal p v => node (pos p) (.tagged "Literal" v.toJson)
  | identifier p n => node (pos p) (.tagged "Identifier" (.text n))
  | grouping p e => node (pos p) (.tagged "Grouping" (toJson pos e))
  | list p es => node (pos p) (.tagged "List" (.array (listToJson pos es)))
  | binary p l op r => node (pos p) (.tagged "Binary" (.record
      [("left", toJson pos l), ("op", .nameIn BinaryOp.names op), ("right", toJson pos r)]))
  | unary p op e => node (pos p) (.tagged "Unary" (.record
      [("op", .nameIn UnaryOp.names op), ("operand", toJson pos e)]))
  | nullCheck p e negated => node (pos p) (.tagged "NullCheck" (.record
      [("operand", toJson pos e), ("negated", .boolean negated)]))
  | typeCheck p e t => node (pos p) (.tagged "TypeCheck" (.record
      [("operand", toJson pos e), ("type_name", .nameIn TypeName.names t)]))
  | cast p e t => node (pos p) (.tagged "Cast" (.record
      [("operand", toJson pos e), ("target", .nameIn TypeName.names t)]))
  | index p c i => node (pos p) (.tagged "Index" (.record
      [("collection", toJson pos c), ("index", toJson pos i)]))
  | slice p c f t => node (pos p) (.tagged "Slice" (.record
      [("collection", toJson pos c), ("from", toJson pos f), ("to", toJson pos t)]))
  | call p f args => node (pos p) (.tagged "Call" (.record
      [("callee", .text f), ("arguments", .array (listToJson pos args))]))
  | ternary p c t e => node (pos p) (.tagged "Ternary" (.record
      [("condition", toJson pos c), ("then_value", toJson pos t), ("else_value", toJson pos e)]))
  | selection p s arms d => node (pos p) (.tagged "Match" (.record
      [("subject", toJson pos s), ("arms", .array (armsToJson pos arms)),
        ("default", match d with
          | none => .null
          | some e => toJson pos e)]))
termination_by structural e => e

def listToJson (pos : Position → Json) : List Expr → List Json
  | [] => []
  | e :: es => toJson pos e :: listToJson pos es
termination_by structural es => es

def armsToJson (pos : Position → Json) : List (Expr × Expr) → List Json
  | [] => []
  | (p, r) :: arms =>
    .record [("pattern", toJson pos p), ("result", toJson pos r)] :: armsToJson pos arms
termination_by structural arms => arms

end

open Json.Decoder in
def armOfJson (expr : Json.Decoder Expr) : Json.Decoder (Expr × Expr) := fun d j => do
  match ← fields ["pattern", "result"] false d j with
  | (d, [p, r]) => some (← required expr d p, ← required expr d r)
  | _ => none

open Json.Decoder in
def kindOfJson (expr : Json.Decoder Expr) (place : Position) : Json.Decoder Expr := fun d j => do
  match ← variant d j with
  | (d, "Literal", some p) => (Literal.ofJson d p).map (literal place)
  | (d, "Identifier", some p) => (text d p).map (identifier place)
  | (d, "Grouping", some p) => (expr d p).map (grouping place)
  | (d, "List", some p) => (Json.Decoder.list expr d p).map (list place)
  | (d, "Binary", some p) =>
    match ← fields ["left", "op", "right"] false d p with
    | (d, [l, op, r]) => some (binary place (← required expr d l)
        (← required (namedIn BinaryOp.names) d op) (← required expr d r))
    | _ => none
  | (d, "Unary", some p) =>
    match ← fields ["op", "operand"] false d p with
    | (d, [op, e]) =>
      some (unary place (← required (namedIn UnaryOp.names) d op) (← required expr d e))
    | _ => none
  | (d, "NullCheck", some p) =>
    match ← fields ["operand", "negated"] false d p with
    | (d, [e, negated]) =>
      some (nullCheck place (← required expr d e) (← required boolean d negated))
    | _ => none
  | (d, "TypeCheck", some p) =>
    match ← fields ["operand", "type_name"] false d p with
    | (d, [e, t]) =>
      some (typeCheck place (← required expr d e) (← required (namedIn TypeName.names) d t))
    | _ => none
  | (d, "Cast", some p) =>
    match ← fields ["operand", "target"] false d p with
    | (d, [e, t]) =>
      some (cast place (← required expr d e) (← required (namedIn TypeName.names) d t))
    | _ => none
  | (d, "Index", some p) =>
    match ← fields ["collection", "index"] false d p with
    | (d, [c, i]) => some (index place (← required expr d c) (← required expr d i))
    | _ => none
  | (d, "Slice", some p) =>
    match ← fields ["collection", "from", "to"] false d p with
    | (d, [c, f, t]) =>
      some (slice place (← required expr d c) (← required expr d f) (← required expr d t))
    | _ => none
  | (d, "Call", some p) =>
    match ← fields ["callee", "arguments"] false d p with
    | (d, [f, args]) =>
      some (call place (← required text d f) (← required (Json.Decoder.list expr) d args))
    | _ => none
  | (d, "Ternary", some p) =>
    match ← fields ["condition", "then_value", "else_value"] false d p with
    | (d, [c, t, e]) =>
      some (ternary place (← required expr d c) (← required expr d t) (← required expr d e))
    | _ => none
  | (d, "Match", some p) =>
    match ← fields ["subject", "arms", "default"] false d p with
    | (d, [s, arms, fallback]) =>
      some (selection place (← required expr d s)
        (← required (Json.Decoder.list (armOfJson expr)) d arms) (← allowed expr d fallback))
    | _ => none
  | _ => none

open Json.Decoder in
def ofJsonWithin : Nat → Json.Decoder Expr
  | 0 => fun _ _ => none
  | n + 1 => fun d j => do
    match ← fields ["kind", "position"] false d j with
    | (d, [kind, place]) =>
      let place ← required Position.ofJson d place
      required (kindOfJson (ofJsonWithin n) place) d kind
    | _ => none

def ofJson : Json.Decoder Expr := fun d j =>
  ofJsonWithin (d + 1) d j

end Expr

end Prose
