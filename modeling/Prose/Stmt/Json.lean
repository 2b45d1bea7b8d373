import Prose.Expr.Json
import Prose.Json.Writer
import Prose.Json.Reader
import Prose.Stmt

namespace Prose

namespace Stmt

def paramToJson (pos : Position → Json) (p : Param) : Json :=
  .record [("name", .text p.name), ("position", pos p.place)]

mutual

def toJson (pos : Position → Json) : Stmt → Json
  | entryPoint p body =>
    Expr.node (pos p) (.tagged "EntryPoint" (.record [("body", .array (listToJson pos body))]))
  | functionDefinition p name params body =>
    Expr.node (pos p) (.tagged "FunctionDefinition" (.record
      [("name", .text name), ("params", .array (params.map (paramToJson pos))),
        ("body", .array (listToJson pos body))]))
  | structureDefinition p name fields =>
    Expr.node (pos p) (.tagged "StructureDefinition" (.record
      [("name", .text name), ("fields", .array (fields.map (paramToJson pos)))]))
  | block p body => Expr.node (pos p) (.tagged "Block" (.array (listToJson pos body)))
  | conditional p c body elseIfs elseBody =>
    Expr.node (pos p) (.tagged "Conditional" (.record
      [("condition", c.toJson pos), ("body", .array (listToJson pos body)),
        ("else_ifs", .array (branchesToJson pos elseIfs)),
        ("else_body", match elseBody with
          | none => .null
          | some b => .array (listToJson pos b))]))
  | whileLoop p c body =>
    Expr.node (pos p) (.tagged "While" (.record
      [("condition", c.toJson pos), ("body", .array (listToJson pos body))]))
  | untilLoop p c body =>
    Expr.node (pos p) (.tagged "Until" (.record
      [("condition", c.toJson pos), ("body", .array (listToJson pos body))]))
  | doWhile p body c =>
    Expr.node (pos p) (.tagged "DoWhile" (.record
      [("body", .array (listToJson pos body)), ("condition", c.toJson pos)]))
  | doUntil p body c =>
    Expr.node (pos p) (.tagged "DoUntil" (.record
      [("body", .array (listToJson pos body)), ("condition", c.toJson pos)]))
  | forEach p name e body =>
    Expr.node (pos p) (.tagged "ForEach" (.record
      [("variable", .text name), ("iterable", e.toJson pos),
        ("body", .array (listToJson pos body))]))
  | forRange p name start stop step body =>
    Expr.node (pos p) (.tagged "ForRange" (.record
      [("variable", .text name), ("from", start.toJson pos), ("to", stop.toJson pos),
        ("step", .optional (·.toJson pos) step), ("body", .array (listToJson pos body))]))
  | repeatLoop p count body =>
    Expr.node (pos p) (.tagged "Repeat" (.record
      [("count", count.toJson pos), ("body", .array (listToJson pos body))]))
  | tryCatch p body errorName handler cleanup =>
    Expr.node (pos p) (.tagged "TryCatch" (.record
      [("body", .array (listToJson pos body)), ("error_name", .optional .text errorName),
        ("handler", .array (listToJson pos handler)),
        ("finally", match cleanup with
          | none => .null
          | some b => .array (listToJson pos b))]))
  | returning p value =>
    Expr.node (pos p) (.tagged "Return" (.optional (·.toJson pos) value))
  | breaking p => Expr.node (pos p) (.text "Break")
  | continuing p => Expr.node (pos p) (.text "Continue")
  | exiting p => Expr.node (pos p) (.text "Exit")
  | throwing p e => Expr.node (pos p) (.tagged "Throw" (e.toJson pos))
  | assignment p target value =>
    Expr.node (pos p) (.tagged "Assignment" (.record
      [("target", target.toJson pos), ("value", value.toJson pos)]))
  | declaration p name value =>
    Expr.node (pos p) (.tagged "Declaration" (.record
      [("name", .text name), ("value", value.toJson pos)]))
  | increment p name amount =>
    Expr.node (pos p) (.tagged "Increment" (.record
      [("name", .text name), ("amount", .optional (·.toJson pos) amount)]))
  | decrement p name amount =>
    Expr.node (pos p) (.tagged "Decrement" (.record
      [("name", .text name), ("amount", .optional (·.toJson pos) amount)]))
  | swap p left right =>
    Expr.node (pos p) (.tagged "Swap" (.record [("left", .text left), ("right", .text right)]))
  | listAdd p value list =>
    Expr.node (pos p) (.tagged "ListAdd" (.record
      [("value", value.toJson pos), ("list", list.toJson pos)]))
  | listRemove p value list =>
    Expr.node (pos p) (.tagged "ListRemove" (.record
      [("value", value.toJson pos), ("list", list.toJson pos)]))
  | print p e => Expr.node (pos p) (.tagged "Print" (e.toJson pos))
  | readInto p name => Expr.node (pos p) (.tagged "ReadInto" (.text name))
  | assertion p e => Expr.node (pos p) (.tagged "Assert" (e.toJson pos))
  | importing p name => Expr.node (pos p) (.tagged "Import" (.text name))
  | expression p e => Expr.node (pos p) (.tagged "Expression" (e.toJson pos))
termination_by structural s => s

def listToJson (pos : Position → Json) : List Stmt → List Json
  | [] => []
  | s :: ss => toJson pos s :: listToJson pos ss
termination_by structural ss => ss

def branchesToJson (pos : Position → Json) : List Branch → List Json
  | [] => []
  | b :: bs => branchToJson pos b :: branchesToJson pos bs
termination_by structural bs => bs

def branchToJson (pos : Position → Json) : Branch → Json
  | .mk p c body => .record
      [("condition", c.toJson pos), ("body", .array (listToJson pos body)), ("position", pos p)]
termination_by structural b => b

end

open Json.Decoder in
def paramOfJson : Json.Decoder Param := fun d j => do
  match ← fields ["name", "position"] false d j with
  | (d, [name, place]) => some ⟨← required text d name, ← required Position.ofJson d place⟩
  | _ => none

open Json.Decoder in
def branchOfJson (body : Json.Decoder (List Stmt)) : Json.Decoder Branch := fun d j => do
  match ← fields ["condition", "body", "position"] false d j with
  | (d, [c, b, place]) =>
    some (.mk (← required Position.ofJson d place) (← required Expr.ofJson d c)
      (← required body d b))
  | _ => none

open Json.Decoder in
def simpleKindOfJson (place : Position) (d : Nat) (name : String) (p : Json) : Option Stmt := do
  let pair (a b : String) (f : Expr → Expr → Stmt) : Option Stmt := do
    match ← fields [a, b] false d p with
    | (d, [x, y]) => some (f (← required Expr.ofJson d x) (← required Expr.ofJson d y))
    | _ => none
  let named (b : String) (f : String → Option Expr → Option Stmt) : Option Stmt := do
    match ← fields ["name", b] false d p with
    | (d, [x, y]) => f (← required text d x) (← allowed Expr.ofJson d y)
    | _ => none
  match name with
  | "StructureDefinition" =>
    match ← fields ["name", "fields"] false d p with
    | (d, [n, fs]) =>
      some (structureDefinition place (← required text d n) (← required (list paramOfJson) d fs))
    | _ => none
  | "Return" => (optional Expr.ofJson d p).map (returning place)
  | "Throw" => (Expr.ofJson d p).map (throwing place)
  | "Assignment" => pair "target" "value" (assignment place)
  | "Declaration" =>
    match ← fields ["name", "value"] false d p with
    | (d, [n, v]) => some (declaration place (← required text d n) (← required Expr.ofJson d v))
    | _ => none
  | "Increment" => named "amount" fun n e => some (increment place n e)
  | "Decrement" => named "amount" fun n e => some (decrement place n e)
  | "Swap" =>
    match ← fields ["left", "right"] false d p with
    | (d, [l, r]) => some (swap place (← required text d l) (← required text d r))
    | _ => none
  | "ListAdd" => pair "value" "list" (listAdd place)
  | "ListRemove" => pair "value" "list" (listRemove place)
  | "Print" => (Expr.ofJson d p).map (print place)
  | "ReadInto" => (text d p).map (readInto place)
  | "Assert" => (Expr.ofJson d p).map (assertion place)
  | "Import" => (text d p).map (importing place)
  | "Expression" => (Expr.ofJson d p).map (expression place)
  | _ => none

open Json.Decoder in
def kindOfJson (body : Json.Decoder (List Stmt)) (place : Position) : Json.Decoder Stmt :=
  fun d j => do
  match ← variant d j with
  | (_, "Break", none) | (_, "Break", some .null) => some (breaking place)
  | (_, "Continue", none) | (_, "Continue", some .null) => some (continuing place)
  | (_, "Exit", none) | (_, "Exit", some .null) => some (exiting place)
  | (d, "EntryPoint", some p) =>
    match ← fields ["body"] false d p with
    | (d, [b]) => some (entryPoint place (← required body d b))
    | _ => none
  | (d, "FunctionDefinition", some p) =>
    match ← fields ["name", "params", "body"] false d p with
    | (d, [n, ps, b]) => some (functionDefinition place (← required text d n)
        (← required (list paramOfJson) d ps) (← required body d b))
    | _ => none
  | (d, "Block", some p) => (body d p).map (block place)
  | (d, "Conditional", some p) =>
    match ← fields ["condition", "body", "else_ifs", "else_body"] false d p with
    | (d, [c, b, bs, e]) => some (conditional place (← required Expr.ofJson d c)
        (← required body d b) (← required (list (branchOfJson body)) d bs) (← allowed body d e))
    | _ => none
  | (d, "While", some p) =>
    match ← fields ["condition", "body"] false d p with
    | (d, [c, b]) => some (whileLoop place (← required Expr.ofJson d c) (← required body d b))
    | _ => none
  | (d, "Until", some p) =>
    match ← fields ["condition", "body"] false d p with
    | (d, [c, b]) => some (untilLoop place (← required Expr.ofJson d c) (← required body d b))
    | _ => none
  | (d, "DoWhile", some p) =>
    match ← fields ["body", "condition"] false d p with
    | (d, [b, c]) => some (doWhile place (← required body d b) (← required Expr.ofJson d c))
    | _ => none
  | (d, "DoUntil", some p) =>
    match ← fields ["body", "condition"] false d p with
    | (d, [b, c]) => some (doUntil place (← required body d b) (← required Expr.ofJson d c))
    | _ => none
  | (d, "ForEach", some p) =>
    match ← fields ["variable", "iterable", "body"] false d p with
    | (d, [n, e, b]) => some (forEach place (← required text d n) (← required Expr.ofJson d e)
        (← required body d b))
    | _ => none
  | (d, "ForRange", some p) =>
    match ← fields ["variable", "from", "to", "step", "body"] false d p with
    | (d, [n, f, t, s, b]) => some (forRange place (← required text d n)
        (← required Expr.ofJson d f) (← required Expr.ofJson d t) (← allowed Expr.ofJson d s)
        (← required body d b))
    | _ => none
  | (d, "Repeat", some p) =>
    match ← fields ["count", "body"] false d p with
    | (d, [c, b]) => some (repeatLoop place (← required Expr.ofJson d c) (← required body d b))
    | _ => none
  | (d, "TryCatch", some p) =>
    match ← fields ["body", "error_name", "handler", "finally"] false d p with
    | (d, [b, n, h, f]) => some (tryCatch place (← required body d b) (← allowed text d n)
        (← required body d h) (← allowed body d f))
    | _ => none
  | (d, name, some p) => simpleKindOfJson place d name p
  | _ => none

open Json.Decoder in
def ofJsonWithin : Nat → Json.Decoder Stmt
  | 0 => fun _ _ => none
  | n + 1 => fun d j => do
    match ← fields ["kind", "position"] false d j with
    | (d, [kind, place]) =>
      let place ← required Position.ofJson d place
      required (kindOfJson (list (ofJsonWithin n)) place) d kind
    | _ => none

/-- Reads a statement. Every statement takes a level, so the limit of levels bounds the statements.
-/
def ofJson : Json.Decoder Stmt := fun d j =>
  ofJsonWithin (d + 1) d j

def document (s : Stmt) : String :=
  (s.toJson Position.toJson).render

end Stmt

def programDocument (nodes : List Stmt) : String :=
  (Json.array (Stmt.listToJson Position.toJson nodes)).render

def readProgram (document : String) : Option (List Stmt) := do
  Json.Decoder.list Stmt.ofJson Json.maxLevels (← Json.parse document)

def readExpression (document : String) : Option Expr := do
  Expr.ofJson Json.maxLevels (← Json.parse document)

end Prose
