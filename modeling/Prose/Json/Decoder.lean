import Prose.Json

/-! Decoding: JSON values to typed ones. A record may be written as an object or as an array of its
fields in order; members with other names are ignored, a repeated field is refused, and arrays and
objects that are decoded may only be nested to a limit. -/
namespace Prose.Json

abbrev Decoder (α : Type) := Nat → Json → Option α

/-- The number of levels that a document may have. -/
def maxLevels : Nat := 127

namespace Decoder

def text : Decoder String
  | _, string s => s
  | _, _ => none

def char : Decoder Char
  | _, string (some s) =>
    match s.toList with
    | [c] => some c
    | _ => none
  | _, _ => none

def boolean : Decoder Bool
  | _, .boolean b => some b
  | _, _ => none

def natural : Decoder Nat
  | _, number n =>
    if !n.negative && n.isInteger && n.whole < Nat.pow 2 64 then some n.whole else none
  | _, _ => none

def optional {α : Type} (item : Decoder α) : Decoder (Option α)
  | _, null => some none
  | d, j => (item d j).map some

def list {α : Type} (item : Decoder α) : Decoder (List α)
  | d + 1, array items => items.mapM (item d)
  | _, _ => none

def membersOf (fields : List String) (members : List (Option String × Json)) :
    Option (List (Option Json)) :=
  if members.all (·.1.isSome) &&
      fields.all fun f => (members.filter fun m => m.1 == some f).length ≤ 1 then
    some (fields.map fun f => members.lookup (some f))
  else none

/-- The fields of a record; the missing ones are `none`. An array may end early only if `openEnded`,
and must not be too long. -/
def fields (names : List String) (openEnded : Bool) : Decoder (Nat × List (Option Json))
  | d + 1, object members => (membersOf names members).map (d, ·)
  | d + 1, array items =>
    if items.length = names.length || (openEnded && items.length < names.length) then
      some (d, items.map some ++ List.replicate (names.length - items.length) none)
    else none
  | _, _ => none

def required {α : Type} (item : Decoder α) (d : Nat) (field : Option Json) : Option α :=
  field.bind (item d)

def allowed {α : Type} (item : Decoder α) (d : Nat) : Option Json → Option (Option α)
  | none => some none
  | some j => optional item d j

def variant : Decoder (Nat × String × Option Json)
  | d, string (some name) => some (d, name, none)
  | d + 1, object [(some name, payload)] => some (d, name, some payload)
  | _, _ => none

def plain {α : Type} (ofName : String → Option α) : Decoder α := fun d j => do
  match ← variant d j with
  | (_, name, none) | (_, name, some null) => ofName name
  | _ => none

end Decoder

end Prose.Json
