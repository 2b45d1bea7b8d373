namespace Prose

structure Json.Number where
  negative : Bool
  whole : Nat
  fraction : List Nat
  exponent : Option Int
  deriving DecidableEq, Inhabited

/-- A JSON value. Members keep their order and may repeat a key. A string or key that holds half of
a surrogate pair is no text. -/
inductive Json where
  | null
  | boolean (b : Bool)
  | number (n : Json.Number)
  | string (s : Option String)
  | array (items : List Json)
  | object (members : List (Option String × Json))
  deriving Inhabited

namespace Json

def Number.isInteger (n : Number) : Bool :=
  n.fraction.isEmpty && n.exponent.isNone

/-- The value of a number that is written as an integer and has 64 bits, with or without a sign. -/
def Number.integer? (n : Number) : Option Int :=
  if !n.isInteger then none
  else if n.negative then if n.whole ≤ Nat.pow 2 63 then some (-n.whole) else none
  else if n.whole < Nat.pow 2 64 then some n.whole
  else none

def text (s : String) : Json :=
  string (some s)

def natural (n : Nat) : Json :=
  number ⟨false, n, [], none⟩

def record (members : List (String × Json)) : Json :=
  object (members.map fun m => (some m.1, m.2))

def tagged (name : String) (payload : Json) : Json :=
  record [(name, payload)]

def optional {α : Type} (f : α → Json) : Option α → Json
  | none => null
  | some a => f a

end Json

end Prose
