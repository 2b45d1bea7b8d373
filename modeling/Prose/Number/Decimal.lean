import Prose.Number.Quotient

/-! Exact decimal numbers of bounded size: a sign and a magnitude, which is a natural number below
`2 ^ 96` shifted by up to 28 decimal places. Trailing zeros of the places are kept, and so is the
sign of a negated zero. -/
namespace Prose.Number

def maxMantissa : Nat := 79228162514264337593543950335

def maxScale : Nat := 28

structure Magnitude where
  mantissa : Nat
  scale : Nat
  mantissa_le : mantissa ≤ maxMantissa := by decide
  scale_le : scale ≤ maxScale := by decide
  deriving DecidableEq

namespace Magnitude

def of? (mantissa scale : Nat) : Option Magnitude :=
  if h : mantissa ≤ maxMantissa ∧ scale ≤ maxScale then some ⟨mantissa, scale, h.1, h.2⟩ else none

def zero : Magnitude := ⟨0, 0, by decide, by decide⟩

def one : Magnitude := ⟨1, 0, by decide, by decide⟩

instance : Inhabited Magnitude := ⟨zero⟩

def isZero (a : Magnitude) : Bool :=
  a.mantissa == 0

/-- The value `mantissa / 10 ^ scale` after rounding away as few places as make it fit; without a
value if it does not fit even as a whole number. -/
def fit? (mantissa scale : Nat) : Option Magnitude :=
  (List.range (scale + 1)).findSome? fun dropped =>
    of? (divideHalfEven mantissa (Nat.pow 10 dropped)) (scale - dropped)

/-- The sum. A zero leaves the other operand with its own places; otherwise the operand with more
places decides. -/
def add? (a b : Magnitude) : Option Magnitude :=
  if a.isZero then some b
  else if b.isZero then some a
  else
    let scale := max a.scale b.scale
    fit? (a.mantissa * Nat.pow 10 (scale - a.scale) + b.mantissa * Nat.pow 10 (scale - b.scale))
      scale

def times? (a : Magnitude) (k : Nat) : Option Magnitude :=
  of? (a.mantissa * k) a.scale

def digits (a : Magnitude) : List Char :=
  positional a.mantissa a.scale

/-- Rounds half up by the first digit left over. A mantissa that no longer fits gives up its last
place. -/
def roundUp? (a : Magnitude) (d : Nat) : Option Magnitude :=
  if d < 5 then some a
  else if a.mantissa < maxMantissa then of? (a.mantissa + 1) a.scale
  else if a.scale = 0 then none
  else of? ((a.mantissa + 5) / 10) (a.scale - 1)

def digitValue (c : Char) : Nat :=
  c.toNat - '0'.toNat

def push? (point : Bool) (a : Magnitude) (d : Nat) : Option Magnitude :=
  if point then
    if a.scale = maxScale then none else of? (a.mantissa * 10 + d) (a.scale + 1)
  else of? (a.mantissa * 10 + d) 0

/-- The largest mantissa that counts as short: with one more digit it is still within 64 bits, with
some room left. -/
def maxShort : Nat := 1844674407370954906

def isRest (cs : List Char) : Bool :=
  cs.all fun c => c.isDigit || c == '_'

/-- Reads on after `a`. `point` says whether the point has been read, `seen` whether a digit has.
Underscores may follow a digit. Once no further digit fits behind the point, the next one rounds and
only digits and underscores may follow it. An underscore behind the last place is a digit zero if
the mantissa was still short before that place, and is skipped otherwise. -/
def readFrom (point seen : Bool) (a : Magnitude) : List Char → Option Magnitude
  | [] => if seen then some a else none
  | c :: cs =>
    if c.isDigit then
      match push? point a (digitValue c) with
      | some b => readFrom point true b cs
      | none => if point && isRest cs then roundUp? a (digitValue c) else none
    else if c == '_' && seen then
      if point && a.scale == maxScale && a.mantissa / 10 ≤ maxShort then
        if isRest cs then some a else none
      else readFrom point seen a cs
    else if c == '.' && !point then readFrom true seen a cs
    else none

def read? (cs : List Char) : Option Magnitude :=
  readFrom false false zero cs

/-- The magnitude times `10 ^ n`: first the places are used up, then the mantissa grows. -/
def shiftLeft? (a : Magnitude) (n : Nat) : Option Magnitude :=
  if n ≤ a.scale then of? a.mantissa (a.scale - n)
  else if n ≤ maxScale then of? (a.mantissa * Nat.pow 10 (n - a.scale)) 0
  else none

/-- The magnitude divided by `10 ^ n`, with `n` more places. Places beyond the last are rounded
away, a half up. -/
def shiftRight? (a : Magnitude) (n : Nat) : Option Magnitude :=
  let dropped := a.scale + n - maxScale
  if n ≤ maxScale then of? (divideHalfUp a.mantissa (Nat.pow 10 dropped)) (a.scale + n - dropped)
  else none

end Magnitude

structure Decimal where
  negative : Bool
  magnitude : Magnitude
  deriving DecidableEq, Inhabited

namespace Decimal

def ofNat? (n : Nat) : Option Decimal :=
  (Magnitude.of? n 0).map (⟨false, ·⟩)

def render (a : Decimal) : String :=
  String.ofList (if a.negative then '-' :: a.magnitude.digits else a.magnitude.digits)

def signed (negative : Bool) (m : Magnitude) : Decimal :=
  ⟨negative && !m.isZero, m⟩

def read? : List Char → Option Decimal
  | '-' :: cs => (Magnitude.read? cs).map (signed true)
  | '+' :: cs => (Magnitude.read? cs).map (signed false)
  | cs => (Magnitude.read? cs).map (signed false)

def readExponent? (cs : List Char) : Option Nat :=
  let ds := if cs.head? = some '+' then cs.drop 1 else cs
  if ds.isEmpty || !ds.all Char.isDigit then none
  else some (ds.foldl (fun n d => 10 * n + Magnitude.digitValue d) 0)

def readScientific? (cs : List Char) : Option Decimal := do
  let isMark (c : Char) := c == 'e' || c == 'E'
  let a ← read? (cs.takeWhile (!isMark ·))
  let m ← match (cs.dropWhile (!isMark ·)).drop 1 with
    | '-' :: ds => (readExponent? ds).bind a.magnitude.shiftRight?
    | ds => (readExponent? ds).bind a.magnitude.shiftLeft?
  some { a with magnitude := m }

end Decimal

end Prose.Number
