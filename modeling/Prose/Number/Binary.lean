import Prose.Number.Quotient

/-! Binary floating point numbers of 64 bits, without their signs. Each of them is a natural
multiple of the smallest one, `2 ^ -1074`, so all arithmetic is exact up to one last rounding. -/
namespace Prose.Number

structure Binary where
  units : Nat
  deriving DecidableEq, Inhabited

namespace Binary

def one : Nat := Nat.pow 2 1074

/-- The distance between the numbers from `u` units on. A significand has 53 bits, and no number is
finer than a unit. -/
def gap (u : Nat) : Nat :=
  Nat.pow 2 (u.log2 - 52)

/-- The number nearest to `n / d` units, with a half going to the even significand; without a value
from `2 ^ 1024` on. -/
def round? (n d : Nat) : Option Binary :=
  let step := gap (n / d)
  let u := divideHalfEven n (d * step) * step
  if u < Nat.pow 2 1024 * one then some ⟨u⟩ else none

def ofNat? (n : Nat) : Option Binary :=
  round? (n * one) 1

def times? (a b : Binary) : Option Binary :=
  round? (a.units * b.units) one

def dividedBy? (a b : Binary) : Option Binary :=
  round? (a.units * one) b.units

/-- The real number `n / d` units rounds to `a`: it lies between the middles of the gaps on both
sides, and in a middle itself only if the significand of `a` is even. -/
def isNearest (a : Binary) (n d : Nat) : Bool :=
  let low := (2 * a.units - gap (a.units - 1)) * d
  let high := (2 * a.units + gap a.units) * d
  if a.units / gap a.units % 2 = 0 then low ≤ 2 * n && 2 * n ≤ high
  else low < 2 * n && 2 * n < high

/-- The finest decimal place that a shortest text needs. -/
def finest : Nat := 324

/-- The multiple of `10 ^ p / 10 ^ 324` that stands for `a`, if one of those around `a` rounds to
it: the nearer one, of two equally near ones the larger. -/
def multiple? (a : Binary) (p : Nat) : Option Nat :=
  let value := a.units * Nat.pow 10 finest
  let step := Nat.pow 10 p * one
  let c := value / step
  let reads (k : Nat) := a.isNearest (k * step) (Nat.pow 10 finest)
  if reads c && (2 * value < (2 * c + 1) * step || !reads (c + 1)) then some c
  else if reads (c + 1) then some (c + 1)
  else none

/-- The shortest text that rounds to `a`: its last digit stands in the highest possible place. There
is no exponent, and no point behind a whole number. -/
def digits (a : Binary) : List Char :=
  let places := (List.range (finest + 309)).reverse
  match places.findSome? fun p => (a.multiple? p).map (p, ·) with
  | some (p, c) => positional (c * Nat.pow 10 (p - finest)) (finest - p)
  | none => ['0']

end Binary

end Prose.Number
