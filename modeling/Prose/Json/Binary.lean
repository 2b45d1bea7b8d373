import Prose.Json
import Prose.Number.Binary

/-! JSON numbers as binary floating point numbers: the digits that fit in 64 bits are taken as a
natural number, which is then scaled by a power of ten. Both steps round, so the result need not be
the number nearest to what is written. -/
namespace Prose.Json.Number

open Prose.Number (Binary)

/-- The leading digits that fit in 64 bits, and how many digits come behind them. -/
def leading (n : Nat) : Nat × Nat :=
  if n < Nat.pow 2 64 then (n, 0)
  else
    let (s, behind) := leading (n / 10)
    (s, behind + 1)
termination_by n
decreasing_by
  have : 0 < Nat.pow 2 64 := by decide
  omega

/-- The digits `s` followed by those of a fraction up to the first that does not fit in 64 bits, and
how many digits were taken. -/
def extend (s : Nat) : List Nat → Nat × Nat
  | [] => (s, 0)
  | d :: ds =>
    if 10 * s + d < Nat.pow 2 64 then
      let (t, taken) := extend (10 * s + d) ds
      (t, taken + 1)
    else (s, 0)

def maxPower : Nat := 308

/-- The number times `10 ^ e`, in at most `steps` steps; without a value if it gets too large. Two
divisions by the largest power leave nothing of a number of 64 bits, so three steps are enough. -/
def scale? (e : Int) (a : Binary) : Nat → Option Binary
  | 0 => some a
  | steps + 1 =>
    if e.natAbs ≤ maxPower then
      (Binary.ofNat? (Nat.pow 10 e.natAbs)).bind (if 0 ≤ e then a.times? else a.dividedBy?)
    else if a.units = 0 then some a
    else if 0 ≤ e then none
    else do
      let b ← a.dividedBy? (← Binary.ofNat? (Nat.pow 10 maxPower))
      scale? (e + maxPower) b steps

/-- The size of the number, if it is not too large. -/
def binary? (n : Number) : Option Binary := do
  let (s, behind) := leading n.whole
  let (t, taken) := extend s n.fraction
  scale? (n.exponent.getD 0 + behind - taken) (← Binary.ofNat? t) 3

end Prose.Json.Number
