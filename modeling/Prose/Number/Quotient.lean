namespace Prose.Number

/-- The quotient `n / d` rounded to the nearest natural number, a half to the even one. -/
def divideHalfEven (n d : Nat) : Nat :=
  let q := n / d
  let r := n % d
  if 2 * r > d || (2 * r == d && q % 2 == 1) then q + 1 else q

/-- The quotient `n / d` rounded to the nearest natural number, a half to the larger one. -/
def divideHalfUp (n d : Nat) : Nat :=
  (2 * n + d) / (2 * d)

def positional (n scale : Nat) : List Char :=
  let ds := Nat.toDigits 10 n
  let padded := List.replicate (scale + 1 - ds.length) '0' ++ ds
  let whole := padded.take (padded.length - scale)
  if scale = 0 then whole else whole ++ '.' :: padded.drop (padded.length - scale)

end Prose.Number
