import Prose.Number.Decimal
import Prose.Problem

namespace Prose

/-- Why tokens cannot be condensed. `placesExhausted` is no problem of the program: a digit word
stands behind the last decimal place, and there is no answer. -/
inductive CondenseFailure where
  | problem (p : Problem)
  | placesExhausted
  deriving DecidableEq

namespace Number.Spelled

/-- What has been read of a spelled-out number: the sum of the groups closed by `thousand`,
`million` or `billion`, the open group, and behind `point` the fraction with its places. -/
structure Progress where
  total : Magnitude
  group : Magnitude
  fraction : Magnitude
  places : Nat
  inFraction : Bool
  afterScale : Bool
  deriving DecidableEq

def Progress.start : Progress :=
  ⟨.zero, .zero, .zero, 0, false, false⟩

/-- What a token does to a spelled-out number: it ends it, continues it or spoils it. -/
inductive Step where
  | stop
  | next (p : Progress)
  | fault (f : LiteralFault)
  | placesExhausted

def Step.ofOption (f : Magnitude → Progress) : Option Magnitude → Step
  | some m => .next (f m)
  | none => .fault .tooLarge

def cardinalStep (p : Progress) (t : Token) : Step :=
  let value := (cardinal? (Text.fold t.text)).getD 0
  if p.inFraction then
    if value ≥ 10 then .fault (.notADigitWord t.text)
    else
      match Magnitude.of? value (p.places + 1) with
      | none => .placesExhausted
      | some digit =>
        .ofOption (fun m => { p with fraction := m, places := p.places + 1, afterScale := false })
          (p.fraction.add? digit)
  else
    .ofOption (fun m => { p with group := m, afterScale := false })
      ((Magnitude.of? value 0).bind p.group.add?)

/-- A scale word multiplies the open group, which counts as one if it is zero; all but `hundred`
also close the group. -/
def scaleStep (p : Progress) (t : Token) : Step :=
  if p.inFraction then .fault (.scaleAfterPoint t.text)
  else
    let base := if p.group.isZero then .one else p.group
    let scaled := base.times? ((scale? (Text.fold t.text)).getD 1)
    if t.keyword = .hundred then
      .ofOption (fun m => { p with group := m, afterScale := true }) scaled
    else
      .ofOption (fun m => { p with total := m, group := .zero, afterScale := true })
        (scaled.bind p.total.add?)

def step (p : Progress) (t : Token) (following : Option Token) : Step :=
  let wordFollows := following.any (·.keyword == .numberWord)
  match t.keyword with
  | .numberWord => cardinalStep p t
  | .hundred | .thousand | .million | .billion => scaleStep p t
  | .andWord =>
    if p.afterScale && !p.inFraction && wordFollows then .next { p with afterScale := false }
    else .stop
  | .point =>
    if p.inFraction then .fault .secondPoint
    else if wordFollows then .next { p with inFraction := true, afterScale := false }
    else .stop
  | _ => .stop

/-- The problem of a fault whose last token is the `k`-th of `run`. -/
def problem (fault : LiteralFault) (run : List Token) (k : Nat) : CondenseFailure :=
  .problem { cause := .literal fault, origin := "condense_number", tokens := run.take k }

/-- Reads on with the tokens of `run` behind the first `k`. The answer tells what was read and how
many tokens of `run` it takes. -/
def read (run : List Token) (p : Progress) (k : Nat) :
    List Token → Except CondenseFailure (Progress × Nat)
  | [] => .ok (p, k)
  | t :: ts =>
    match step p t ts.head? with
    | .stop => .ok (p, k)
    | .next p => read run p (k + 1) ts
    | .fault f => .error (problem f run (k + 1))
    | .placesExhausted => .error .placesExhausted

def Progress.value? (p : Progress) : Option Magnitude :=
  (p.total.add? p.group).bind (·.add? p.fraction)

def token (negative : Bool) (run : List Token) (k : Nat) (place : Position) :
    Except CondenseFailure (Token × Nat) := do
  let (progress, taken) ← read run .start k (run.drop k)
  match progress.value? with
  | some m => .ok (⟨.number, (Decimal.mk negative m).render, .numericLiteral, place⟩, taken)
  | none => .error (problem .tooLarge run taken)

end Number.Spelled

/-- The number token with which the tokens begin, if they begin with a number in words or with a
sign word before one, and how many tokens it takes. -/
def Number.spelled? : List Token → Except CondenseFailure (Option (Token × Nat))
  | [] => .ok none
  | first :: ts =>
    if first.keyword = .negative then
      match ts with
      | [] => .ok none
      | lead :: _ =>
        if lead.kind = .number ∧ lead.text.toList.head? ≠ some '-' then
          .ok (some (⟨.number, "-" ++ lead.text, .numericLiteral, first.position⟩, 2))
        else if lead.keyword = .numberWord then
          (Spelled.token true (first :: ts) 1 first.position).map some
        else .ok none
    else if first.keyword = .numberWord then
      (Spelled.token false (first :: ts) 0 first.position).map some
    else .ok none

end Prose
