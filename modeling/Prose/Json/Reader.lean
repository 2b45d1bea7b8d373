import Prose.Json

namespace Prose.Json

def isSpace (c : Char) : Bool :=
  c == ' ' || c == '\n' || c == '\t' || c == '\r'

def skipSpace (cs : List Char) : List Char :=
  cs.dropWhile isSpace

def hexValue? (c : Char) : Option Nat :=
  if '0' ≤ c ∧ c ≤ '9' then some (c.toNat - '0'.toNat)
  else if 'a' ≤ c ∧ c ≤ 'f' then some (c.toNat - 'a'.toNat + 10)
  else if 'A' ≤ c ∧ c ≤ 'F' then some (c.toNat - 'A'.toNat + 10)
  else none

/-- A part of a string: a character, or a number of 16 bits given by an escape. -/
inductive StringPart where
  | char (c : Char)
  | unit (u : Nat)

def shortEscape? : Char → Option Char
  | '"' => some '"'
  | '\\' => some '\\'
  | '/' => some '/'
  | 'b' => some '\x08'
  | 'f' => some '\x0c'
  | 'n' => some '\n'
  | 'r' => some '\r'
  | 't' => some '\t'
  | _ => none

def readParts : List Char → Option (List StringPart × List Char)
  | [] => none
  | '"' :: cs => some ([], cs)
  | '\\' :: 'u' :: a :: b :: c :: d :: cs => do
    let digits ← [a, b, c, d].mapM hexValue?
    let (parts, rest) ← readParts cs
    some (.unit (digits.foldl (fun u digit => 16 * u + digit) 0) :: parts, rest)
  | '\\' :: e :: cs => do
    let c ← shortEscape? e
    let (parts, rest) ← readParts cs
    some (.char c :: parts, rest)
  | c :: cs =>
    if c.toNat < 32 || c == '\\' then none
    else do
      let (parts, rest) ← readParts cs
      some (.char c :: parts, rest)

/-- The text of some parts, in which the two halves of each surrogate pair must stand together. -/
def joinParts : List StringPart → Option (List Char)
  | [] => some []
  | .char c :: ps => (joinParts ps).map (c :: ·)
  | .unit u :: .unit v :: ps =>
    if 0xd800 ≤ u && u < 0xdc00 then
      if 0xdc00 ≤ v && v < 0xe000 then
        (joinParts ps).map (Char.ofNat (0x10000 + (u - 0xd800) * 0x400 + (v - 0xdc00)) :: ·)
      else none
    else if 0xdc00 ≤ u && u < 0xe000 then none
    else (joinParts (.unit v :: ps)).map (Char.ofNat u :: ·)
  | .unit u :: ps =>
    if 0xd800 ≤ u && u < 0xe000 then none else (joinParts ps).map (Char.ofNat u :: ·)

def readString (cs : List Char) : Option (Option String × List Char) := do
  let (parts, rest) ← readParts cs
  some ((joinParts parts).map String.ofList, rest)

def digitValue (c : Char) : Nat :=
  c.toNat - '0'.toNat

def digitsValue (ds : List Nat) : Nat :=
  ds.foldl (fun n d => 10 * n + d) 0

def readDigits (cs : List Char) : Option (List Nat × List Char) :=
  if (cs.takeWhile Char.isDigit).isEmpty then none
  else some ((cs.takeWhile Char.isDigit).map digitValue, cs.dropWhile Char.isDigit)

def readWhole (cs : List Char) : Option (Nat × List Char) := do
  let (ds, rest) ← readDigits cs
  if ds.head? = some 0 ∧ ds.length ≠ 1 then none else some (digitsValue ds, rest)

def readFraction : List Char → Option (List Nat × List Char)
  | '.' :: cs => readDigits cs
  | cs => some ([], cs)

def readExponent : List Char → Option (Option Int × List Char)
  | [] => some (none, [])
  | c :: cs =>
    if c == 'e' || c == 'E' then
      match cs with
      | '-' :: cs => do
        let (ds, rest) ← readDigits cs
        some (some (-(digitsValue ds : Int)), rest)
      | cs => do
        let (ds, rest) ← readDigits (if cs.head? = some '+' then cs.drop 1 else cs)
        some (some (digitsValue ds : Int), rest)
    else some (none, c :: cs)

def readNumber (cs : List Char) : Option (Number × List Char) := do
  let negative := cs.head? == some '-'
  let (whole, rest) ← readWhole (if negative then cs.drop 1 else cs)
  let (fraction, rest) ← readFraction rest
  let (exponent, rest) ← readExponent rest
  some (⟨negative, whole, fraction, exponent⟩, rest)

def readWord (word : String) (cs : List Char) : Option (List Char) :=
  if word.toList.isPrefixOf cs then some (cs.drop word.toList.length) else none

mutual

/-- A value with leading white space, and the text behind it. The number bounds the parts that are
read one after the other or inside one another. -/
def readValue : Nat → List Char → Option (Json × List Char)
  | 0, _ => none
  | n + 1, cs =>
    match skipSpace cs with
    | [] => none
    | c :: rest =>
      if c == '"' then do
        let (s, rest) ← readString rest
        some (string s, rest)
      else if c == '[' then
        match skipSpace rest with
        | ']' :: rest => some (array [], rest)
        | rest => do
          let (items, rest) ← readItems n rest
          some (array items, rest)
      else if c == '\x7b' then
        match skipSpace rest with
        | '\x7d' :: rest => some (object [], rest)
        | rest => do
          let (members, rest) ← readMembers n rest
          some (object members, rest)
      else if c == 'n' then do some (null, ← readWord "null" (c :: rest))
      else if c == 't' then do some (boolean true, ← readWord "true" (c :: rest))
      else if c == 'f' then do some (boolean false, ← readWord "false" (c :: rest))
      else do
        let (n, rest) ← readNumber (c :: rest)
        some (number n, rest)
termination_by structural n => n

def readItems : Nat → List Char → Option (List Json × List Char)
  | 0, _ => none
  | n + 1, cs => do
    let (x, rest) ← readValue n cs
    match skipSpace rest with
    | ',' :: rest => do
      let (xs, rest) ← readItems n rest
      some (x :: xs, rest)
    | ']' :: rest => some ([x], rest)
    | _ => none
termination_by structural n => n

def readMembers : Nat → List Char → Option (List (Option String × Json) × List Char)
  | 0, _ => none
  | n + 1, cs =>
    match skipSpace cs with
    | '"' :: rest => do
      let (key, rest) ← readString rest
      match skipSpace rest with
      | ':' :: rest => do
        let (value, rest) ← readValue n rest
        match skipSpace rest with
        | ',' :: rest => do
          let (members, rest) ← readMembers n rest
          some ((key, value) :: members, rest)
        | '\x7d' :: rest => some ([(key, value)], rest)
        | _ => none
      | _ => none
    | _ => none
termination_by structural n => n

end

/-- The value of a document. Every part that is read takes a character, so twice as many steps as
there are characters are enough. -/
def parse (s : String) : Option Json :=
  match readValue (2 * s.toList.length + 1) s.toList with
  | some (j, rest) => if (skipSpace rest).isEmpty then some j else none
  | none => none

end Prose.Json
