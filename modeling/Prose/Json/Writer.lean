import Prose.Json

namespace Prose.Json

def writeChar (c : Char) : List Char :=
  if c = '"' || c = '\\' then ['\\', c]
  else if c = '\n' then ['\\', 'n']
  else if c = '\r' then ['\\', 'r']
  else if c = '\t' then ['\\', 't']
  else if c = '\x08' then ['\\', 'b']
  else if c = '\x0c' then ['\\', 'f']
  else if c.toNat < 16 then ['\\', 'u', '0', '0', '0'] ++ Nat.toDigits 16 c.toNat
  else if c.toNat < 32 then ['\\', 'u', '0', '0'] ++ Nat.toDigits 16 c.toNat
  else [c]

def writeString (s : String) : List Char :=
  '"' :: s.toList.flatMap writeChar ++ ['"']

def Number.write (n : Number) : List Char :=
  (if n.negative then ['-'] else []) ++ Nat.toDigits 10 n.whole ++
    (if n.fraction.isEmpty then [] else '.' :: n.fraction.map Nat.digitChar) ++
    match n.exponent with
    | none => []
    | some e => 'e' :: (toString e).toList

def newLine (level : Nat) : List Char :=
  '\n' :: List.replicate (2 * level) ' '

mutual

def write (level : Nat) : Json → List Char
  | null => "null".toList
  | boolean b => (if b then "true" else "false").toList
  | number n => n.write
  | string s => writeString (s.getD "")
  | array [] => ['[', ']']
  | array (x :: xs) =>
    '[' :: newLine (level + 1) ++ write (level + 1) x ++ writeItems (level + 1) xs ++
      newLine level ++ [']']
  | object [] => ['\x7b', '\x7d']
  | object ((k, v) :: ms) =>
    '\x7b' :: newLine (level + 1) ++ writeString (k.getD "") ++ [':', ' '] ++ write (level + 1) v ++
      writeMembers (level + 1) ms ++ newLine level ++ ['\x7d']
termination_by structural j => j

def writeItems (level : Nat) : List Json → List Char
  | [] => []
  | x :: xs => ',' :: newLine level ++ write level x ++ writeItems level xs
termination_by structural xs => xs

def writeMembers (level : Nat) : List (Option String × Json) → List Char
  | [] => []
  | (k, v) :: ms =>
    ',' :: newLine level ++ writeString (k.getD "") ++ [':', ' '] ++ write level v ++
      writeMembers level ms
termination_by structural ms => ms

end

def render (j : Json) : String :=
  String.ofList (write 0 j)

end Prose.Json
