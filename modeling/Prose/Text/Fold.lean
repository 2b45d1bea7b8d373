import Prose.Text.Ranges
import Prose.Text.Lowercase

namespace Prose.Text

def plainSpellings : List (String × String) := [
  ("àáâãäåāăą", "a"), ("æ", "ae"), ("çćč", "c"), ("ďđ", "d"), ("èéêëēėęě", "e"), ("ìíîïīį", "i"),
  ("ł", "l"), ("ñńň", "n"), ("òóôõöøōő", "o"), ("œ", "oe"), ("ř", "r"), ("śšş", "s"), ("ß", "ss"),
  ("ťţ", "t"), ("ùúûüūůűų", "u"), ("ýÿ", "y"), ("źżž", "z")]

def plain (c : Char) : List Char :=
  if c.toNat < 128 then [c]
  else
    match plainSpellings.find? fun e => e.1.toList.contains c with
    | some e => e.2.toList
    | none => [c]

def foldChars (cs : List Char) : List Char :=
  ((trim cs).flatMap lowercase).flatMap plain

def fold (text : String) : String :=
  String.ofList (foldChars text.toList)

end Prose.Text
