namespace Prose.Number

def cardinals : List (String × Nat) := [
  ("zero", 0), ("one", 1), ("two", 2), ("three", 3), ("four", 4), ("five", 5), ("six", 6),
  ("seven", 7), ("eight", 8), ("nine", 9), ("ten", 10), ("eleven", 11), ("twelve", 12),
  ("thirteen", 13), ("fourteen", 14), ("fifteen", 15), ("sixteen", 16), ("seventeen", 17),
  ("eighteen", 18), ("nineteen", 19), ("twenty", 20), ("thirty", 30), ("forty", 40), ("fifty", 50),
  ("sixty", 60), ("seventy", 70), ("eighty", 80), ("ninety", 90)]

def scales : List (String × Nat) := [
  ("hundred", 100), ("thousand", 1000), ("million", 1000000), ("billion", 1000000000)]

def ordinals : List (String × Nat) := [
  ("first", 1), ("second", 2), ("third", 3), ("fourth", 4), ("fifth", 5), ("sixth", 6),
  ("seventh", 7), ("eighth", 8), ("ninth", 9), ("tenth", 10), ("eleventh", 11), ("twelfth", 12),
  ("thirteenth", 13), ("fourteenth", 14), ("fifteenth", 15), ("sixteenth", 16),
  ("seventeenth", 17), ("eighteenth", 18), ("nineteenth", 19), ("twentieth", 20),
  ("thirtieth", 30), ("fortieth", 40), ("fiftieth", 50), ("sixtieth", 60), ("seventieth", 70),
  ("eightieth", 80), ("ninetieth", 90), ("hundredth", 100)]

def cardinal? (word : String) : Option Nat :=
  cardinals.lookup word

def scale? (word : String) : Option Nat :=
  scales.lookup word

def ordinal? (word : String) : Option Nat :=
  ordinals.lookup word

end Prose.Number
