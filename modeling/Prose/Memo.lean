import Std.Data.TreeMap
import Prose.Expr.Reading

namespace Prose

def compareKeys : Nat × Nat → Nat × Nat → Ordering :=
  compareLex (compareOn Prod.fst) (compareOn Prod.snd)

instance : Std.TransCmp compareKeys :=
  inferInstanceAs (Std.TransCmp (compareLex (compareOn Prod.fst) (compareOn Prod.snd)))

instance : Std.LawfulEqCmp compareKeys where
  eq_of_compare {a b} h := by
    simp only [compareKeys, compareLex, compareOn, Ordering.then_eq_eq,
      Std.LawfulEqCmp.compare_eq_iff_eq] at h
    exact Prod.ext h.1 h.2

structure Memo where
  readings : Std.TreeMap (Nat × Nat) Reading compareKeys

namespace Memo

def empty : Memo := ⟨∅⟩

instance : Inhabited Memo := ⟨empty⟩

def key (s : Slice) : Nat × Nat :=
  (s.start, s.length)

def find? (m : Memo) (s : Slice) : Option Reading :=
  m.readings[key s]?

def insert (m : Memo) (s : Slice) (r : Reading) : Memo :=
  ⟨m.readings.insert (key s) r⟩

@[simp] theorem find?_empty (s : Slice) : empty.find? s = none := by
  simp [find?, empty]

theorem find?_insert (m : Memo) (s s' : Slice) (r : Reading) :
    (m.insert s r).find? s' = if key s = key s' then some r else m.find? s' := by
  simp only [find?, insert, Std.TreeMap.getElem?_insert]
  simp

end Memo

end Prose
