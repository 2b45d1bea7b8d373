import Prose.Proofs.Slice.Depth
import Prose.Token.Value

namespace Prose

/-- Another place for tokens: `offset` tokens further on in the stream, and `place p` for what stood
in place `p`. What is in no source stays there. -/
structure Relocation where
  offset : Nat
  place : Position → Position
  place_unknown : place .unknown = .unknown

namespace Relocation

def along (n : Nat) : Relocation :=
  ⟨n, id, rfl⟩

end Relocation

/-- Things that have places, or are made of such things. -/
class Relocates (α : Type) where
  relocate : Relocation → α → α

export Relocates (relocate)

section instances

variable {α β : Type} [Relocates α] [Relocates β]

instance : Relocates String := ⟨fun _ => id⟩

instance : Relocates Unit := ⟨fun _ => id⟩

instance : Relocates (Option α) := ⟨fun ρ => Option.map (relocate ρ)⟩

instance : Relocates (List α) := ⟨fun ρ => List.map (relocate ρ)⟩

instance : Relocates (α × β) := ⟨fun ρ => Prod.map (relocate ρ) (relocate ρ)⟩

instance : Relocates Token := ⟨fun ρ t => { t with position := ρ.place t.position }⟩

instance : Relocates Slice := ⟨fun ρ s => ⟨s.start + ρ.offset, relocate ρ s.tokens⟩⟩

instance : Relocates Problem := ⟨fun ρ p => { p with tokens := relocate ρ p.tokens }⟩

def Relocation.result (ρ : Relocation) (f : α → β) : Except Problem α → Except Problem β
  | .ok a => .ok (f a)
  | .error p => .error (relocate ρ p)

instance : Relocates (Except Problem α) := ⟨fun ρ => ρ.result (relocate ρ)⟩

end instances

variable (ρ : Relocation)

section structures

variable {α β : Type} [Relocates α] [Relocates β]

@[simp] theorem relocate_string (s : String) : relocate ρ s = s := rfl

@[simp] theorem relocate_unit (u : Unit) : relocate ρ u = u := rfl

@[simp] theorem relocate_none : relocate ρ (none : Option α) = none := rfl

@[simp] theorem relocate_some (a : α) : relocate ρ (some a) = some (relocate ρ a) := rfl

@[simp] theorem relocate_nil : relocate ρ ([] : List α) = [] := rfl

@[simp] theorem relocate_cons (a : α) (as : List α) :
    relocate ρ (a :: as) = relocate ρ a :: relocate ρ as := rfl

theorem relocate_list (as : List α) : relocate ρ as = as.map (relocate ρ) := rfl

@[simp] theorem relocate_append (as bs : List α) :
    relocate ρ (as ++ bs) = relocate ρ as ++ relocate ρ bs :=
  List.map_append

@[simp] theorem length_relocate_list (as : List α) : (relocate ρ as).length = as.length :=
  List.length_map _

@[simp] theorem isEmpty_relocate_list (as : List α) : (relocate ρ as).isEmpty = as.isEmpty := by
  cases as <;> rfl

@[simp] theorem relocate_prod (a : α) (b : β) :
    relocate ρ (a, b) = (relocate ρ a, relocate ρ b) := rfl

@[simp] theorem relocate_ok (a : α) :
    relocate ρ (.ok a : Except Problem α) = .ok (relocate ρ a) := rfl

@[simp] theorem relocate_error (p : Problem) :
    relocate ρ (.error p : Except Problem α) = .error (relocate ρ p) := rfl

@[simp] theorem relocate_problem (c : Problem.Cause) (origin : String) (ts : List Token)
    (help : Option String) :
    relocate ρ (⟨c, origin, ts, help⟩ : Problem) = ⟨c, origin, relocate ρ ts, help⟩ := rfl

@[simp] theorem relocate_withHelp (p : Problem) (help : String) :
    relocate ρ (p.withHelp help) = (relocate ρ p).withHelp help := rfl

end structures

namespace Token

variable (t : Token)

@[simp] theorem kind_relocate : (relocate ρ t).kind = t.kind := rfl

@[simp] theorem text_relocate : (relocate ρ t).text = t.text := rfl

@[simp] theorem keyword_relocate : (relocate ρ t).keyword = t.keyword := rfl

@[simp] theorem position_relocate : (relocate ρ t).position = ρ.place t.position := rfl

@[simp] theorem name?_relocate : (relocate ρ t).name? = t.name? := by
  simp only [name?, kind_relocate, text_relocate]

@[simp] theorem numberValue_relocate : (relocate ρ t).numberValue = t.numberValue := by
  simp only [numberValue, text_relocate]

@[simp] theorem ordinalValue_relocate : (relocate ρ t).ordinalValue = t.ordinalValue := by
  simp only [ordinalValue, text_relocate]

@[simp] theorem unescaped_relocate : (relocate ρ t).unescaped = t.unescaped := by
  simp only [unescaped, text_relocate]

@[simp] theorem characterValue_relocate : (relocate ρ t).characterValue = t.characterValue := by
  simp only [characterValue, unescaped_relocate, text_relocate]

/-- The words stay the same. -/
@[simp] theorem render_relocate (ts : List Token) : render (relocate ρ ts) = render ts := by
  unfold render
  rw [relocate_list, List.map_map]
  rfl

end Token

/-- A search sees the keywords alone. -/
@[simp] theorem depthZero_relocate (depth : Int) (i : Nat) (ts : List Token) :
    depthZero depth i (relocate ρ ts) = depthZero depth i ts := by
  induction ts generalizing depth i with
  | nil => rfl
  | cons t ts ih => simp only [relocate_cons, depthZero, Token.keyword_relocate, ih]

namespace Slice

variable (s : Slice)

@[simp] theorem tokens_relocate : (relocate ρ s).tokens = relocate ρ s.tokens := rfl

@[simp] theorem start_relocate : (relocate ρ s).start = s.start + ρ.offset := rfl

@[simp] theorem length_relocate : (relocate ρ s).length = s.length :=
  List.length_map _

@[simp] theorem isEmpty_relocate : (relocate ρ s).isEmpty = s.isEmpty :=
  isEmpty_relocate_list ρ s.tokens

theorem head?_relocate_list (ts : List Token) :
    (relocate ρ ts).head? = relocate ρ ts.head? := by
  cases ts <;> rfl

theorem getLast?_relocate_list (ts : List Token) :
    (relocate ρ ts).getLast? = relocate ρ ts.getLast? :=
  List.getLast?_map

theorem getElem?_relocate_list (ts : List Token) (i : Nat) :
    (relocate ρ ts)[i]? = relocate ρ ts[i]? :=
  List.getElem?_map

@[simp] theorem head?_relocate : (relocate ρ s).head? = relocate ρ s.head? :=
  head?_relocate_list ρ s.tokens

@[simp] theorem position_relocate : (relocate ρ s).position = ρ.place s.position := by
  obtain ⟨a, _ | ⟨t, ts⟩⟩ := s
  · exact ρ.place_unknown.symm
  · rfl

@[simp] theorem startsWith_relocate (k : Keyword) :
    (relocate ρ s).startsWith k = s.startsWith k := by
  obtain ⟨a, _ | ⟨t, ts⟩⟩ := s <;> rfl

@[simp] theorem name?_relocate : (relocate ρ s).name? = s.name? := by
  obtain ⟨a, _ | ⟨t, _ | ⟨u, us⟩⟩⟩ := s <;> rfl

@[simp] theorem isOnlyTerminators_relocate :
    (relocate ρ s).isOnlyTerminators = s.isOnlyTerminators := by
  rw [isOnlyTerminators, tokens_relocate, relocate_list, List.all_map]
  rfl

@[simp] theorem take_relocate (n : Nat) : (relocate ρ s).take n = relocate ρ (s.take n) := by
  simp only [take, relocate, List.map_take]

@[simp] theorem drop_relocate (n : Nat) : (relocate ρ s).drop n = relocate ρ (s.drop n) := by
  simp only [drop, relocate, List.map_drop, Nat.add_right_comm]

@[simp] theorem extract_relocate (i j : Nat) :
    (relocate ρ s).extract i j = relocate ρ (s.extract i j) := by
  simp only [extract, take_relocate, drop_relocate]

@[simp] theorem withoutTerminator_relocate :
    (relocate ρ s).withoutTerminator = relocate ρ s.withoutTerminator := by
  have hlast : (relocate ρ s).tokens.getLast?.any (·.keyword == .endOfStatement) =
      s.tokens.getLast?.any (·.keyword == .endOfStatement) := by
    rw [tokens_relocate, getLast?_relocate_list]
    cases s.tokens.getLast? <;> rfl
  simp only [withoutTerminator, hlast, length_relocate, take_relocate]
  split <;> rfl

@[simp] theorem firstFrom_relocate (k : Keyword) (i depth : Nat) :
    (relocate ρ s).firstFrom k i depth = s.firstFrom k i depth := by
  have hdrop : (relocate ρ s).tokens.drop i = relocate ρ (s.tokens.drop i) :=
    (List.map_drop ..).symm
  rw [firstFrom, firstFrom, hdrop, depthZero_relocate]

@[simp] theorem first_relocate (k : Keyword) (i : Nat) :
    (relocate ρ s).first k i = s.first k i :=
  firstFrom_relocate ρ s k i 0

@[simp] theorem firstOf_relocate (ks : List Keyword) :
    (relocate ρ s).firstOf ks = s.firstOf ks := by
  simp only [firstOf, tokens_relocate, depthZero_relocate]

@[simp] theorem allOf_relocate (k : Keyword) : (relocate ρ s).allOf k = s.allOf k := by
  simp only [allOf, tokens_relocate, depthZero_relocate]

@[simp] theorem positionsOf_relocate (ks : List Keyword) :
    (relocate ρ s).positionsOf ks = s.positionsOf ks := by
  simp only [positionsOf, tokens_relocate, depthZero_relocate]

theorem cutAt_relocate (i : Nat) (js : List Nat) :
    (relocate ρ s).cutAt i js = relocate ρ (s.cutAt i js) := by
  induction js generalizing i with
  | nil => simp only [cutAt, drop_relocate, relocate_cons, relocate_nil]
  | cons j js ih => simp only [cutAt, extract_relocate, ih, relocate_cons]

@[simp] theorem split_relocate (k : Keyword) :
    (relocate ρ s).split k = relocate ρ (s.split k) := by
  simp only [split_eq, isEmpty_relocate, allOf_relocate, cutAt_relocate]
  split <;> rfl

@[simp] theorem matchingClose_relocate (i : Nat) :
    (relocate ρ s).matchingClose i = s.matchingClose i := by
  simp only [matchingClose, tokens_relocate, getElem?_relocate_list, firstFrom_relocate]
  cases s.tokens[i]? <;> rfl

@[simp] theorem enclosed_relocate (k : Keyword) :
    (relocate ρ s).enclosed k = relocate ρ (s.enclosed k) := by
  simp only [enclosed_eq, startsWith_relocate, matchingClose_relocate, length_relocate,
    extract_relocate]
  split
  · split
    · split <;> rfl
    · rfl
  · rfl

/-- Parts are relocated with the slice around them. -/
theorem IsPartOf.relocate {q s : Slice} (h : q.IsPartOf s) :
    (Relocates.relocate ρ q).IsPartOf (Relocates.relocate ρ s) := by
  obtain ⟨i, hstart, us, hus⟩ := h
  refine ⟨i, ?_, Relocates.relocate ρ us, ?_⟩
  · simp only [start_relocate, hstart, Nat.add_right_comm]
  · rw [tokens_relocate, tokens_relocate, ← relocate_append, hus]
    exact List.map_drop

/-- Different slices of a stream stay different. -/
theorem key_relocate_inj {q r : Slice} (hq : q.IsPartOf s) (hr : r.IsPartOf s)
    (hstart : (Relocates.relocate ρ q).start = (Relocates.relocate ρ r).start)
    (hlength : (Relocates.relocate ρ q).length = (Relocates.relocate ρ r).length) : q = r := by
  simp only [start_relocate, length_relocate] at hstart hlength
  exact hq.eq_of_key hr (by omega) hlength

end Slice

section along

variable (n : Nat)

@[simp] theorem relocate_along_token (t : Token) : relocate (.along n) t = t := rfl

@[simp] theorem relocate_along_tokens (ts : List Token) : relocate (.along n) ts = ts :=
  List.map_id ts

@[simp] theorem relocate_along_problem (p : Problem) : relocate (.along n) p = p := by
  obtain ⟨c, origin, ts, help⟩ := p
  rw [relocate_problem, relocate_along_tokens]

theorem relocate_along_problems (ps : List Problem) : relocate (.along n) ps = ps := by
  induction ps with
  | nil => rfl
  | cons p ps ih => rw [relocate_cons, relocate_along_problem, ih]

theorem relocate_along_slice (s : Slice) : relocate (.along n) s = ⟨s.start + n, s.tokens⟩ := by
  obtain ⟨a, ts⟩ := s
  exact congrArg (Slice.mk (a + n)) (relocate_along_tokens n ts)

theorem relocate_along_ofTokens (ts : List Token) :
    relocate (.along n) (.ofTokens ts) = (⟨n, ts⟩ : Slice) := by
  rw [relocate_along_slice]
  exact congrArg (Slice.mk · ts) (Nat.zero_add n)

end along

end Prose
