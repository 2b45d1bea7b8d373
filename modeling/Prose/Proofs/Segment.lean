import Prose.Proofs.Slice.Nested
import Prose.Segment

namespace Prose

namespace Segment

/-- What `divideRest` does, without the proofs that what it cuts off is there. -/
def divideFrom (strict : Bool) (s : Slice) (size depth : Nat) (inDo : Bool) :
    List Token → Division
  | [] => rest strict s depth
  | t :: ts =>
    let inDo := if size = 0 then t.keyword == .doWord else inDo
    if t.keyword.isOpener then divideFrom strict s (size + 1) (depth + 1) inDo ts
    else if t.keyword.isCloser then
      if depth = 0 then
        let d := divideFrom strict (s.drop (size + 1)) 0 0 inDo ts
        let p := problem (.neverOpened t.text) [t]
        { d with segments := broken (s.take (size + 1)) p :: d.segments }
      else if depth = 1 ∧ t.keyword = .blockEnd then
        match ts with
        | [] => push (s.take (size + 1)) (divideFrom strict (s.drop (size + 1)) 0 0 inDo [])
        | u :: us =>
          if inDo && (u.keyword == .whileWord || u.keyword == .untilWord) then
            divideFrom strict s (size + 2) 0 false us
          else if continuesStatement u.keyword then
            divideFrom strict s (size + 1) 0 inDo (u :: us)
          else push (s.take (size + 1)) (divideFrom strict (s.drop (size + 1)) 0 0 inDo (u :: us))
      else divideFrom strict s (size + 1) (depth - 1) inDo ts
    else if t.keyword = .endOfStatement ∧ depth = 0 then
      push (s.take (size + 1)) (divideFrom strict (s.drop (size + 1)) 0 0 inDo ts)
    else divideFrom strict s (size + 1) depth inDo ts

theorem rest_eq (strict : Bool) (s : Slice) (depth : Nat) : rest strict s depth =
    (if 0 < depth then
      ⟨[broken s ((problem .neverClosed s.tokens).withHelp "close it with `\x7d` or `fin`")], none⟩
    else if s.isOnlyTerminators then ⟨[], none⟩
    else if strict then ⟨[broken s (problem .withoutTerminator s.tokens)], none⟩
    else ⟨[statement s], some s.position⟩) := by
  simp only [rest, Slice.place_eq, dite_eq_ite]

theorem divideRest_eq_divideFrom {strict : Bool} {s : Slice} {size depth : Nat} {inDo : Bool}
    {ts : List Token} (h : size + ts.length = s.length) :
    divideRest strict s size depth inDo ts h = divideFrom strict s size depth inDo ts := by
  induction hn : ts.length using Nat.strongRecOn generalizing s size depth inDo ts with
  | _ n ih =>
    obtain _ | ⟨t, _ | ⟨u, us⟩⟩ := ts
    · rw [divideRest, divideFrom]
    · simp only [divideRest, divideFrom]
      rfl
    · have ihu {s : Slice} {size depth : Nat} {inDo : Bool} (h) :
          divideRest strict s size depth inDo (u :: us) h =
            divideFrom strict s size depth inDo (u :: us) :=
        ih _ (by rw [← hn]; exact Nat.lt_succ_self _) h rfl
      have ihus {s : Slice} {size depth : Nat} {inDo : Bool} (h) :
          divideRest strict s size depth inDo us h = divideFrom strict s size depth inDo us :=
        ih _ (by rw [← hn]; exact Nat.lt_succ_of_lt (Nat.lt_succ_self _)) h rfl
      rw [divideRest.eq_def, divideFrom.eq_def]
      simp only [ihu, ihus, Slice.upTo_eq_take, Slice.onward_eq_drop]

theorem divide_eq (strict : Bool) (s : Slice) :
    divide strict s = divideFrom strict s 0 0 false s.tokens :=
  divideRest_eq_divideFrom _

variable {strict inDo : Bool} {s : Slice} {size depth : Nat} {t : Token} {ts us : List Token}
  {b : Bracket}

section steps

/-- A token that is no bracket and ends no statement is passed over. -/
theorem divideFrom_flat (ht : t.IsFlat) (hk : t.keyword ≠ .endOfStatement ∨ 0 < depth) :
    divideFrom strict s size depth inDo (t :: ts) =
      divideFrom strict s (size + 1) depth (if size = 0 then t.keyword == .doWord else inDo) ts := by
  have hdot : ¬(t.keyword = .endOfStatement ∧ depth = 0) := by
    rintro ⟨hk', hd⟩
    exact hk.elim (· hk') (by omega)
  rw [divideFrom.eq_def]
  simp [ht.1, ht.2, hdot]

theorem divideFrom_opener (ht : t.keyword = b.opener) :
    divideFrom strict s size depth inDo (t :: ts) =
      divideFrom strict s (size + 1) (depth + 1)
        (if size = 0 then t.keyword == .doWord else inDo) ts := by
  rw [divideFrom.eq_def]
  simp [ht]

/-- A closer ends no statement unless it is a block end that returns to depth zero. -/
theorem divideFrom_closer (ht : t.keyword = b.closer) (hsize : 0 < size)
    (hd : b = .paren ∨ 0 < depth) :
    divideFrom strict s size (depth + 1) inDo (t :: ts) =
      divideFrom strict s (size + 1) depth inDo ts := by
  have hend : ¬(depth + 1 = 1 ∧ b.closer = .blockEnd) := by
    rintro ⟨hone, hk⟩
    rcases hd with rfl | hd
    · cases hk
    · omega
  rw [divideFrom.eq_def]
  simp only [ht, b.isOpener_closer, b.isCloser_closer, if_true, Bool.false_eq_true, if_false,
    Nat.add_one_ne_zero, if_neg hend, Nat.add_sub_cancel, Nat.ne_of_gt hsize]

/-- Inside a bracket a division passes over well-nested tokens. -/
theorem divideFrom_nested (h : WellNested ts) (hsize : 0 < size) (hd : 0 < depth)
    (rest : List Token) :
    divideFrom strict s size depth inDo (ts ++ rest) =
      divideFrom strict s (size + ts.length) depth inDo rest := by
  induction h generalizing size depth rest with
  | nil => rfl
  | flat ht _ ih =>
    rw [List.cons_append, divideFrom_flat ht (.inr hd), if_neg (by omega), ih (by omega) hd,
      List.length_cons]
    congr 1
    omega
  | @bracket b o c inner ts ho hc _ _ ihinner ih =>
    rw [List.cons_append, List.append_assoc, List.cons_append, divideFrom_opener ho,
      if_neg (by omega), ihinner (by omega) (by omega), divideFrom_closer hc (by omega) (.inr hd),
      ih (by omega) hd]
    congr 1
    simp only [List.length_cons, List.length_append]
    omega

/-- Between statements it does not matter what the last one was. -/
theorem divideFrom_start (inDo : Bool) (ts : List Token) :
    divideFrom strict s 0 depth inDo ts = divideFrom strict s 0 depth false ts := by
  cases ts with
  | nil => rfl
  | cons t ts =>
    rw [divideFrom.eq_def, divideFrom.eq_def]
    simp only [if_true]

end steps

section completes

/-- No token that goes on with the statement before it comes first. -/
def Follows (rest : List Token) : Prop :=
  ∀ u ∈ rest.head?, continuesStatement u.keyword = false

/-- A division that has read a part of a statement cuts behind these tokens. -/
def Completes (ts : List Token) : Prop :=
  ∀ (strict : Bool) (s : Slice) (size : Nat) (rest : List Token), 0 < size → Follows rest →
    divideFrom strict s size 0 false (ts ++ rest) =
      push (s.take (size + ts.length)) (divideFrom strict (s.drop (size + ts.length)) 0 0 false rest)

theorem completes_dot (ht : t.keyword = .endOfStatement) : Completes [t] := by
  intro strict s size rest hsize _
  rw [List.singleton_append, divideFrom.eq_def]
  simp only [ht, Keyword.isOpener, Keyword.isCloser, Bool.false_eq_true, if_false, and_self,
    if_true, Nat.ne_of_gt hsize, List.length_singleton]

theorem Completes.cons (h : Completes ts) (ht : t.IsFlat) (hk : t.keyword ≠ .endOfStatement) :
    Completes (t :: ts) := by
  intro strict s size rest hsize hrest
  rw [List.cons_append, divideFrom_flat ht (.inl hk), if_neg (Nat.ne_of_gt hsize),
    h strict s (size + 1) rest (Nat.succ_pos _) hrest, List.length_cons,
    show size + 1 + ts.length = size + (ts.length + 1) by omega]

/-- Parentheses never end a statement. -/
theorem divideFrom_paren (h : Bracket.paren.Around us) (rest : List Token) :
    divideFrom strict s size 0 inDo (us ++ rest) =
      divideFrom strict s (size + us.length) 0 (if size = 0 then false else inDo) rest := by
  obtain ⟨o, inner, c, rfl, ho, hc, hinner⟩ := h
  have hdo : (o.keyword == Keyword.doWord) = false := by rw [ho]; rfl
  rw [List.cons_append, List.append_assoc, List.singleton_append, divideFrom_opener ho,
    divideFrom_nested hinner (by omega) (by omega), divideFrom_closer hc (by omega) (.inl rfl), hdo]
  congr 1
  simp only [List.length_cons, List.length_append, List.length_nil]
  omega

theorem Completes.paren (h : Completes ts) (hus : Bracket.paren.Around us) :
    Completes (us ++ ts) := by
  intro strict s size rest hsize hrest
  rw [List.append_assoc, divideFrom_paren hus, if_neg (Nat.ne_of_gt hsize),
    h strict s _ rest (by omega) hrest, List.length_append, Nat.add_assoc]

/-- A block end at depth zero ends a statement, or goes on with it, depending on what follows. -/
theorem divideFrom_brace (h : Bracket.brace.Around us) (rest : List Token) :
    divideFrom strict s size 0 inDo (us ++ rest) =
      match rest with
      | [] => push (s.take (size + us.length))
          (divideFrom strict (s.drop (size + us.length)) 0 0 false [])
      | u :: rest =>
        if (if size = 0 then false else inDo) && (u.keyword == .whileWord || u.keyword == .untilWord)
        then divideFrom strict s (size + us.length + 1) 0 false rest
        else if continuesStatement u.keyword then
          divideFrom strict s (size + us.length) 0 (if size = 0 then false else inDo) (u :: rest)
        else push (s.take (size + us.length))
          (divideFrom strict (s.drop (size + us.length)) 0 0 false (u :: rest)) := by
  obtain ⟨o, inner, c, rfl, ho, hc, hinner⟩ := h
  have hdo : (o.keyword == Keyword.doWord) = false := by rw [ho]; rfl
  have hlen : size + (o :: (inner ++ [c])).length = size + 1 + inner.length + 1 := by
    simp only [List.length_cons, List.length_append, List.length_nil]
    omega
  rw [List.cons_append, List.append_assoc, List.singleton_append, divideFrom_opener ho,
    divideFrom_nested hinner (by omega) (by omega), divideFrom.eq_def, hlen, hdo]
  -- Nothing between the brackets ends the statement; the block end decides by the next token.
  have hopen : Keyword.blockEnd.isOpener = false := rfl
  have hclose : Keyword.blockEnd.isCloser = true := rfl
  have hend : c.keyword = .blockEnd := hc
  have hsize : ¬size + 1 + inner.length = 0 := by omega
  simp only [hend, hopen, hclose, Bool.false_eq_true, if_false, if_true, Nat.zero_add,
    Nat.one_ne_zero, and_self, if_neg hsize]
  cases rest with
  | nil => rfl
  | cons u rest =>
    simp only [divideFrom_start (if size = 0 then false else inDo)]

theorem completes_brace (h : Bracket.brace.Around us) : Completes us := by
  intro strict s size rest hsize hrest
  rw [divideFrom_brace h]
  cases rest with
  | nil => rfl
  | cons u rest =>
    have hu : continuesStatement u.keyword = false := hrest u rfl
    simp [hu]

/-- A clause that goes on with the statement is read with it. -/
theorem Completes.brace (h : Completes (t :: ts)) (hus : Bracket.brace.Around us)
    (ht : continuesStatement t.keyword = true) : Completes (us ++ t :: ts) := by
  intro strict s size rest hsize hrest
  rw [List.append_assoc, List.cons_append, divideFrom_brace hus]
  simp only [ht, Bool.false_and, Bool.false_eq_true, if_false, if_true, ite_self]
  rw [← List.cons_append, h strict s _ rest (by omega) hrest, List.length_append, Nat.add_assoc]

end completes

section units

/-- The tokens are a statement of their own: the division cuts behind them, and their first token
neither goes on with the statement before them nor ends one. -/
structure IsUnit (ts : List Token) : Prop where
  cuts : ∀ (strict : Bool) (s : Slice) (rest : List Token), Follows rest →
    divideFrom strict s 0 0 false (ts ++ rest) =
      push (s.take ts.length) (divideFrom strict (s.drop ts.length) 0 0 false rest)
  head : ∃ t us, ts = t :: us ∧ continuesStatement t.keyword = false ∧ t.keyword ≠ .endOfStatement

theorem isUnit_of_completes (h : Completes ts) (ht : t.IsFlat)
    (hk : continuesStatement t.keyword = false) (hdot : t.keyword ≠ .endOfStatement)
    (hdo : t.keyword ≠ .doWord) : IsUnit (t :: ts) := by
  refine ⟨fun strict s rest hrest => ?_, t, ts, rfl, hk, hdot⟩
  rw [List.cons_append, divideFrom_flat ht (.inl hdot), if_pos rfl, beq_false_of_ne hdo,
    h strict s 1 rest Nat.one_pos hrest, List.length_cons, Nat.add_comm 1]

theorem isUnit_paren (h : Completes ts) (hus : Bracket.paren.Around us) : IsUnit (us ++ ts) := by
  refine ⟨fun strict s rest hrest => ?_, ?_⟩
  · have htwo := hus.two_le_length
    rw [List.append_assoc, divideFrom_paren hus, if_pos rfl, h strict s _ rest (by omega) hrest,
      List.length_append, Nat.zero_add]
  · obtain ⟨o, inner, c, rfl, ho, -, -⟩ := hus
    exact ⟨o, _, rfl, by rw [ho]; rfl, by rw [ho]; decide⟩

theorem isUnit_brace (h : Bracket.brace.Around us) : IsUnit us := by
  refine ⟨fun strict s rest hrest => ?_, ?_⟩
  · rw [divideFrom_brace h, Nat.zero_add]
    cases rest with
    | nil => rfl
    | cons u rest =>
      have hu : continuesStatement u.keyword = false := hrest u rfl
      simp [hu]
  · obtain ⟨o, inner, c, rfl, ho, -, -⟩ := h
    exact ⟨o, _, rfl, by rw [ho]; rfl, by rw [ho]; decide⟩

/-- The block of a `do` goes on with its `while` or `until`. -/
theorem isUnit_do {u v : Token} (hu : u.keyword = .doWord) (hus : Bracket.brace.Around us)
    (hv : v.keyword = .whileWord ∨ v.keyword = .untilWord) (h : Completes ts) :
    IsUnit (u :: (us ++ v :: ts)) := by
  have hflat : u.IsFlat := ⟨by rw [hu]; rfl, by rw [hu]; rfl⟩
  have hdot : u.keyword ≠ .endOfStatement := by rw [hu]; decide
  refine ⟨fun strict s rest hrest => ?_, u, _, rfl, by rw [hu]; rfl, hdot⟩
  -- The division remembers the `do`, so a `while` behind the block does not begin a statement.
  have hloop : (u.keyword == Keyword.doWord) = true := by rw [hu]; rfl
  have hv' : (v.keyword == Keyword.whileWord || v.keyword == Keyword.untilWord) = true := by
    rcases hv with hv | hv <;> rw [hv] <;> rfl
  rw [List.cons_append, List.append_assoc, List.cons_append, divideFrom_flat hflat (.inl hdot),
    if_pos rfl, hloop, divideFrom_brace hus]
  simp only [hv', if_neg Nat.one_ne_zero, Bool.and_self, if_true]
  rw [h strict s _ rest (by omega) hrest]
  simp only [List.length_cons, List.length_append]
  rw [show 1 + us.length + 1 + ts.length = us.length + (ts.length + 1) + 1 by omega]

def slicesFrom (a : Nat) : List (List Token) → List Slice
  | [] => []
  | ts :: tss => ⟨a, ts⟩ :: slicesFrom (a + ts.length) tss

theorem IsUnit.push_eq (h : IsUnit ts) (a : Nat) (d : Division) :
    push ⟨a, ts⟩ d = { d with segments := statement ⟨a, ts⟩ :: d.segments } := by
  obtain ⟨t, us, rfl, -, hdot⟩ := h.head
  have honly : (⟨a, t :: us⟩ : Slice).isOnlyTerminators = false := by
    simp [Slice.isOnlyTerminators, hdot]
  rw [push, honly]
  rfl

theorem follows_flatten {tss : List (List Token)} (h : ∀ ts ∈ tss, IsUnit ts) :
    Follows tss.flatten := by
  cases tss with
  | nil => exact fun u hu => by cases hu
  | cons ts tss =>
    obtain ⟨t, us, rfl, hk, -⟩ := (h ts (List.mem_cons_self ..)).head
    intro u hu
    cases hu
    exact hk

/-- A block of statements is divided into these. -/
theorem divide_flatten (strict : Bool) (a : Nat) {tss : List (List Token)}
    (h : ∀ ts ∈ tss, IsUnit ts) :
    divide strict ⟨a, tss.flatten⟩ = ⟨(slicesFrom a tss).map statement, none⟩ := by
  rw [divide_eq]
  induction tss generalizing a with
  | nil => rfl
  | cons ts tss ih =>
    have hts := h ts (List.mem_cons_self ..)
    have hrest : ∀ us ∈ tss, IsUnit us := fun us hus => h us (List.mem_cons_of_mem _ hus)
    have htake : (⟨a, (ts :: tss).flatten⟩ : Slice).take ts.length = ⟨a, ts⟩ :=
      Slice.take_eq ts tss.flatten rfl rfl
    have hdrop : (⟨a, (ts :: tss).flatten⟩ : Slice).drop ts.length =
        ⟨a + ts.length, tss.flatten⟩ :=
      Slice.drop_eq ts tss.flatten rfl rfl
    rw [List.flatten_cons] at *
    rw [hts.cuts strict _ _ (follows_flatten hrest), htake, hdrop, ih (a + ts.length) hrest,
      hts.push_eq]
    rfl

end units

end Segment

namespace Sentence

open Segment

def ofUnit (s : Slice) : Sentence :=
  if s.startsWith .ifWord then chain [s] else plain s

theorem ofSegments_statements (run slices : List Slice) :
    ofSegments run (slices.map Segment.statement) =
      ofSlices (run ++ slices).length (run ++ slices) := by
  induction slices generalizing run with
  | nil => rw [List.map_nil, ofSegments, List.append_nil]
  | cons s slices ih =>
    rw [List.map_cons, ofSegments, ih]
    simp

theorem clauses_eq_nil {slices : List Slice}
    (h : ∀ s ∈ slices, s.startsWith .otherwiseIf = false ∧ s.startsWith .otherwise = false) :
    clauses slices = [] := by
  cases slices with
  | nil => rfl
  | cons s slices =>
    obtain ⟨hif, hother⟩ := h s (List.mem_cons_self ..)
    simp [clauses, hif, hother]

/-- Where no slice begins with a clause, every slice is a sentence of its own. -/
theorem ofSlices_units {slices : List Slice}
    (h : ∀ s ∈ slices, s.startsWith .otherwiseIf = false ∧ s.startsWith .otherwise = false) :
    ofSlices slices.length slices = slices.map ofUnit := by
  induction slices with
  | nil => rfl
  | cons s slices ih =>
    obtain ⟨hif, hother⟩ := h s (List.mem_cons_self ..)
    have hrest := fun q hq => h q (List.mem_cons_of_mem _ hq)
    rw [List.length_cons, ofSlices, clauses_eq_nil hrest, List.map_cons, ofUnit]
    simp only [hif, hother, Bool.or_self, Bool.false_eq_true, if_false, List.length_nil,
      List.drop_zero, ih hrest]
    split <;> rfl

/-- A block of statements consists of their sentences. -/
theorem ofSegments_divide (strict : Bool) (a : Nat) {tss : List (List Token)}
    (h : ∀ ts ∈ tss, IsUnit ts) :
    ofSegments [] (divide strict ⟨a, tss.flatten⟩).segments = (slicesFrom a tss).map ofUnit := by
  rw [divide_flatten strict a h, ofSegments_statements, List.nil_append]
  refine ofSlices_units fun s hs => ?_
  -- Every slice is one of the statements, so none begins with a clause.
  have hunit : IsUnit s.tokens := by
    clear strict
    induction tss generalizing a with
    | nil => cases hs
    | cons ts tss ih =>
      rcases List.mem_cons.mp hs with rfl | hs
      · exact h ts (List.mem_cons_self ..)
      · exact ih (a + ts.length) (fun us hus => h us (List.mem_cons_of_mem _ hus)) hs
  obtain ⟨t, us, ht, hk, -⟩ := hunit.head
  constructor <;>
  · simp only [Slice.startsWith, ht, List.head?_cons, Option.any_some, beq_eq_false_iff_ne]
    intro hkey
    rw [hkey] at hk
    cases hk

end Sentence

end Prose
