import Mathlib.Data.List.Infix
import Prose.Proofs.Slice.Nested

namespace Prose

def Keyword.weight (k : Keyword) : Int :=
  if k.isOpener then 1 else if k.isCloser then -1 else 0

def bracketDepth : List Token → Int
  | [] => 0
  | t :: ts => t.keyword.weight + bracketDepth ts

/-- With `depth` brackets open, the tokens never close one that is not open, and they close all. -/
structure BalancedFrom (depth : Nat) (ts : List Token) : Prop where
  nonneg : ∀ us, us <+: ts → 0 ≤ depth + bracketDepth us
  zero : depth + bracketDepth ts = 0

/-- The tokens never close a bracket that is not open, and they close all. -/
def Balanced (ts : List Token) : Prop :=
  BalancedFrom 0 ts

instance (depth : Nat) (ts : List Token) : Decidable (BalancedFrom depth ts) :=
  decidable_of_iff ((∀ us ∈ ts.inits, 0 ≤ depth + bracketDepth us) ∧ depth + bracketDepth ts = 0)
    ⟨fun h => ⟨fun us hus => h.1 us ((List.mem_inits us ts).mpr hus), h.2⟩,
      fun h => ⟨fun us hus => h.nonneg us ((List.mem_inits us ts).mp hus), h.zero⟩⟩

instance (ts : List Token) : Decidable (Balanced ts) :=
  inferInstanceAs (Decidable (BalancedFrom 0 ts))

section weight

variable {k : Keyword}

theorem Keyword.weight_of_isOpener (h : k.isOpener = true) : k.weight = 1 :=
  if_pos h

theorem Keyword.weight_of_isCloser (h : k.isCloser = true) : k.weight = -1 := by
  rw [weight, isOpener_eq_false_of_isCloser h, h]
  rfl

theorem Keyword.weight_of_flat (ho : k.isOpener = false) (hc : k.isCloser = false) :
    k.weight = 0 := by
  rw [weight, ho, hc]
  rfl

end weight

@[simp] theorem bracketDepth_nil : bracketDepth [] = 0 := rfl

@[simp] theorem bracketDepth_cons (t : Token) (ts : List Token) :
    bracketDepth (t :: ts) = t.keyword.weight + bracketDepth ts := rfl

@[simp] theorem balancedFrom_nil {depth : Nat} : BalancedFrom depth [] ↔ depth = 0 := by
  constructor
  · intro h
    have hzero := h.zero
    rw [bracketDepth_nil] at hzero
    omega
  · rintro rfl
    refine ⟨?_, rfl⟩
    intro us hus
    rw [List.prefix_nil.mp hus, bracketDepth_nil]
    exact Int.le_refl 0

namespace BalancedFrom

variable {depth : Nat} {t : Token} {ts : List Token}

/-- The depth behind the first token, from which the others are balanced. -/
theorem exists_of_cons (h : BalancedFrom depth (t :: ts)) :
    ∃ inner : Nat, (inner : Int) = depth + t.keyword.weight ∧ BalancedFrom inner ts := by
  have hfirst : 0 ≤ depth + bracketDepth [t] := h.nonneg [t] (List.prefix_append [t] ts)
  rw [bracketDepth_cons, bracketDepth_nil, Int.add_zero] at hfirst
  obtain ⟨inner, hinner⟩ := Int.eq_ofNat_of_zero_le hfirst
  refine ⟨inner, hinner.symm, ?_, ?_⟩
  · intro us hus
    have hprefix := h.nonneg (t :: us) (List.cons_prefix_cons.mpr ⟨rfl, hus⟩)
    rw [bracketDepth_cons] at hprefix
    omega
  · have hzero := h.zero
    rw [bracketDepth_cons] at hzero
    omega

/-- Tokens are balanced from the depth in front of a token if they are from the depth behind it. -/
theorem cons {inner : Nat} (h : BalancedFrom inner ts)
    (hinner : (inner : Int) = depth + t.keyword.weight) : BalancedFrom depth (t :: ts) := by
  constructor
  · intro us hus
    cases us with
    | nil =>
      rw [bracketDepth_nil]
      omega
    | cons u us =>
      obtain ⟨rfl, hprefix⟩ := List.cons_prefix_cons.mp hus
      have hnonneg := h.nonneg us hprefix
      rw [bracketDepth_cons]
      omega
  · have hzero := h.zero
    rw [bracketDepth_cons]
    omega

theorem opener (h : BalancedFrom depth (t :: ts)) (ht : t.keyword.isOpener = true) :
    BalancedFrom (depth + 1) ts := by
  obtain ⟨inner, hinner, hts⟩ := h.exists_of_cons
  rw [Keyword.weight_of_isOpener ht] at hinner
  rwa [show depth + 1 = inner by omega]

/-- A closer closes a bracket that is open. -/
theorem closer (h : BalancedFrom depth (t :: ts)) (ht : t.keyword.isCloser = true) :
    0 < depth ∧ BalancedFrom (depth - 1) ts := by
  obtain ⟨inner, hinner, hts⟩ := h.exists_of_cons
  rw [Keyword.weight_of_isCloser ht] at hinner
  refine ⟨by omega, ?_⟩
  rwa [show depth - 1 = inner by omega]

theorem flat (h : BalancedFrom depth (t :: ts)) (ht : t.IsFlat) : BalancedFrom depth ts := by
  obtain ⟨inner, hinner, hts⟩ := h.exists_of_cons
  rw [Keyword.weight_of_flat ht.1 ht.2] at hinner
  rwa [show depth = inner by omega]

end BalancedFrom

variable {t : Token} {ts us inner rest : List Token}

inductive IsBraced (inner : List Token) : List Token → Prop
  | mk {o c : Token} (ho : o.keyword = .blockStart) (hc : c.keyword = .blockEnd)
      (h : Balanced inner) : IsBraced inner (o :: (inner ++ [c]))

theorem IsBraced.length_eq (h : IsBraced inner ts) : ts.length = inner.length + 2 := by
  cases h
  simp only [List.length_cons, List.length_append, List.length_nil]

/-- Balanced tokens may stand in front of well-nested ones. -/
theorem WellNested.balancedFrom (h : WellNested ts) {depth : Nat} (hrest : BalancedFrom depth rest) :
    BalancedFrom depth (ts ++ rest) := by
  induction h generalizing depth rest with
  | nil => exact hrest
  | flat ht _ ih =>
    apply BalancedFrom.cons (ih hrest)
    rw [Keyword.weight_of_flat ht.1 ht.2, Int.add_zero]
  | @bracket b o c inner ts ho hc _ _ ihinner ih =>
    have hcloser : BalancedFrom (depth + 1) (c :: (ts ++ rest)) := by
      apply BalancedFrom.cons (ih hrest)
      rw [Keyword.weight_of_isCloser (by rw [hc, b.isCloser_closer])]
      omega
    rw [List.cons_append, List.append_assoc, List.cons_append]
    apply BalancedFrom.cons (ihinner hcloser)
    rw [Keyword.weight_of_isOpener (by rw [ho, b.isOpener_opener])]
    rfl

theorem Bracket.Around.exists_isBraced (h : Bracket.brace.Around ts) :
    ∃ inner, IsBraced inner ts := by
  obtain ⟨o, inner, c, rfl, ho, hc, hinner⟩ := h
  have hbalanced := hinner.balancedFrom (balancedFrom_nil.mpr rfl)
  rw [List.append_nil] at hbalanced
  exact ⟨inner, .mk ho hc hbalanced⟩

/-- One level inside a bracket, balanced tokens show nothing, and the search is at that level again
behind them. -/
theorem BalancedFrom.depthZero {depth : Nat} (h : BalancedFrom depth ts) (i : Nat)
    (rest : List Token) :
    depthZero (depth + 1) i (ts ++ rest) = depthZero 1 (i + ts.length) rest := by
  induction ts generalizing depth i with
  | nil =>
    rw [balancedFrom_nil.mp h]
    rfl
  | cons t ts ih =>
    have hlength : i + (t :: ts).length = i + 1 + ts.length := by
      rw [List.length_cons]
      omega
    rw [List.cons_append, hlength]
    by_cases hc : t.keyword.isCloser = true
    · obtain ⟨hpos, hts⟩ := h.closer hc
      have hdepth : (depth : Int) + 1 - 1 = ((depth - 1 : Nat) : Int) + 1 := by omega
      rw [depthZero_closer _ i _ hc, if_neg (by omega), if_neg (by omega), hdepth]
      exact ih hts (i + 1)
    · rw [Bool.not_eq_true] at hc
      by_cases ho : t.keyword.isOpener = true
      · rw [depthZero_opener _ i _ ho hc, if_neg (by omega)]
        exact_mod_cast ih (h.opener ho) (i + 1)
      · rw [Bool.not_eq_true] at ho
        rw [depthZero_plain _ i _ ho hc, if_neg (by omega)]
        exact ih (h.flat ⟨ho, hc⟩) (i + 1)

/-- At depth zero a block in brackets shows its two ends. -/
theorem IsBraced.depthZero (h : IsBraced inner ts) (i : Nat) (rest : List Token) :
    depthZero 0 i (ts ++ rest) =
      (i, .blockStart) :: (i + ts.length - 1, .blockEnd) ::
        Prose.depthZero 0 (i + ts.length) rest := by
  have hlength := h.length_eq
  cases h with
  | @mk o c ho hc hinner =>
    have hpass := hinner.depthZero (i + 1) (c :: rest)
    rw [List.cons_append, List.append_assoc, List.singleton_append,
      depthZero_opener 0 i _ (by rw [ho]; rfl) (by rw [ho]; rfl), if_pos rfl]
    rw [Int.ofNat_zero, Int.zero_add] at hpass
    rw [Int.zero_add, hpass, depthZero_closer 1 _ rest (by rw [hc]; rfl), if_neg (by omega),
      if_pos rfl, ho, hc, hlength]
    congr 3 <;> omega

def Keyword.isInline (k : Keyword) : Bool :=
  !(k == endOfStatement || k == blockStart || k == blockEnd)

theorem Token.IsFlat.isInline (h : t.IsFlat) (hdot : t.keyword ≠ .endOfStatement) :
    t.keyword.isInline = true := by
  have hstart : t.keyword ≠ .blockStart := by
    intro hk
    have hopener := h.1
    rw [hk] at hopener
    cases hopener
  have hend : t.keyword ≠ .blockEnd := by
    intro hk
    have hcloser := h.2
    rw [hk] at hcloser
    cases hcloser
  simp [Keyword.isInline, hdot, hstart, hend]

/-- Well-nested tokens without blocks and without the end of a statement. -/
structure IsInline (ts : List Token) : Prop where
  nested : WellNested ts
  inline : ∀ t ∈ ts, t.keyword.isInline = true

namespace IsInline

theorem append (h : IsInline ts) (h' : IsInline us) : IsInline (ts ++ us) :=
  ⟨h.nested.append h'.nested, List.forall_mem_append.mpr ⟨h.inline, h'.inline⟩⟩

/-- A word that is no bracket and does not end a statement. -/
theorem word (hflat : t.IsFlat) (h : t.keyword.isInline = true) : IsInline [t] :=
  ⟨wellNested_singleton hflat, List.forall_mem_singleton.mpr h⟩

/-- Tokens without brackets, none of which ends a statement. -/
theorem of_isFlat (hflat : ∀ t ∈ ts, t.IsFlat)
    (hdots : ∀ t ∈ ts, t.keyword ≠ .endOfStatement) : IsInline ts := by
  induction ts with
  | nil => exact ⟨.nil, by simp⟩
  | cons t ts ih =>
    rw [List.forall_mem_cons] at hflat hdots
    exact (word hflat.1 (hflat.1.isInline hdots.1)).append (ih hflat.2 hdots.2)

/-- No block end is found in the tokens. -/
theorem not_mem_depthZero (h : IsInline ts) :
    .blockEnd ∉ (depthZero 0 0 ts).map (·.2) := by
  intro hmem
  obtain ⟨t, ht, hk⟩ := mem_of_mem_depthZero hmem
  have hinline := h.inline t ht
  rw [hk] at hinline
  cases hinline

/-- A `.` behind the tokens is found, but no block end. -/
theorem exists_shows_dot (h : IsInline ts) (ht : t.keyword = .endOfStatement) :
    ∃ ks, Shows ks (ts ++ [t]) ∧ .blockEnd ∉ ks := by
  have hflat : t.IsFlat := ⟨by rw [ht]; rfl, by rw [ht]; rfl⟩
  refine ⟨.endOfStatement :: (depthZero 0 0 ts).map (·.2), ?_, ?_⟩
  · exact (h.nested.shows.mono (List.subset_cons_self ..)).append
      (shows_singleton hflat (by rw [ht]; exact List.mem_cons_self ..))
  · rw [List.mem_cons, not_or]
    exact ⟨by decide, h.not_mem_depthZero⟩

end IsInline

namespace Slice

variable {s : Slice}

/-- A block in brackets has no closing `.` -/
theorem withoutTerminator_of_isBraced (h : IsBraced inner s.tokens) : s.withoutTerminator = s := by
  obtain ⟨a, ts⟩ := s
  cases h with
  | @mk o c ho hc hinner =>
    have hlast : (o :: (inner ++ [c])).getLast? = some c := by
      rw [← List.cons_append, List.getLast?_concat]
    rw [withoutTerminator, hlast]
    simp [hc]

/-- A slice that is one block in brackets encloses what stands inside. -/
theorem enclosed_of_isBraced (h : IsBraced inner s.tokens) :
    s.enclosed .blockStart = some ⟨s.start + 1, inner⟩ := by
  obtain ⟨a, ts⟩ := s
  cases h with
  | @mk o c ho hc hinner =>
    have hstart : (⟨a, o :: (inner ++ [c])⟩ : Slice).startsWith .blockStart = true := by
      simp [startsWith, ho]
    have hpass := hinner.depthZero 1 [c]
    rw [Int.ofNat_zero, Int.zero_add] at hpass
    have hone : depthOfCount 1 = 1 := by decide
    -- Behind the balanced tokens the search is at the block end.
    have hclose : (⟨a, o :: (inner ++ [c])⟩ : Slice).matchingClose 0 = some (1 + inner.length) := by
      simp only [matchingClose, List.getElem?_cons_zero, ho, firstFrom, hone, Nat.zero_add,
        List.drop_succ_cons, List.drop_zero, hpass]
      rw [depthZero_closer 1 _ [] (by rw [hc]; rfl), if_neg (by omega), if_pos rfl]
      simp [hc]
    have hend : 1 + inner.length + 1 = (⟨a, o :: (inner ++ [c])⟩ : Slice).length := by
      simp only [length, List.length_cons, List.length_append, List.length_nil]
      omega
    rw [enclosed_eq, if_pos hstart, hclose]
    simp only [if_pos hend]
    simp [extract, take, drop, Nat.add_comm 1]

end Slice

end Prose
