import Prose.Proofs.Slice.Depth

namespace Prose

inductive Bracket where
  | paren | brace
  deriving DecidableEq

namespace Bracket

def opener : Bracket → Keyword
  | paren => .openParen
  | brace => .blockStart

def closer : Bracket → Keyword
  | paren => .closeParen
  | brace => .blockEnd

@[simp] theorem isOpener_opener (b : Bracket) : b.opener.isOpener = true := by cases b <;> rfl

@[simp] theorem isCloser_opener (b : Bracket) : b.opener.isCloser = false := by cases b <;> rfl

@[simp] theorem isOpener_closer (b : Bracket) : b.closer.isOpener = false := by cases b <;> rfl

@[simp] theorem isCloser_closer (b : Bracket) : b.closer.isCloser = true := by cases b <;> rfl

end Bracket

def Token.IsFlat (t : Token) : Prop :=
  t.keyword.isOpener = false ∧ t.keyword.isCloser = false

/-- Every opener has a closer of its kind, and the pairs do not cross. -/
inductive WellNested : List Token → Prop
  | nil : WellNested []
  | flat {t : Token} {ts : List Token} (ht : t.IsFlat) (h : WellNested ts) : WellNested (t :: ts)
  | bracket {b : Bracket} {o c : Token} {inner ts : List Token} (ho : o.keyword = b.opener)
      (hc : c.keyword = b.closer) (hinner : WellNested inner) (h : WellNested ts) :
      WellNested (o :: (inner ++ c :: ts))

def Bracket.Around (b : Bracket) (ts : List Token) : Prop :=
  ∃ o inner c, ts = o :: (inner ++ [c]) ∧ o.keyword = b.opener ∧ c.keyword = b.closer ∧
    WellNested inner

section nested

variable {ts us : List Token} {t : Token} {b : Bracket}

theorem WellNested.append (h : WellNested ts) (h' : WellNested us) : WellNested (ts ++ us) := by
  induction h with
  | nil => exact h'
  | flat ht _ ih => exact .flat ht ih
  | bracket ho hc hinner _ _ ih =>
    rw [List.cons_append, List.append_assoc, List.cons_append]
    exact .bracket ho hc hinner ih

theorem wellNested_singleton (h : t.IsFlat) : WellNested [t] :=
  .flat h .nil

theorem Bracket.Around.wellNested (h : b.Around ts) : WellNested ts := by
  obtain ⟨o, inner, c, rfl, ho, hc, hinner⟩ := h
  exact .bracket ho hc hinner .nil

/-- An opener behind the starting level is passed over together with its closer. -/
theorem depthZero_bracket {o c : Token} {inner : List Token} {depth : Int} (hd : 1 ≤ depth)
    (ho : o.keyword = b.opener) (hc : c.keyword = b.closer)
    (hinner : ∀ i rest, depthZero (depth + 1) i (inner ++ rest) =
      depthZero (depth + 1) (i + inner.length) rest) (i : Nat) (rest : List Token) :
    depthZero depth i (o :: (inner ++ c :: rest)) = depthZero depth (i + inner.length + 2) rest := by
  have hcloser : c.keyword.isCloser = true := by rw [hc, b.isCloser_closer]
  rw [depthZero_opener depth i _ (by rw [ho, b.isOpener_opener]) (by rw [ho, b.isCloser_opener]),
    if_neg (by omega), hinner, depthZero_closer (depth + 1) _ rest hcloser, if_neg (by omega),
    if_neg (by omega), Int.add_sub_cancel]
  congr 1
  omega

/-- Inside a bracket well-nested tokens show nothing and leave the depth as it was. -/
theorem WellNested.depthZero (h : WellNested ts) {depth : Int} (hd : 1 ≤ depth) (i : Nat)
    (rest : List Token) :
    depthZero depth i (ts ++ rest) = depthZero depth (i + ts.length) rest := by
  induction h generalizing depth i rest with
  | nil => rfl
  | flat ht _ ih =>
    rw [List.cons_append, depthZero_plain depth i _ ht.1 ht.2, if_neg (by omega), ih hd,
      List.length_cons]
    congr 1
    omega
  | bracket ho hc _ _ ihinner ih =>
    rw [List.cons_append, List.append_assoc, List.cons_append,
      depthZero_bracket hd ho hc (fun i rest => ihinner (by omega) i rest), ih hd]
    congr 1
    simp only [List.length_cons, List.length_append]
    omega

/-- At depth zero a bracket shows its two ends. -/
theorem Bracket.Around.depthZero (h : b.Around ts) (i : Nat) (rest : List Token) :
    depthZero 0 i (ts ++ rest) =
      (i, b.opener) :: (i + ts.length - 1, b.closer) :: depthZero 0 (i + ts.length) rest := by
  obtain ⟨o, inner, c, rfl, ho, hc, hinner⟩ := h
  have hcloser : c.keyword.isCloser = true := by rw [hc, b.isCloser_closer]
  rw [List.cons_append, List.append_assoc, List.singleton_append,
    depthZero_opener 0 i _ (by rw [ho, b.isOpener_opener]) (by rw [ho, b.isCloser_opener]),
    if_pos rfl, hinner.depthZero (by omega), depthZero_closer (0 + 1) _ rest hcloser,
    if_neg (by omega), if_pos (by omega), ho, hc]
  simp only [List.length_cons, List.length_append, List.length_nil]
  congr 3 <;> omega

theorem depthZero_flat (ht : t.IsFlat) (i : Nat) (rest : List Token) :
    depthZero 0 i (t :: rest) = (i, t.keyword) :: depthZero 0 (i + 1) rest := by
  rw [depthZero_plain 0 i rest ht.1 ht.2, if_pos rfl]

theorem Bracket.Around.two_le_length (h : b.Around ts) : 2 ≤ ts.length := by
  obtain ⟨o, inner, c, rfl, -⟩ := h
  simp only [List.length_cons, List.length_append, List.length_nil]
  omega

end nested

/-- At depth zero the tokens show keywords of `ks` only, and they leave the depth as it was. -/
def Shows (ks : List Keyword) (ts : List Token) : Prop :=
  ∀ (i : Nat) (rest : List Token), ∃ entries : List (Nat × Keyword), (∀ e ∈ entries, e.2 ∈ ks) ∧
    Prose.depthZero 0 i (ts ++ rest) = entries ++ Prose.depthZero 0 (i + ts.length) rest

section shows

variable {ts us : List Token} {t : Token} {b : Bracket} {ks ls : List Keyword}

theorem Shows.mono (h : Shows ks ts) (hsub : ks ⊆ ls) : Shows ls ts := by
  intro i rest
  obtain ⟨entries, hks, he⟩ := h i rest
  exact ⟨entries, fun e hmem => hsub (hks e hmem), he⟩

theorem shows_nil : Shows ks [] :=
  fun _ _ => ⟨[], by simp, rfl⟩

theorem Shows.append (h : Shows ks ts) (h' : Shows ks us) : Shows ks (ts ++ us) := by
  intro i rest
  obtain ⟨entries, hks, he⟩ := h i (us ++ rest)
  obtain ⟨entries', hks', he'⟩ := h' (i + ts.length) rest
  refine ⟨entries ++ entries', fun e hmem => ?_, ?_⟩
  · exact (List.mem_append.mp hmem).elim (hks e) (hks' e)
  · rw [List.append_assoc, he, he', List.append_assoc, List.length_append, Nat.add_assoc]

theorem shows_singleton (ht : t.IsFlat) (hk : t.keyword ∈ ks) : Shows ks [t] := by
  intro i rest
  exact ⟨[(i, t.keyword)], by simpa using hk, depthZero_flat ht i rest⟩

theorem Shows.cons (ht : t.IsFlat) (hk : t.keyword ∈ ks) (h : Shows ks ts) : Shows ks (t :: ts) :=
  (shows_singleton ht hk).append h

theorem Bracket.Around.shows (h : b.Around ts) (ho : b.opener ∈ ks) (hc : b.closer ∈ ks) :
    Shows ks ts := by
  intro i rest
  exact ⟨[(i, b.opener), (i + ts.length - 1, b.closer)], by simp [ho, hc], h.depthZero i rest⟩

/-- The entries of tokens that show nothing else. -/
theorem Shows.of_mem (h : Shows ks ts) {i j : Nat} {k : Keyword}
    (hmem : (j, k) ∈ Prose.depthZero 0 i ts) : k ∈ ks := by
  obtain ⟨entries, hks, he⟩ := h i []
  rw [List.append_nil, Prose.depthZero, List.append_nil] at he
  rw [he] at hmem
  exact hks _ hmem

/-- Well-nested tokens show what a search in them finds. -/
theorem WellNested.depthZero_append (h : WellNested ts) (i : Nat) (rest : List Token) :
    Prose.depthZero 0 i (ts ++ rest) =
      Prose.depthZero 0 i ts ++ Prose.depthZero 0 (i + ts.length) rest := by
  induction h generalizing i rest with
  | nil => rfl
  | @flat t ts ht _ ih =>
    have hlength : i + (t :: ts).length = i + 1 + ts.length := by
      rw [List.length_cons]
      omega
    rw [List.cons_append, depthZero_flat ht, depthZero_flat ht, ih, hlength, List.cons_append]
  | @bracket b o c inner ts ho hc hinner _ _ ih =>
    have haround : b.Around (o :: (inner ++ [c])) := ⟨o, inner, c, rfl, ho, hc, hinner⟩
    have hassoc (us : List Token) : o :: (inner ++ c :: us) = (o :: (inner ++ [c])) ++ us := by
      rw [List.cons_append, List.append_assoc, List.singleton_append]
    rw [hassoc, List.append_assoc, haround.depthZero, haround.depthZero, ih, List.length_append,
      List.cons_append, List.cons_append, Nat.add_assoc]

theorem WellNested.shows (h : WellNested ts) :
    Shows ((Prose.depthZero 0 0 ts).map (·.2)) ts := by
  intro i rest
  refine ⟨Prose.depthZero 0 i ts, fun e he => ?_, h.depthZero_append i rest⟩
  rw [map_snd_depthZero 0 0 i]
  exact List.mem_map_of_mem he

end shows

section indices

variable {ts us : List Token} {t : Token} {k : Keyword} {ks : List Keyword}

def indicesFrom (k : Keyword) (i : Nat) (ts : List Token) : List Nat :=
  ((depthZero 0 i ts).filter (·.2 == k)).map (·.1)

/-- Tokens that do not show the keyword are passed over. -/
theorem indicesFrom_append (h : Shows ks ts) (hk : k ∉ ks) (i : Nat) (us : List Token) :
    indicesFrom k i (ts ++ us) = indicesFrom k (i + ts.length) us := by
  obtain ⟨entries, hks, he⟩ := h i us
  have hnone : entries.filter (·.2 == k) = [] := by
    rw [List.filter_eq_nil_iff]
    intro e hmem hek
    exact hk (eq_of_beq hek ▸ hks e hmem)
  rw [indicesFrom, he, List.filter_append, hnone, List.nil_append, indicesFrom]

theorem indicesFrom_of_shows (h : Shows ks ts) (hk : k ∉ ks) (i : Nat) :
    indicesFrom k i ts = [] := by
  have happend := indicesFrom_append h hk i []
  rwa [List.append_nil] at happend

theorem indicesFrom_cons (hflat : t.IsFlat) (ht : t.keyword = k) (i : Nat) (us : List Token) :
    indicesFrom k i (t :: us) = i :: indicesFrom k (i + 1) us := by
  rw [indicesFrom, depthZero_flat hflat, List.filter_cons, if_pos (by simp [ht]), List.map_cons,
    indicesFrom]

end indices

namespace Slice

variable {s : Slice} {b : Bracket} {ts rest : List Token}

theorem first_eq (s : Slice) (k : Keyword) (i : Nat) :
    s.first k i = ((depthZero 0 i (s.tokens.drop i)).find? (·.2 == k)).map (·.1) := rfl

/-- A search passes over tokens that do not show the keyword. -/
theorem first_eq_some {k : Keyword} {ks : List Keyword} {i : Nat} {w : Token} (h : Shows ks ts)
    (hk : k ∉ ks) (hw : w.IsFlat) (hwk : w.keyword = k) (hs : s.tokens.drop i = ts ++ w :: rest) :
    s.first k i = some (i + ts.length) := by
  obtain ⟨entries, hks, he⟩ := h i (w :: rest)
  have hnone : entries.find? (·.2 == k) = none := by
    rw [List.find?_eq_none]
    intro e hmem
    simp only [beq_iff_eq]
    exact fun hek => hk (hek ▸ hks e hmem)
  rw [first_eq, hs, he, depthZero_flat hw, List.find?_append, hnone]
  simp [hwk]

theorem first_eq_none {k : Keyword} {ks : List Keyword} {i : Nat}
    (h : Shows ks (s.tokens.drop i)) (hk : k ∉ ks) : s.first k i = none := by
  rw [first_eq, Option.map_eq_none_iff, List.find?_eq_none]
  intro e hmem
  simp only [beq_iff_eq]
  exact fun hek => hk (hek ▸ h.of_mem hmem)

/-- The closer of a bracket is where that bracket ends. -/
theorem matchingClose_of_around {i : Nat} (rest : List Token) (h : b.Around ts)
    (hs : s.tokens.drop i = ts ++ rest) :
    s.matchingClose i = some (i + ts.length - 1) := by
  obtain ⟨o, inner, c, rfl, ho, hc, hinner⟩ := h
  have hcloser : c.keyword.isCloser = true := by rw [hc, b.isCloser_closer]
  have hbehind : s.tokens.drop (i + 1) = inner ++ c :: rest := by
    rw [← List.drop_drop, hs]
    simp
  have hfirst : s.firstFrom b.closer (i + 1) 1 = some (i + 1 + inner.length) := by
    have hone : depthOfCount 1 = 1 := by decide
    rw [firstFrom, hbehind, hone, hinner.depthZero (by omega),
      depthZero_closer 1 _ rest hcloser, if_neg (by omega), if_pos rfl]
    simp [hc]
  have hhead : s.tokens[i]? = some o := by
    have hzero := congrArg (fun us => us[0]?) hs
    simpa [List.getElem?_drop] using hzero
  have hlast : i + (o :: (inner ++ [c])).length - 1 = i + 1 + inner.length := by
    simp only [List.length_cons, List.length_append, List.length_nil]
    omega
  rw [matchingClose, hhead, hlast]
  simp only [ho]
  cases b <;> exact hfirst

/-- A slice that is one bracket encloses what stands inside. -/
theorem enclosed_of_around {o c : Token} {inner : List Token} (ho : o.keyword = b.opener)
    (hc : c.keyword = b.closer) (hinner : WellNested inner) (hs : s.tokens = o :: (inner ++ [c])) :
    s.enclosed b.opener = some ⟨s.start + 1, inner⟩ := by
  have h : b.Around (o :: (inner ++ [c])) := ⟨o, inner, c, rfl, ho, hc, hinner⟩
  have hclose : s.matchingClose 0 = some (inner.length + 1) := by
    simpa using matchingClose_of_around (i := 0) [] h (by simpa using hs)
  have hstart : s.startsWith b.opener = true := by
    simp [startsWith, hs, ho]
  rw [enclosed_eq, if_pos hstart, hclose]
  have hlen : s.length = inner.length + 1 + 1 := by simp [length, hs]
  simp only [hlen, if_true]
  simp [extract, take, drop, hs]

/-- A slice that goes on behind its first bracket is not enclosed. -/
theorem enclosed_eq_none_of_around (h : b.Around ts) (hs : s.tokens = ts ++ rest)
    (hrest : rest ≠ []) (k : Keyword) : s.enclosed k = none := by
  have htwo := h.two_le_length
  have hlen : s.length = ts.length + rest.length := by simp [length, hs]
  have hpos := List.length_pos_iff.mpr hrest
  simp only [enclosed_eq, matchingClose_of_around (i := 0) rest h hs, Nat.zero_add]
  split
  · rw [if_neg (by omega)]
  · rfl

theorem enclosed_eq_none_of_startsWith {k : Keyword} (h : s.startsWith k = false) :
    s.enclosed k = none := by
  simp [enclosed_eq, h]

end Slice

end Prose
