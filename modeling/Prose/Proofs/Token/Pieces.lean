import Prose.Token.Lexer

namespace Prose

theorem eq_ok_of_toOption {ε α : Type} {r : Except ε α} {a : α} (h : r.toOption = some a) :
    r = .ok a := by
  cases r with
  | error e => cases h
  | ok b =>
    cases h
    rfl

namespace Lexer

/-- What follows the opening quote of a text literal: its first quote without a backslash before it
closes it. -/
inductive IsQuoted : List Char → Prop
  | close : IsQuoted ['"']
  | escape {cs} (c : Char) (h : IsQuoted cs) : IsQuoted ('\\' :: c :: cs)
  | plain {c cs} (hquote : c ≠ '"') (hslash : c ≠ '\\') (h : IsQuoted cs) : IsQuoted (c :: cs)

/-- A piece as it is written, in front of `rest`. A comment goes on to the end of its line. -/
inductive IsPiece : Piece → List Char → Prop
  | blank {c rest} (h : c ∈ [' ', '\r', '\t', '\n']) : IsPiece ⟨none, [c]⟩ rest
  | comment {cs rest} (h : '\n' ∉ cs) (hrest : ∀ c ∈ rest.head?, c = '\n') :
      IsPiece ⟨none, '#' :: cs⟩ rest
  | mark {c rest} (h : c ∈ ['.', ',', ';', ':', '(', ')', '\x7b', '\x7d']) :
      IsPiece ⟨some .punctuation, [c]⟩ rest
  | string {cs rest} (h : IsQuoted cs) : IsPiece ⟨some .string, '"' :: cs⟩ rest
  | character {c rest} (hslash : c ≠ '\\') (hline : c ≠ '\n') :
      IsPiece ⟨some .character, ['\'', c, '\'']⟩ rest
  | escaped {c rest} : IsPiece ⟨some .character, ['\'', '\\', c, '\'']⟩ rest
  | name {c cs rest} (h : startsWord c = true) (hcs : ∀ d ∈ cs, continuesWord d = true) :
      IsPiece ⟨some .identifier, '$' :: c :: cs⟩ rest
  | number {c cs rest} (h : c.isDigit = true) (hcs : ∀ d ∈ cs, d.isDigit = true) :
      IsPiece ⟨some .number, c :: cs⟩ rest
  | decimal {c cs d ds rest} (h : c.isDigit = true) (hcs : ∀ d ∈ cs, d.isDigit = true)
      (hd : d.isDigit = true) (hds : ∀ d ∈ ds, d.isDigit = true) :
      IsPiece ⟨some .number, c :: (cs ++ '.' :: d :: ds)⟩ rest
  | word {c cs rest} (h : startsWord c = true) (hcs : ∀ d ∈ cs, continuesWord d = true) :
      IsPiece ⟨some .word, c :: cs⟩ rest
  | operator {c rest}
      (h : c ∈ ['+', '-', '*', '/', '=', '<', '>', '!', '%', '&', '|', '^', '?']) :
      IsPiece ⟨some .operator, [c]⟩ rest

section pieces

variable {c : Char} {cs t : List Char} {x : Piece}

theorem isQuoted_of_stringTail (h : stringTail cs = some t) :
    IsQuoted t ∧ ∃ rest, cs = t ++ rest := by
  fun_induction stringTail cs generalizing t with
  | case1 => cases h
  | case2 rest =>
    cases h
    exact ⟨.close, rest, rfl⟩
  | case3 => cases h
  | case4 c cs ih =>
    obtain ⟨u, hu, rfl⟩ := Option.map_eq_some_iff.mp h
    obtain ⟨hquoted, rest, rfl⟩ := ih hu
    exact ⟨.escape c hquoted, rest, rfl⟩
  | case5 c cs hquote hlast hescape ih =>
    obtain ⟨u, hu, rfl⟩ := Option.map_eq_some_iff.mp h
    -- A backslash has a character behind it, or nothing; both cases came before.
    have hslash : c ≠ '\\' := by
      intro hc
      cases cs with
      | nil => exact hlast hc rfl
      | cons d ds => exact hescape d ds hc rfl
    obtain ⟨hquoted, rest, rfl⟩ := ih hu
    exact ⟨.plain hquote hslash hquoted, rest, rfl⟩

theorem isPiece_of_characterTail (h : characterTail cs = some t) :
    ∃ rest, cs = t ++ rest ∧ IsPiece ⟨some .character, '\'' :: t⟩ rest := by
  unfold characterTail at h
  split at h
  · rename_i rest
    cases h
    exact ⟨rest, rfl, .escaped⟩
  · rename_i c rest _
    split at h
    · cases h
    · rename_i hplain
      cases h
      simp only [Bool.or_eq_true, beq_iff_eq, not_or] at hplain
      exact ⟨rest, rfl, .character hplain.1 hplain.2⟩
  · cases h

/-- The characters of a run, and the one that ends it. -/
theorem exists_eq_takeWhile_append (p : Char → Bool) (cs : List Char) :
    ∃ rest, cs = cs.takeWhile p ++ rest ∧ (∀ d ∈ cs.takeWhile p, p d = true) ∧
      ∀ d ∈ rest.head?, p d = false := by
  refine ⟨cs.dropWhile p, List.takeWhile_append_dropWhile.symm,
    List.all_eq_true.mp List.all_takeWhile, fun d hd => ?_⟩
  have hend := List.head?_dropWhile_not p cs
  rw [hd] at hend
  exact hend

theorem isPiece_numberTail (hc : c.isDigit = true) (cs : List Char) :
    ∃ rest, cs = numberTail cs ++ rest ∧ IsPiece ⟨some .number, c :: numberTail cs⟩ rest := by
  have hwhole := List.takeWhile_append_dropWhile (p := Char.isDigit) (l := cs)
  have hdigits := List.all_eq_true.mp (List.all_takeWhile (p := Char.isDigit) (l := cs))
  have hplain : ∃ rest, cs = (cs.takeWhile Char.isDigit ++ []) ++ rest ∧
      IsPiece ⟨some .number, c :: (cs.takeWhile Char.isDigit ++ [])⟩ rest := by
    rw [List.append_nil]
    exact ⟨_, hwhole.symm, .number hc hdigits⟩
  unfold numberTail
  split
  · rename_i d rest hrest
    split
    · rename_i hd
      obtain ⟨behind, hbehind, hds, -⟩ := exists_eq_takeWhile_append Char.isDigit rest
      refine ⟨behind, ?_, .decimal hc hdigits hd hds⟩
      rw [hrest] at hwhole
      rw [List.append_assoc, List.cons_append, List.cons_append, ← hbehind, hwhole]
    · exact hplain
  · exact hplain

theorem isPiece_comment (cs : List Char) :
    ∃ rest, cs = cs.takeWhile (· != '\n') ++ rest ∧
      IsPiece ⟨none, '#' :: cs.takeWhile (· != '\n')⟩ rest := by
  obtain ⟨rest, hrest, hline, hend⟩ := exists_eq_takeWhile_append (· != '\n') cs
  refine ⟨rest, hrest, .comment ?_ ?_⟩
  · intro hmem
    cases hline '\n' hmem
  · intro d hd
    simpa using hend d hd

theorem continuesWord_of_startsWord (h : startsWord c = true) : continuesWord c = true := by
  rw [startsWord, Bool.or_eq_true] at h
  obtain halphabetic | hunderscore := h
  · rw [continuesWord, halphabetic, Bool.true_or, Bool.true_or]
  · rw [continuesWord, hunderscore, Bool.or_true]

/-- A text begins with the piece that is cut from it. -/
theorem isPiece_of_piece (h : piece c cs = .ok x) :
    ∃ rest, c :: cs = x.text ++ rest ∧ IsPiece x rest := by
  -- By what the first character may begin, in the order in which this is tried.
  unfold piece at h
  split at h
  · rename_i hc
    cases h
    exact ⟨cs, rfl, .blank (List.contains_iff_mem.mp hc)⟩
  split at h
  · rename_i hc
    cases h
    cases eq_of_beq hc
    obtain ⟨rest, hrest, hpiece⟩ := isPiece_comment cs
    exact ⟨rest, by rw [List.cons_append, ← hrest], hpiece⟩
  split at h
  · rename_i hc
    cases h
    exact ⟨cs, rfl, .mark (List.contains_iff_mem.mp hc)⟩
  split at h
  · rename_i hc
    cases eq_of_beq hc
    split at h
    · rename_i t ht
      cases h
      obtain ⟨hquoted, rest, rfl⟩ := isQuoted_of_stringTail ht
      exact ⟨rest, rfl, .string hquoted⟩
    · cases h
  split at h
  · rename_i hc
    cases eq_of_beq hc
    split at h
    · rename_i t ht
      cases h
      obtain ⟨rest, rfl, hpiece⟩ := isPiece_of_characterTail ht
      exact ⟨rest, rfl, hpiece⟩
    · cases h
  split at h
  · rename_i hc
    cases eq_of_beq hc
    split at h
    · -- A `$` is the beginning of a name if a letter or `_` follows.
      rename_i d ds
      split at h
      · rename_i hd
        cases h
        rw [List.takeWhile_cons_of_pos (continuesWord_of_startsWord hd)]
        obtain ⟨rest, hrest, hds, -⟩ := exists_eq_takeWhile_append continuesWord ds
        exact ⟨rest, by rw [List.cons_append, List.cons_append, ← hrest], .name hd hds⟩
      · cases h
    · cases h
  split at h
  · rename_i hc
    cases h
    obtain ⟨rest, hrest, hpiece⟩ := isPiece_numberTail hc cs
    exact ⟨rest, by rw [List.cons_append, ← hrest], hpiece⟩
  split at h
  · rename_i hc
    cases h
    obtain ⟨rest, hrest, hcs, -⟩ := exists_eq_takeWhile_append continuesWord cs
    exact ⟨rest, by rw [List.cons_append, ← hrest], .word hc hcs⟩
  split at h
  · rename_i hc
    cases h
    exact ⟨cs, rfl, .operator (List.contains_iff_mem.mp hc)⟩
  · cases h

theorem ne_nil_of_isPiece {rest : List Char} (h : IsPiece x rest) : x.text ≠ [] := by
  cases h <;> exact List.cons_ne_nil _ _

end pieces

/-- A text whose first character stands at a place is cut into pieces, and these are the tokens
among them. -/
inductive Cuts : Position → List Char → List Token → Prop
  | nil {p} : Cuts p [] []
  | gap {p text rest ts} (h : IsPiece ⟨none, text⟩ rest)
      (hrest : Cuts (text.foldl Position.after p) rest ts) : Cuts p (text ++ rest) ts
  | token {p kind text rest ts} (h : IsPiece ⟨some kind, text⟩ rest)
      (hrest : Cuts (text.foldl Position.after p) rest ts) :
      Cuts p (text ++ rest) (.ofText kind (String.ofList text) p :: ts)

theorem cuts_of_tokensFrom {n : Nat} {p : Position} {cs : List Char} {ts : List Token}
    (hn : cs.length ≤ n) (h : tokensFrom n p cs = .ok ts) : Cuts p cs ts := by
  induction n generalizing p cs ts with
  | zero =>
    cases List.eq_nil_of_length_eq_zero (Nat.le_zero.mp hn)
    cases h
    exact .nil
  | succ n ih =>
    cases cs with
    | nil =>
      cases h
      exact .nil
    | cons c cs =>
      rw [tokensFrom] at h
      split at h
      · cases h
      · rename_i x hx
        obtain ⟨rest, htext, hpiece⟩ := isPiece_of_piece hx
        -- No piece is empty, so there are steps enough for what is left.
        have hshorter : rest.length ≤ n := by
          have hpos := List.length_pos_iff.mpr (ne_nil_of_isPiece hpiece)
          have hlength := congrArg List.length htext
          rw [List.length_append] at hlength
          omega
        rw [htext, List.drop_left] at h
        rw [htext]
        cases hrest : tokensFrom n (x.text.foldl Position.after p) rest with
        | error e =>
          rw [hrest] at h
          cases h
        | ok us =>
          have hcuts := ih hshorter hrest
          rw [hrest] at h
          obtain ⟨kind, text⟩ := x
          cases kind with
          | none =>
            cases h
            exact .gap hpiece hcuts
          | some kind =>
            cases h
            exact .token hpiece hcuts

theorem cuts_of_tokenize {source name : String} {ts : List Token}
    (h : tokenize source name = .ok ts) : Cuts ⟨1, 1, name⟩ source.toList ts :=
  cuts_of_tokensFrom (Nat.le_refl _) h

end Lexer

end Prose
