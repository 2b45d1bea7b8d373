import Mathlib.Data.List.TakeWhile
import Prose.Proofs.Token.Pieces

namespace Prose

namespace Lexer

section classes

variable {c d : Char} {cs t : List Char}

/-- A character of a class is in no list of others. -/
theorem contains_eq_false {p : Char → Bool} {l : List Char} (hl : ∀ d ∈ l, p d = false)
    (hc : p c = true) : l.contains c = false := by
  rw [Bool.eq_false_iff]
  intro hmem
  rw [hl c (List.contains_iff_mem.mp hmem)] at hc
  exact Bool.false_ne_true hc

theorem piece_of_blank (hc : c ∈ [' ', '\r', '\t', '\n']) (cs : List Char) :
    piece c cs = .ok ⟨none, [c]⟩ :=
  if_pos (List.contains_iff_mem.mpr hc)

theorem piece_hash (cs : List Char) :
    piece '#' cs = .ok ⟨none, '#' :: cs.takeWhile (· != '\n')⟩ := rfl

theorem piece_of_mark (hc : c ∈ ['.', ',', ';', ':', '(', ')', '\x7b', '\x7d'])
    (cs : List Char) : piece c cs = .ok ⟨some .punctuation, [c]⟩ := by
  simp only [List.mem_cons, List.not_mem_nil, or_false] at hc
  rcases hc with rfl | rfl | rfl | rfl | rfl | rfl | rfl | rfl <;> rfl

theorem piece_of_operator
    (hc : c ∈ ['+', '-', '*', '/', '=', '<', '>', '!', '%', '&', '|', '^', '?'])
    (cs : List Char) : piece c cs = .ok ⟨some .operator, [c]⟩ := by
  simp only [List.mem_cons, List.not_mem_nil, or_false] at hc
  rcases hc with rfl | rfl | rfl | rfl | rfl | rfl | rfl | rfl | rfl | rfl | rfl | rfl | rfl <;>
    rfl

theorem piece_quote (h : stringTail cs = some t) : piece '"' cs = .ok ⟨some .string, '"' :: t⟩ := by
  rw [piece.eq_def, h]
  rfl

theorem piece_apostrophe (h : characterTail cs = some t) :
    piece '\'' cs = .ok ⟨some .character, '\'' :: t⟩ := by
  rw [piece.eq_def, h]
  rfl

theorem piece_dollar (hd : startsWord d = true) (cs : List Char) :
    piece '$' (d :: cs) = .ok ⟨some .identifier, '$' :: (d :: cs).takeWhile continuesWord⟩ :=
  if_pos hd

def leads : List Char :=
  [' ', '\r', '\t', '\n', '#', '.', ',', ';', ':', '(', ')', '\x7b', '\x7d', '"', '\'', '$']

/-- With a character of a class without leads a number, a word or an operator begins, or nothing. -/
theorem piece_of_class {p : Char → Bool} (hc : p c = true) (hp : leads.any p = false)
    (cs : List Char) :
    piece c cs =
      if c.isDigit then .ok ⟨some .number, c :: numberTail cs⟩
      else if startsWord c then .ok ⟨some .word, c :: cs.takeWhile continuesWord⟩
      else if ['+', '-', '*', '/', '=', '<', '>', '!', '%', '&', '|', '^', '?'].contains c then
        .ok ⟨some .operator, [c]⟩
      else .error (.unexpected c) := by
  have hlead (d : Char) (hd : d ∈ leads) : p d = false :=
    Bool.eq_false_iff.mpr (List.any_eq_false.mp hp d hd)
  have hnone {l : List Char} (hl : l ⊆ leads) : l.contains c = false :=
    contains_eq_false (fun d hd => hlead d (hl hd)) hc
  have hne {q : Char} (hq : q ∈ leads) : (c == q) = false := by
    rw [beq_eq_false_iff_ne]
    rintro rfl
    rw [hlead c hq] at hc
    exact Bool.false_ne_true hc
  have hblank := hnone (l := [' ', '\r', '\t', '\n']) (by decide)
  have hmark := hnone (l := ['.', ',', ';', ':', '(', ')', '\x7b', '\x7d']) (by decide)
  rw [piece.eq_def, hblank, hmark, hne (q := '#') (by decide), hne (q := '"') (by decide),
    hne (q := '\'') (by decide), hne (q := '$') (by decide)]
  rfl

theorem piece_of_isDigit (hc : c.isDigit = true) (cs : List Char) :
    piece c cs = .ok ⟨some .number, c :: numberTail cs⟩ := by
  rw [piece_of_class hc rfl, if_pos hc]

/-- No word begins with a digit. -/
theorem startsWord_eq_false_of_isDigit (hc : c.isDigit = true) : startsWord c = false := by
  have hunderscore : (c == '_') = false := by
    rw [beq_eq_false_iff_ne]
    rintro rfl
    cases hc
  simp only [Char.isDigit, Bool.and_eq_true, decide_eq_true_eq, UInt32.le_iff_toNat_le] at hc
  have hnine : '9'.val.toNat = 57 := rfl
  have hascii : c.toNat < 128 := by
    change c.val.toNat < 128
    omega
  have halpha : c.isAlpha = false := by
    rw [Bool.eq_false_iff]
    intro hranges
    change (decide ('A'.val ≤ c.val ∧ c.val ≤ 'Z'.val) ||
      decide ('a'.val ≤ c.val) && decide (c.val ≤ 'z'.val)) = true at hranges
    simp only [Bool.or_eq_true, Bool.and_eq_true, decide_eq_true_eq,
      UInt32.le_iff_toNat_le] at hranges
    have hletters : 'A'.val.toNat = 65 ∧ 'a'.val.toNat = 97 := ⟨rfl, rfl⟩
    omega
  rw [startsWord, Text.isAlphabetic, halpha, decide_eq_true hascii, hunderscore]
  rfl

theorem piece_of_startsWord (hc : startsWord c = true) (cs : List Char) :
    piece c cs = .ok ⟨some .word, c :: cs.takeWhile continuesWord⟩ := by
  have hdigit : ¬ c.isDigit = true := by
    intro hdigit
    rw [startsWord_eq_false_of_isDigit hdigit] at hc
    exact Bool.false_ne_true hc
  rw [piece_of_class hc rfl, if_neg hdigit, if_pos hc]

end classes

section separators

variable {c d : Char} {cs t : List Char} {x : Piece}

/-- The rest of a text literal ends with its closing quote, whatever stands behind it. -/
theorem stringTail_of_isQuoted (h : IsQuoted t) (rest : List Char) :
    stringTail (t ++ rest) = some t := by
  induction h with
  | close => rfl
  | @escape cs c _ ih =>
    have htail : stringTail ('\\' :: c :: (cs ++ rest)) =
        (stringTail (cs ++ rest)).map fun t => '\\' :: c :: t := rfl
    rw [List.cons_append, List.cons_append, htail, ih, Option.map_some]
  | @plain c cs hquote hslash _ ih =>
    have htail : stringTail (c :: (cs ++ rest)) = (stringTail (cs ++ rest)).map (c :: ·) := by
      rw [stringTail]
      · exact fun hc => hquote hc
      · exact fun hc _ => hslash hc
      · exact fun _ _ hc _ => hslash hc
    rw [List.cons_append, htail, ih, Option.map_some]

theorem characterTail_of_ne (hslash : c ≠ '\\') (hline : c ≠ '\n') (rest : List Char) :
    characterTail (c :: '\'' :: rest) = some [c, '\''] := by
  rw [characterTail]
  · rw [if_neg]
    simp only [Bool.or_eq_true, beq_iff_eq, not_or]
    exact ⟨hslash, hline⟩
  · exact fun _ hc _ => hslash hc

theorem characterTail_escaped (c : Char) (rest : List Char) :
    characterTail ('\\' :: c :: '\'' :: rest) = some ['\\', c, '\''] := rfl

/-- A run of characters ends in front of one that does not belong to it. -/
theorem takeWhile_append_cons {p : Char → Bool} (hd : p d = false) (cs rest : List Char) :
    (cs ++ d :: rest).takeWhile p = cs.takeWhile p := by
  have hnil : (d :: rest).takeWhile p = [] := List.takeWhile_cons_of_neg (by rw [hd]; decide)
  rw [List.takeWhile_append, hnil, List.append_nil]
  split
  · rename_i hall
    exact ((List.takeWhile_prefix p).eq_of_length hall).symm
  · rfl

theorem dropWhile_append_cons {p : Char → Bool} (hd : p d = false) (cs rest : List Char) :
    (cs ++ d :: rest).dropWhile p = cs.dropWhile p ++ d :: rest := by
  have hkeep : (d :: rest).dropWhile p = d :: rest := List.dropWhile_cons_of_neg (by rw [hd]; decide)
  rw [List.dropWhile_append, hkeep]
  split
  · rename_i hnil
    rw [List.isEmpty_iff.mp hnil, List.nil_append]
  · rfl

/-- A number does not go on behind a character that is neither a digit nor a point. -/
theorem numberTail_append_cons (hd : d.isDigit = false) (hpoint : d ≠ '.') (cs rest : List Char) :
    numberTail (cs ++ d :: rest) = numberTail cs := by
  rw [numberTail, numberTail, takeWhile_append_cons hd, dropWhile_append_cons hd]
  congr 1
  -- Behind the digits there is nothing, a last character, or a point with a digit behind it.
  generalize cs.dropWhile Char.isDigit = behind
  rcases behind with _ | ⟨e, _ | ⟨e', more⟩⟩
  · simp [hpoint]
  · by_cases he : e = '.'
    · simp [he, hd]
    · simp [he]
  · by_cases he : e = '.'
    · simp [he, takeWhile_append_cons hd]
    · simp [he]

theorem numberTail_of_isDigit (hcs : ∀ e ∈ cs, e.isDigit = true) : numberTail cs = cs := by
  have hnil : cs.dropWhile Char.isDigit = [] := List.dropWhile_eq_nil_iff.mpr hcs
  rw [numberTail, List.takeWhile_eq_self_iff.mpr hcs, hnil]
  exact List.append_nil cs

theorem numberTail_of_point (hcs : ∀ e ∈ cs, e.isDigit = true) (hd : d.isDigit = true)
    (ht : ∀ e ∈ t, e.isDigit = true) : numberTail (cs ++ '.' :: d :: t) = cs ++ '.' :: d :: t := by
  have hwhole : (cs ++ '.' :: d :: t).takeWhile Char.isDigit = cs := by
    rw [takeWhile_append_cons rfl, List.takeWhile_eq_self_iff.mpr hcs]
  have hbehind : (cs ++ '.' :: d :: t).dropWhile Char.isDigit = '.' :: d :: t := by
    rw [dropWhile_append_cons rfl, List.dropWhile_eq_nil_iff.mpr hcs, List.nil_append]
  rw [numberTail, hwhole, hbehind]
  simp only [hd, if_true, List.takeWhile_eq_self_iff.mpr ht]

/-- The character ends the piece in front of it: a line feed ends all of them, and a space all but
comments. -/
def Separates (d : Char) (x : Piece) : Prop :=
  d = '\n' ∨ d = ' ' ∧ x.kind ≠ none

/-- What is cut from a text is also cut from it if the text goes on behind a separator. -/
theorem piece_append_cons (h : piece c cs = .ok x) (hd : Separates d x) (rest : List Char) :
    piece c (cs ++ d :: rest) = .ok x := by
  have hword : continuesWord d = false := by rcases hd with rfl | ⟨rfl, -⟩ <;> rfl
  have hdigit : d.isDigit = false := by rcases hd with rfl | ⟨rfl, -⟩ <;> rfl
  have hpoint : d ≠ '.' := by rcases hd with rfl | ⟨rfl, -⟩ <;> decide
  obtain ⟨behind, htext, hpiece⟩ := isPiece_of_piece h
  cases hpiece with
  | blank hc =>
    obtain ⟨rfl, -⟩ := List.cons.inj htext
    exact piece_of_blank hc _
  | comment =>
    obtain ⟨rfl, -⟩ := List.cons.inj htext
    -- Only a line feed ends a comment.
    obtain rfl : d = '\n' := hd.resolve_right fun hspace => hspace.2 rfl
    rw [piece_hash, takeWhile_append_cons rfl, ← piece_hash, h]
  | mark hc =>
    obtain ⟨rfl, -⟩ := List.cons.inj htext
    exact piece_of_mark hc _
  | string hquoted =>
    simp only [List.cons_append, List.cons.injEq] at htext
    obtain ⟨rfl, rfl⟩ := htext
    rw [List.append_assoc]
    exact piece_quote (stringTail_of_isQuoted hquoted _)
  | character hslash hline =>
    simp only [List.cons_append, List.nil_append, List.cons.injEq] at htext
    obtain ⟨rfl, rfl⟩ := htext
    exact piece_apostrophe (characterTail_of_ne hslash hline _)
  | escaped =>
    simp only [List.cons_append, List.nil_append, List.cons.injEq] at htext
    obtain ⟨rfl, rfl⟩ := htext
    exact piece_apostrophe (characterTail_escaped _ _)
  | name hc hcs =>
    simp only [List.cons_append, List.cons.injEq] at htext
    obtain ⟨rfl, rfl⟩ := htext
    rw [List.cons_append, piece_dollar hc, ← List.cons_append, takeWhile_append_cons hword,
      ← piece_dollar hc, h]
  | number hc | decimal hc =>
    obtain ⟨rfl, -⟩ := List.cons.inj htext
    rw [piece_of_isDigit hc, numberTail_append_cons hdigit hpoint, ← piece_of_isDigit hc, h]
  | word hc =>
    obtain ⟨rfl, -⟩ := List.cons.inj htext
    rw [piece_of_startsWord hc, takeWhile_append_cons hword, ← piece_of_startsWord hc, h]
  | operator hc =>
    obtain ⟨rfl, -⟩ := List.cons.inj htext
    exact piece_of_operator hc _

/-- A token is cut from its own text. -/
theorem piece_of_isPiece {kind : Token.Kind} {rest : List Char}
    (h : IsPiece ⟨some kind, c :: t⟩ rest) : piece c t = .ok ⟨some kind, c :: t⟩ := by
  cases h with
  | mark hc => exact piece_of_mark hc _
  | string hquoted =>
    have htail := stringTail_of_isQuoted hquoted []
    rw [List.append_nil] at htail
    exact piece_quote htail
  | character hslash hline => exact piece_apostrophe (characterTail_of_ne hslash hline _)
  | escaped => exact piece_apostrophe (characterTail_escaped _ _)
  | name hc hcs =>
    rw [piece_dollar hc, List.takeWhile_eq_self_iff.mpr]
    exact List.forall_mem_cons.mpr ⟨continuesWord_of_startsWord hc, hcs⟩
  | number hc hcs =>
    rw [piece_of_isDigit hc, numberTail_of_isDigit hcs]
  | decimal hc hcs hd hds =>
    rw [piece_of_isDigit hc, numberTail_of_point hcs hd hds]
  | word hc hcs =>
    rw [piece_of_startsWord hc, List.takeWhile_eq_self_iff.mpr hcs]
  | operator hc => exact piece_of_operator hc _

end separators

section scanning

def Piece.token? (x : Piece) (p : Position) : Option Token :=
  x.kind.map fun kind => .ofText kind (String.ofList x.text) p

/-- A text whose first character stands at a place is scanned piece by piece, to its end or to the
first character at which no piece can be cut. -/
inductive Scans : Position → List Char → Except LexicalError (List Token) → Prop
  | done {p} : Scans p [] (.ok [])
  | fault {p c cs fault} (h : piece c cs = .error fault) : Scans p (c :: cs) (.error ⟨fault, p⟩)
  | cut {p c cs x rest r} (h : piece c cs = .ok x) (htext : c :: cs = x.text ++ rest)
      (hrest : Scans (x.text.foldl Position.after p) rest r) :
      Scans p (c :: cs) (r.map ((x.token? p).toList ++ ·))

variable {c : Char} {cs rest : List Char} {x : Piece} {n : Nat} {p : Position}
  {r : Except LexicalError (List Token)}

/-- The tokens behind a piece follow the token that the piece becomes. -/
theorem tokensFrom_cons (h : piece c cs = .ok x) (htext : c :: cs = x.text ++ rest) :
    tokensFrom (n + 1) p (c :: cs) =
      (tokensFrom n (x.text.foldl Position.after p) rest).map ((x.token? p).toList ++ ·) := by
  rw [tokensFrom, h]
  simp only [bind, Except.bind]
  rw [htext, List.drop_left]
  cases tokensFrom n (x.text.foldl Position.after p) rest with
  | error e => rfl
  | ok ts =>
    obtain ⟨kind, text⟩ := x
    cases kind <;> rfl

theorem length_lt_of_piece (h : piece c cs = .ok x) (htext : c :: cs = x.text ++ rest) :
    rest.length < (c :: cs).length := by
  obtain ⟨_, -, hpiece⟩ := isPiece_of_piece h
  have hpos : 0 < x.text.length := List.length_pos_iff.mpr (ne_nil_of_isPiece hpiece)
  rw [htext, List.length_append]
  omega

/-- As many steps as there are characters are enough. -/
theorem Scans.tokensFrom_eq (h : Scans p cs r) (hn : cs.length ≤ n) : tokensFrom n p cs = r := by
  induction h generalizing n with
  | done => cases n <;> rfl
  | fault h =>
    cases n with
    | zero => exact absurd hn (Nat.not_succ_le_zero _)
    | succ n => rw [tokensFrom, h]
  | cut h htext _ ih =>
    cases n with
    | zero => exact absurd hn (Nat.not_succ_le_zero _)
    | succ n =>
      have hshorter := Nat.lt_of_lt_of_le (length_lt_of_piece h htext) hn
      rw [tokensFrom_cons h htext, ih (Nat.le_of_lt_succ hshorter)]

theorem scans_tokensFrom (hn : cs.length ≤ n) : Scans p cs (tokensFrom n p cs) := by
  induction n generalizing p cs with
  | zero =>
    cases List.eq_nil_of_length_eq_zero (Nat.le_zero.mp hn)
    exact .done
  | succ n ih =>
    cases cs with
    | nil => exact .done
    | cons c cs =>
      cases hpiece : piece c cs with
      | error fault =>
        rw [tokensFrom, hpiece]
        exact .fault hpiece
      | ok x =>
        obtain ⟨rest, htext, -⟩ := isPiece_of_piece hpiece
        rw [tokensFrom_cons hpiece htext]
        have hshorter := Nat.lt_of_lt_of_le (length_lt_of_piece hpiece htext) hn
        exact .cut hpiece htext (ih (Nat.le_of_lt_succ hshorter))

/-- Tokenizing is scanning from the first line and column. -/
theorem tokenize_eq_iff {source name : String} :
    tokenize source name = r ↔ Scans ⟨1, 1, name⟩ source.toList r := by
  constructor
  · rintro rfl
    exact scans_tokensFrom (Nat.le_refl _)
  · exact fun h => h.tokensFrom_eq (Nat.le_refl _)

theorem Scans.blank (hc : c ∈ [' ', '\r', '\t', '\n']) (h : Scans (p.after c) cs r) :
    Scans p (c :: cs) r := by
  have hscans := Scans.cut (piece_of_blank hc cs) rfl h
  cases r <;> exact hscans

/-- A token in front of a separator, or at the end of the text, is scanned whole. -/
theorem Scans.token {kind : Token.Kind} {text behind : List Char} {us : List Token}
    (h : IsPiece ⟨some kind, text⟩ behind) (hend : ∀ d ∈ rest.head?, d = '\n' ∨ d = ' ')
    (hrest : Scans (text.foldl Position.after p) rest (.ok us)) :
    Scans p (text ++ rest) (.ok (.ofText kind (String.ofList text) p :: us)) := by
  obtain ⟨c, t, rfl⟩ := List.exists_cons_of_ne_nil (ne_nil_of_isPiece h)
  have hpiece : piece c (t ++ rest) = .ok ⟨some kind, c :: t⟩ := by
    cases rest with
    | nil =>
      rw [List.append_nil]
      exact piece_of_isPiece h
    | cons d rest =>
      have hd : Separates d ⟨some kind, c :: t⟩ := (hend d rfl).imp_right fun hspace =>
        ⟨hspace, Option.some_ne_none kind⟩
      exact piece_append_cons (piece_of_isPiece h) hd rest
  exact .cut hpiece rfl hrest

end scanning

end Lexer

end Prose
