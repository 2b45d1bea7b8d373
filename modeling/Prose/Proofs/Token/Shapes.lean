import Prose.Proofs.Token.Literal
import Prose.Proofs.Token.Pieces
import Prose.Token.Shape

namespace Prose

section folding

variable {q : Char}

theorem quote_cases (hq : q ∈ ['$', '"', '\'']) : q = '$' ∨ q = '"' ∨ q = '\'' := by
  simpa using hq

/-- What begins with no white space begins so when it is trimmed. -/
theorem Text.trim_cons (hq : isBlank q = false) (cs : List Char) : ∃ ds, trim (q :: cs) = q :: ds := by
  have hkeep : (q :: cs).dropWhile isBlank = q :: cs := by
    rw [List.dropWhile_cons, hq]
    rfl
  obtain ⟨ds, hds⟩ : ∃ ds, (cs.reverse ++ [q]).dropWhile isBlank = ds ++ [q] := by
    rw [List.dropWhile_append]
    split
    · exact ⟨[], by rw [List.dropWhile_cons, hq]; rfl⟩
    · exact ⟨_, rfl⟩
  rw [trim, hkeep, List.reverse_cons, hds, List.reverse_append]
  exact ⟨ds.reverse, rfl⟩

/-- A quote or a dollar sign stays in front when a text is folded. -/
theorem Text.foldChars_cons (hq : q ∈ ['$', '"', '\'']) (cs : List Char) :
    ∃ ds, foldChars (q :: cs) = q :: ds := by
  obtain ⟨hblank, hfold⟩ : isBlank q = false ∧ (lowercase q).flatMap plain = [q] := by
    rcases quote_cases hq with rfl | rfl | rfl <;> decide
  obtain ⟨ds, hds⟩ := trim_cons hblank cs
  refine ⟨(ds.flatMap lowercase).flatMap plain, ?_⟩
  rw [foldChars, hds, List.flatMap_cons, List.flatMap_append, hfold, List.singleton_append]

theorem List.lookup_eq_none_of_head {α : Type} {table : List (String × α)} {word : String}
    (hword : word.toList.head? = some q) (h : ∀ e ∈ table, e.1.toList.head? ≠ some q) :
    table.lookup word = none := by
  rw [List.lookup_eq_none_iff]
  intro e he
  rw [bne_iff_ne]
  rintro rfl
  exact h e he hword

/-- No word begins with a quote or a dollar sign. -/
theorem Keyword.ofText_of_quote (hq : q ∈ ['$', '"', '\'']) (cs : List Char) :
    ofText (String.ofList (q :: cs)) = .unknown := by
  obtain ⟨hcardinals, hordinals, hvocabulary⟩ :
      (∀ e ∈ Number.cardinals, e.1.toList.head? ≠ some q) ∧
        (∀ e ∈ Number.ordinals, e.1.toList.head? ≠ some q) ∧
        ∀ e ∈ vocabulary, e.1.toList.head? ≠ some q := by
    rcases quote_cases hq with rfl | rfl | rfl <;> decide +kernel
  obtain ⟨ds, hds⟩ := Text.foldChars_cons hq cs
  have hhead : (Text.fold (String.ofList (q :: cs))).toList.head? = some q := by
    rw [Text.fold, String.toList_ofList, String.toList_ofList, hds, List.head?_cons]
  have hcardinal : Number.cardinal? (Text.fold (String.ofList (q :: cs))) = none :=
    List.lookup_eq_none_of_head hhead hcardinals
  have hordinal : Number.ordinal? (Text.fold (String.ofList (q :: cs))) = none :=
    List.lookup_eq_none_of_head hhead hordinals
  rw [ofText, ofFolded, hcardinal, hordinal, List.lookup_eq_none_of_head hhead hvocabulary]
  rfl

end folding

def Token.escapesLineEnd : List Char → Bool
  | [] => false
  | '\\' :: c :: cs => c == '\n' || escapesLineEnd cs
  | _ :: cs => escapesLineEnd cs

theorem Token.escapesLineEnd_cons {c : Char} (h : c ≠ '\\') (cs : List Char) :
    escapesLineEnd (c :: cs) = escapesLineEnd cs := by
  rw [escapesLineEnd]
  exact fun _ _ hc _ => h hc

namespace Token.Kind

def shape? : Kind → Option Shape
  | identifier => some .identifier
  | number => some .number
  | string => some .string
  | character => some .character
  | _ => none

/-- A name with a character beyond ASCII, a literal with an escaped line end, and a quote between
quotes. -/
def isMisshapen (text : List Char) : Kind → Bool
  | identifier => text.any fun c => !decide (c.toNat < 128)
  | string => escapesLineEnd text
  | character => text == ['\'', '\'', '\''] || escapesLineEnd text
  | _ => false

end Token.Kind

namespace Shape

variable {c q : Char} {cs : List Char}

/-- Behind a quote or a dollar sign there is a text, a character, a name or nothing with a shape. -/
theorem ofText_of_quote (hq : q ∈ ['$', '"', '\'']) (cs : List Char) :
    ofText (String.ofList (q :: cs)) =
      if isString (q :: cs) then .string
      else if isCharacter (q :: cs) then .character
      else if isIdentifier (q :: cs) then .identifier
      else .other := by
  obtain ⟨hdigit, hpoint, hsign⟩ : Text.isDecimalDigit q = false ∧ q ≠ '.' ∧ q ≠ '-' := by
    rcases quote_cases hq with rfl | rfl | rfl <;> decide
  rw [ofText, String.toList_ofList, isNumber_eq_false hdigit hpoint hsign, Keyword.ofText_of_quote hq]
  rfl

theorem closesString_of_isQuoted (h : Lexer.IsQuoted cs) :
    closesString cs = !Token.escapesLineEnd cs := by
  induction h with
  | close => rfl
  | escape c _ ih =>
    rw [closesString, Token.escapesLineEnd, ih, Bool.not_or]
    rfl
  | @plain c cs hquote hslash h ih =>
    have hcloses : closesString (c :: cs) = (c != '"' && c != '\\' && closesString cs) := by
      rw [closesString]
      · exact fun hc _ => hquote hc
      · exact fun _ _ hc _ => hslash hc
    rw [hcloses, Token.escapesLineEnd_cons hslash, ih, bne_iff_ne.mpr hquote,
      bne_iff_ne.mpr hslash, Bool.true_and, Bool.true_and]

section ascii

theorem lt_of_isAlpha (h : c.isAlpha = true) : c.toNat < 128 := by
  have hranges : (decide ('A'.val ≤ c.val ∧ c.val ≤ 'Z'.val) ||
      decide ('a'.val ≤ c.val) && decide (c.val ≤ 'z'.val)) = true := h
  simp only [Bool.or_eq_true, Bool.and_eq_true, decide_eq_true_eq, UInt32.le_iff_toNat_le] at hranges
  have hz : 'Z'.val.toNat = 90 ∧ 'z'.val.toNat = 122 := ⟨rfl, rfl⟩
  change c.val.toNat < 128
  omega

theorem lt_of_isDigit (h : c.isDigit = true) : c.toNat < 128 := by
  simp only [Char.isDigit, Bool.and_eq_true, decide_eq_true_eq, UInt32.le_iff_toNat_le] at h
  have hnine : '9'.val.toNat = 57 := rfl
  change c.val.toNat < 128
  omega

theorem lt_of_startsName (h : startsName c = true) : c.toNat < 128 := by
  rw [startsName, Bool.or_eq_true] at h
  obtain h | h := h
  · exact lt_of_isAlpha h
  · rw [eq_of_beq h]
    decide

/-- Of the letters that begin a name, the shape of a name has the ASCII ones. -/
theorem startsName_of_startsWord (h : Lexer.startsWord c = true) :
    startsName c = decide (c.toNat < 128) := by
  by_cases hc : c.toNat < 128
  · rw [Lexer.startsWord, Text.isAlphabetic, decide_eq_true hc, Bool.not_true, Bool.false_and,
      Bool.or_false] at h
    rw [startsName, h, decide_eq_true hc]
  · rw [decide_eq_false hc, Bool.eq_false_iff]
    exact fun hname => hc (lt_of_startsName hname)

theorem continuesName_of_continuesWord (h : Lexer.continuesWord c = true) :
    (startsName c || c.isDigit) = decide (c.toNat < 128) := by
  by_cases hc : c.toNat < 128
  · rw [Lexer.continuesWord, Text.isAlphabetic, Text.isNumeric, decide_eq_true hc, Bool.not_true,
      Bool.false_and, Bool.false_and, Bool.or_false, Bool.or_false, Bool.or_right_comm] at h
    rw [startsName, h, decide_eq_true hc]
  · rw [decide_eq_false hc, Bool.eq_false_iff, ne_eq, Bool.or_eq_true]
    rintro (hname | hdigit)
    · exact hc (lt_of_startsName hname)
    · exact hc (lt_of_isDigit hdigit)

/-- A name has the shape of one if it has ASCII characters only. -/
theorem isIdentifier_of_continuesWord (hc : Lexer.startsWord c = true)
    (hcs : ∀ d ∈ cs, Lexer.continuesWord d = true) :
    isIdentifier ('$' :: c :: cs) = !Token.Kind.isMisshapen ('$' :: c :: cs) .identifier := by
  have hascii : (cs.all fun d => startsName d || d.isDigit) =
      cs.all fun d => decide (d.toNat < 128) := by
    rw [Bool.eq_iff_iff, List.all_eq_true, List.all_eq_true]
    refine forall_congr' fun d => forall_congr' fun hd => ?_
    rw [continuesName_of_continuesWord (hcs d hd)]
  rw [isIdentifier, startsName_of_startsWord hc, hascii, Token.Kind.isMisshapen,
    List.not_any_eq_all_not]
  simp only [Bool.not_not, List.all_cons]
  rfl

end ascii

section digits

theorem isDigits_of_isDigit (hne : cs ≠ []) (h : ∀ d ∈ cs, d.isDigit = true) :
    isDigits cs = true := by
  have hdecimal : ∀ d ∈ cs, Text.isDecimalDigit d = true := by
    intro d hd
    rw [Text.isDecimalDigit, h d hd, Bool.true_or]
  rw [isDigits, List.all_eq_true.mpr hdecimal, List.isEmpty_eq_false_iff.mpr hne]
  rfl

theorem ne_point_of_isDigit (h : ∀ d ∈ cs, d.isDigit = true) : ∀ d ∈ cs, (d != '.') = true := by
  intro d hd
  rw [bne_iff_ne]
  rintro rfl
  cases h '.' hd

/-- A number is cut without a sign. -/
theorem isNumber_of_isDigit (hc : c.isDigit = true) (cs : List Char) :
    isNumber (c :: cs) = isUnsigned (c :: cs) := by
  rw [isNumber]
  intro ds h
  rw [(List.cons.inj h).1] at hc
  cases hc

theorem ofText_of_isUnsigned (hc : c.isDigit = true) (h : isUnsigned (c :: cs) = true) :
    ofText (String.ofList (c :: cs)) = .number := by
  rw [ofText, String.toList_ofList, isNumber_of_isDigit hc, h]
  rfl

theorem isUnsigned_of_digits (hne : cs ≠ []) (h : ∀ d ∈ cs, d.isDigit = true) :
    isUnsigned cs = true := by
  have hpoint : cs.dropWhile (· != '.') = [] := by
    rw [← List.append_nil cs, List.dropWhile_append_of_pos (ne_point_of_isDigit h)]
    rfl
  rw [isUnsigned, hpoint]
  exact isDigits_of_isDigit hne h

theorem isUnsigned_of_decimal {ds : List Char} (hcs : cs ≠ []) (h : ∀ d ∈ cs, d.isDigit = true)
    (hds : ds ≠ []) (h' : ∀ d ∈ ds, d.isDigit = true) : isUnsigned (cs ++ '.' :: ds) = true := by
  have hpoint := ne_point_of_isDigit h
  have hbehind : (cs ++ '.' :: ds).dropWhile (· != '.') = '.' :: ds :=
    List.dropWhile_append_of_pos hpoint
  have hbefore : (cs ++ '.' :: ds).takeWhile (· != '.') = cs := by
    rw [List.takeWhile_append_of_pos hpoint]
    exact List.append_nil cs
  rw [isUnsigned, hbehind, hbefore, isDigits_of_isDigit hcs h]
  exact isDigits_of_isDigit hds h'

end digits

/-- A character between quotes, other than a backslash, is a quote or has the shape. -/
theorem isCharacter_of_ne (hc : c ≠ '\\') : isCharacter ['\'', c, '\''] = (c != '\'') := by
  rw [isCharacter, bne_iff_ne.mpr hc, Bool.and_true]

theorem ofText_character (hc : c ≠ '\\') :
    ofText (String.ofList ['\'', c, '\'']) =
      if Token.Kind.isMisshapen ['\'', c, '\''] .character then .other else .character := by
  have hescape : Token.escapesLineEnd ['\'', c, '\''] = false := by
    rw [Token.escapesLineEnd_cons (by decide), Token.escapesLineEnd_cons hc]
    rfl
  rw [ofText_of_quote (by decide), isCharacter_of_ne hc, Token.Kind.isMisshapen, hescape]
  by_cases hquote : c = '\''
  · subst hquote
    rfl
  · have hother : (['\'', c, '\''] == ['\'', '\'', '\'']) = false := by simpa using hquote
    rw [bne_iff_ne.mpr hquote, hother]
    rfl

theorem ofText_escaped :
    ofText (String.ofList ['\'', '\\', c, '\'']) =
      if Token.Kind.isMisshapen ['\'', '\\', c, '\''] .character then .other
      else .character := by
  have hescape : Token.escapesLineEnd ['\'', '\\', c, '\''] = (c == '\n') := by
    rw [Token.escapesLineEnd_cons (by decide), Token.escapesLineEnd]
    exact Bool.or_false _
  rw [ofText_of_quote (by decide), Token.Kind.isMisshapen, hescape]
  by_cases hline : c = '\n'
  · subst hline
    rfl
  · have hcharacter : isCharacter ['\'', '\\', c, '\''] = true := by
      rw [isCharacter, bne_iff_ne.mpr hline]
      rfl
    rw [hcharacter, beq_eq_false_iff_ne.mpr hline]
    rfl

/-- What is cut as a name or a literal has the shape of its kind, or none if it is misshapen. -/
theorem ofText_of_isPiece {kind : Token.Kind} {shape : Shape} {text rest : List Char}
    (h : Lexer.IsPiece ⟨some kind, text⟩ rest) (hshape : kind.shape? = some shape) :
    ofText (String.ofList text) = if kind.isMisshapen text then .other else shape := by
  -- By the ways to cut a piece: marks, words and operators have no shape of their own.
  cases h with
  | mark => cases hshape
  | word => cases hshape
  | operator => cases hshape
  | @string cs _ hquoted =>
    cases hshape
    have hstring : isString ('"' :: cs) = !Token.escapesLineEnd ('"' :: cs) :=
      closesString_of_isQuoted hquoted
    rw [ofText_of_quote (by decide), hstring, Token.Kind.isMisshapen]
    cases Token.escapesLineEnd ('"' :: cs) <;> rfl
  | character hslash _ =>
    cases hshape
    exact ofText_character hslash
  | escaped =>
    cases hshape
    exact ofText_escaped
  | @name c cs _ hc hcs =>
    cases hshape
    rw [ofText_of_quote (by decide), isIdentifier_of_continuesWord hc hcs]
    cases Token.Kind.isMisshapen ('$' :: c :: cs) .identifier <;> rfl
  | @number c cs _ hc hcs =>
    cases hshape
    exact ofText_of_isUnsigned hc
      (isUnsigned_of_digits (List.cons_ne_nil _ _) (List.forall_mem_cons.mpr ⟨hc, hcs⟩))
  | @decimal c cs d ds _ hc hcs hd hds =>
    cases hshape
    refine ofText_of_isUnsigned hc ?_
    rw [← List.cons_append]
    exact isUnsigned_of_decimal (List.cons_ne_nil _ _) (List.forall_mem_cons.mpr ⟨hc, hcs⟩)
      (List.cons_ne_nil _ _) (List.forall_mem_cons.mpr ⟨hd, hds⟩)

theorem ofText_of_cuts {p : Position} {cs : List Char} {ts : List Token} (h : Lexer.Cuts p cs ts) :
    ∀ t ∈ ts, ∀ shape, t.kind.shape? = some shape →
      ofText t.text = if t.kind.isMisshapen t.text.toList then .other else shape := by
  induction h with
  | nil => exact fun t ht => by cases ht
  | gap _ _ ih => exact ih
  | token hpiece _ ih =>
    refine List.forall_mem_cons.mpr ⟨fun shape hshape => ?_, ih⟩
    simpa only [Token.ofText, String.toList_ofList] using ofText_of_isPiece hpiece hshape

/-- Each name or literal of a source text has the shape of its kind, unless it is misshapen; then
it has none. -/
theorem ofText_of_tokenize {source name : String} {ts : List Token} {t : Token} {shape : Shape}
    (h : tokenize source name = .ok ts) (ht : t ∈ ts) (hshape : t.kind.shape? = some shape) :
    ofText t.text = if t.kind.isMisshapen t.text.toList then .other else shape :=
  ofText_of_cuts (Lexer.cuts_of_tokenize h) t ht shape hshape

def escapedTexts : List Token :=
  [.ofText .identifier "$a1" ⟨1, 1, "t"⟩, .ofText .string "\"\\\"\"" ⟨1, 5, "t"⟩,
    .ofText .string "\"\\\n\"" ⟨1, 10, "t"⟩]

/-- Only the last of them is misshapen. -/
theorem ofText_of_tokenize_escapedTexts :
    tokenize "$a1 \"\\\"\" \"\\\n\"" "t" = .ok escapedTexts ∧
      escapedTexts.map (fun t => ofText t.text) = [.identifier, .string, .other] := by
  have htokens : tokenize "$a1 \"\\\"\" \"\\\n\"" "t" = .ok escapedTexts :=
    eq_ok_of_toOption (by decide +kernel)
  have hname := ofText_of_tokenize htokens (List.mem_cons_self ..) rfl
  have hquote := ofText_of_tokenize htokens (.tail _ (List.mem_cons_self ..)) rfl
  have hline := ofText_of_tokenize htokens (.tail _ (.tail _ (List.mem_cons_self ..))) rfl
  refine ⟨htokens, ?_⟩
  rw [escapedTexts, List.map_cons, List.map_cons, List.map_cons, hname, hquote, hline]
  decide +kernel

def accentedName : Token :=
  .ofText .identifier "$é" ⟨1, 1, "t"⟩

/-- It is cut as a name and has not the shape of one. -/
theorem ofText_accentedName_ne :
    tokenize "$é" "t" = .ok [accentedName] ∧ accentedName.kind.shape? = some .identifier ∧
      ofText accentedName.text ≠ .identifier := by
  have htokens : tokenize "$é" "t" = .ok [accentedName] := eq_ok_of_toOption (by decide +kernel)
  exact ⟨htokens, rfl, by decide +kernel⟩

end Shape

end Prose
