import Prose.Proofs.Expr.Alone
import Prose.Proofs.Token.Literal
import Prose.Proofs.Token.Pieces
import Prose.Proofs.Token.Scan

namespace Prose

namespace Text

/-- The second characters of the escape pairs of a text, whose backslashes are paired from the
left. -/
def escapedChars : List Char → List Char
  | [] => []
  | '\\' :: c :: cs => c :: escapedChars cs
  | _ :: cs => escapedChars cs

def IsUnknownEscape (c : Char) : Prop :=
  c ∉ ['n', 't', 'r', '0', '"', '\'', '\\']

instance (c : Char) : Decidable (IsUnknownEscape c) :=
  inferInstanceAs (Decidable (c ∉ ['n', 't', 'r', '0', '"', '\'', '\\']))

inductive IsPaired : List Char → Prop
  | nil : IsPaired []
  | escape {cs} (c : Char) (h : IsPaired cs) : IsPaired ('\\' :: c :: cs)
  | plain {c cs} (hslash : c ≠ '\\') (h : IsPaired cs) : IsPaired (c :: cs)

theorem unescapeChar?_eq_none_iff {c : Char} : unescapeChar? c = none ↔ IsUnknownEscape c := by
  rw [IsUnknownEscape]
  fun_cases unescapeChar? c <;> simp_all

section escapes

variable {c : Char} {cs : List Char}

theorem escapedChars_plain (h : c ≠ '\\') (cs : List Char) :
    escapedChars (c :: cs) = escapedChars cs := by
  rw [escapedChars]
  exact fun _ _ hc _ => h hc

/-- A closing quote takes part in no pair. -/
theorem IsPaired.escapedChars_append (h : IsPaired cs) {q : Char} (hq : q ≠ '\\') :
    escapedChars (cs ++ [q]) = escapedChars cs := by
  induction h with
  | nil => exact escapedChars_plain hq []
  | escape c _ ih => exact congrArg (c :: ·) ih
  | plain hslash _ ih =>
    rw [List.cons_append, escapedChars_plain hslash, escapedChars_plain hslash, ih]

/-- The characters between the quotes are read, unless there is an unknown escape among them. -/
theorem IsPaired.unescape (h : IsPaired cs) :
    (∃ ds, unescape cs = .ok ds ∧ ∀ c ∈ escapedChars cs, ¬ IsUnknownEscape c) ∨
      ∃ c ∈ escapedChars cs, IsUnknownEscape c ∧ unescape cs = .error (.unknownEscape c) := by
  induction h with
  | nil => exact .inl ⟨[], rfl, fun _ hc => absurd hc List.not_mem_nil⟩
  | @escape cs c _ ih =>
    rw [unescape_backslash, escapedChars]
    cases hc : unescapeChar? c with
    -- The first unknown escape is the fault; only behind a known one is it looked for further on.
    | none =>
      exact .inr ⟨c, List.mem_cons_self .., unescapeChar?_eq_none_iff.mp hc, rfl⟩
    | some d =>
      have hknown : ¬ IsUnknownEscape c := by
        rw [← unescapeChar?_eq_none_iff, hc]
        exact Option.some_ne_none d
      obtain ⟨ds, hds, hall⟩ | ⟨e, he, hunknown, herror⟩ := ih
      · exact .inl ⟨d :: ds, by rw [hds]; rfl, List.forall_mem_cons.mpr ⟨hknown, hall⟩⟩
      · exact .inr ⟨e, .tail _ he, hunknown, by rw [herror]; rfl⟩
  | @plain c cs hslash _ ih =>
    rw [unescape_plain hslash, escapedChars_plain hslash]
    obtain ⟨ds, hds, hall⟩ | ⟨e, he, hunknown, herror⟩ := ih
    · exact .inl ⟨c :: ds, by rw [hds]; rfl, hall⟩
    · exact .inr ⟨e, he, hunknown, by rw [herror]; rfl⟩

end escapes

end Text

namespace Lexer

/-- What stands in front of the closing quote has its backslashes in pairs. -/
theorem IsQuoted.exists_isPaired {cs : List Char} (h : IsQuoted cs) :
    ∃ inner, cs = inner ++ ['"'] ∧ Text.IsPaired inner := by
  induction h with
  | close => exact ⟨[], rfl, .nil⟩
  | escape c _ ih =>
    obtain ⟨inner, rfl, hinner⟩ := ih
    exact ⟨'\\' :: c :: inner, rfl, .escape c hinner⟩
  | @plain c cs _ hslash _ ih =>
    obtain ⟨inner, rfl, hinner⟩ := ih
    exact ⟨c :: inner, rfl, .plain hslash hinner⟩

end Lexer

namespace Token

inductive IsCutLiteral (t : Token) : Prop
  | string {cs : List Char} (hkind : t.kind = .string)
      (htext : t.text.toList = '"' :: (cs ++ ['"'])) (hpaired : Text.IsPaired cs)
  | character {c : Char} (hkind : t.kind = .character) (hslash : c ≠ '\\')
      (htext : t.text.toList = '\'' :: ([c] ++ ['\'']))
  | escaped {c : Char} (hkind : t.kind = .character)
      (htext : t.text.toList = '\'' :: (['\\', c] ++ ['\'']))

theorem isCutLiteral_of_isPiece {kind : Kind} {text rest : List Char} {p : Position}
    (h : Lexer.IsPiece ⟨some kind, text⟩ rest) (hkind : kind = .string ∨ kind = .character) :
    (Token.ofText kind (String.ofList text) p).IsCutLiteral := by
  cases h with
  | string hquoted =>
    obtain ⟨inner, rfl, hinner⟩ := hquoted.exists_isPaired
    exact .string rfl (String.toList_ofList ..) hinner
  | character hslash _ => exact .character rfl hslash (String.toList_ofList ..)
  | escaped => exact .escaped rfl (String.toList_ofList ..)
  | _ => rcases hkind with h | h <;> cases h

theorem isCutLiteral_of_cuts {p : Position} {cs : List Char} {ts : List Token}
    (h : Lexer.Cuts p cs ts) :
    ∀ t ∈ ts, t.kind = .string ∨ t.kind = .character → t.IsCutLiteral := by
  induction h with
  | nil => exact fun _ ht => absurd ht List.not_mem_nil
  | gap _ _ ih => exact ih
  | token hpiece _ ih =>
    exact List.forall_mem_cons.mpr ⟨fun hkind => isCutLiteral_of_isPiece hpiece hkind, ih⟩

variable {t : Token}

theorem unescaped_of_toList {q : Char} {cs : List Char} (hq : q.utf8Size = 1)
    (h : t.text.toList = q :: (cs ++ [q])) :
    t.unescaped = (Text.unescape cs).map String.ofList := by
  rw [unescaped, h, Text.withoutQuotes?_quoted hq]

theorem escapedChars_of_toList {q : Char} {cs : List Char} (hq : q ≠ '\\')
    (h : t.text.toList = q :: (cs ++ [q])) (hpaired : Text.IsPaired cs) :
    Text.escapedChars t.text.toList = Text.escapedChars cs := by
  rw [h, Text.escapedChars_plain hq, hpaired.escapedChars_append hq]

theorem characterValue_of_unescaped {c : Char} (h : t.unescaped = .ok (String.ofList [c])) :
    t.characterValue = .ok (.character c) := by
  rw [characterValue, h]
  simp [bind, Except.bind]

def quotedValue (t : Token) : Except LiteralFault Literal :=
  if t.kind = .character then t.characterValue else t.unescaped.map .text

/-- A value that a literal between quotes can have: a text, or the one character that stands
between single quotes itself or by its escape. -/
def CanDenote (t : Token) (v : Literal) : Prop :=
  (t.kind = .string ∧ ∃ s, v = .text s) ∨
    (t.kind = .character ∧ ∃ c, v = .character c ∧
      (t.text.toList = ['\'', c, '\''] ∨
        ∃ e, t.text.toList = ['\'', '\\', e, '\''] ∧ Text.unescapeChar? e = some c))

/-- A literal that the lexer cut has a value, unless there is an unknown escape in it; then such an
escape is the fault. -/
theorem IsCutLiteral.quotedValue_cases (h : t.IsCutLiteral) :
    (∃ v, t.quotedValue = .ok v ∧ t.CanDenote v ∧
        ∀ c ∈ Text.escapedChars t.text.toList, ¬ Text.IsUnknownEscape c) ∨
      ∃ c ∈ Text.escapedChars t.text.toList, Text.IsUnknownEscape c ∧
        t.quotedValue = .error (.unknownEscape c) := by
  rw [quotedValue]
  -- A text may have any number of escapes; a character literal is one character or one escape.
  cases h with
  | @string cs hkind htext hpaired =>
    have hne : t.kind ≠ .character := by
      rw [hkind]
      decide
    rw [if_neg hne, unescaped_of_toList rfl htext,
      escapedChars_of_toList (by decide) htext hpaired]
    obtain ⟨ds, hds, hall⟩ | ⟨c, hc, hunknown, herror⟩ := hpaired.unescape
    · exact .inl ⟨.text (String.ofList ds), by rw [hds]; rfl, .inl ⟨hkind, _, rfl⟩, hall⟩
    · exact .inr ⟨c, hc, hunknown, by rw [herror]; rfl⟩
  | @character c hkind hslash htext =>
    have hvalue : t.unescaped = .ok (String.ofList [c]) := by
      rw [unescaped_of_toList rfl htext, Text.unescape_plain hslash]
      rfl
    rw [if_pos hkind, characterValue_of_unescaped hvalue,
      escapedChars_of_toList (by decide) htext (.plain hslash .nil), Text.escapedChars_plain hslash]
    exact .inl ⟨.character c, rfl, .inr ⟨hkind, c, rfl, .inl htext⟩,
      fun _ hc => absurd hc List.not_mem_nil⟩
  | @escaped e hkind htext =>
    have hvalue := unescaped_of_toList rfl htext
    rw [Text.unescape_backslash] at hvalue
    rw [if_pos hkind, escapedChars_of_toList (by decide) htext (.escape e .nil), Text.escapedChars]
    cases he : Text.unescapeChar? e with
    | none =>
      rw [he] at hvalue
      exact .inr ⟨e, List.mem_cons_self .., Text.unescapeChar?_eq_none_iff.mp he, by
        rw [characterValue, hvalue]; rfl⟩
    | some c =>
      rw [he] at hvalue
      refine .inl ⟨.character c, characterValue_of_unescaped hvalue,
        .inr ⟨hkind, c, rfl, .inr ⟨e, htext, he⟩⟩, ?_⟩
      refine List.forall_mem_singleton.mpr fun hunknown => ?_
      rw [Text.unescapeChar?_eq_none_iff.mpr hunknown] at he
      cases he

end Token

/-- The form for texts takes the value of the literal, and its fault for the problem. -/
theorem alone_text {t : Token} (h : t.kind = .string ∨ t.kind = .character) (o : Options)
    (observers start : Nat) :
    Expr.Form.text.alone o observers ⟨start, [t]⟩ =
      match t.quotedValue with
      | .ok v => .ok (some (.literal t.position v))
      | .error fault => .error { cause := .literal fault, origin := "parse_text", tokens := [t] } := by
  rw [Token.quotedValue]
  rcases h with hkind | hkind
  all_goals
    simp only [Expr.Form.alone, Expr.Form.read, Expr.readText, Expr.readToken, hkind]
  · cases t.unescaped <;> rfl
  · cases t.characterValue <;> rfl

/-- A text or character that the lexer cut is read as a literal exactly if all of its escapes are
known: the only problem is an unknown escape, and a character literal has one character. -/
theorem alone_text_of_tokenize {source name : String} {ts : List Token} {t : Token}
    (h : tokenize source name = .ok ts) (ht : t ∈ ts)
    (hkind : t.kind = .string ∨ t.kind = .character) (o : Options) (observers start : Nat) :
    ((∃ p, Expr.Form.text.alone o observers ⟨start, [t]⟩ = .error p) ↔
        ∃ c ∈ Text.escapedChars t.text.toList, Text.IsUnknownEscape c) ∧
      (∀ p, Expr.Form.text.alone o observers ⟨start, [t]⟩ = .error p →
        ∃ c ∈ Text.escapedChars t.text.toList, Text.IsUnknownEscape c ∧
          p = { cause := .literal (.unknownEscape c), origin := "parse_text", tokens := [t] }) ∧
      ∀ r, Expr.Form.text.alone o observers ⟨start, [t]⟩ = .ok r →
        ∃ v, r = some (.literal t.position v) ∧ t.CanDenote v := by
  have hcut := Token.isCutLiteral_of_cuts (Lexer.cuts_of_tokenize h) t ht hkind
  rw [alone_text hkind]
  -- Either all escapes are known, or the first one that is not is the problem.
  obtain ⟨v, hv, hdenotes, hall⟩ | ⟨c, hc, hunknown, herror⟩ := hcut.quotedValue_cases
  · rw [hv]
    refine ⟨iff_of_false ?_ ?_, ?_, ?_⟩
    · rintro ⟨p, hp⟩
      cases hp
    · rintro ⟨c, hc, hunknown⟩
      exact hall c hc hunknown
    · intro p hp
      cases hp
    · intro r hr
      cases hr
      exact ⟨v, rfl, hdenotes⟩
  · rw [herror]
    refine ⟨iff_of_true ⟨_, rfl⟩ ⟨c, hc, hunknown⟩, ?_, ?_⟩
    · intro p hp
      cases hp
      exact ⟨c, hc, hunknown, rfl⟩
    · intro r hr
      cases hr

def oddEscape : Token :=
  .ofText .string "\"\\\\\\q\\\\\"" ⟨1, 1, "t"⟩

def quotedQuote : Token :=
  .ofText .character "\'\'\'" ⟨1, 10, "t"⟩

/-- The letter behind the third backslash is at fault, and the quote is one character. -/
theorem alone_text_of_tokenize_oddEscape :
    tokenize "\"\\\\\\q\\\\\" \'\'\'" "t" = .ok [oddEscape, quotedQuote] ∧
      (∃ p, Expr.Form.text.alone {} 0 ⟨0, [oddEscape]⟩ = .error p ∧
        p.cause = .literal (.unknownEscape 'q')) ∧
      ∃ v, Expr.Form.text.alone {} 0 ⟨1, [quotedQuote]⟩ =
          .ok (some (.literal ⟨1, 10, "t"⟩ v)) ∧ quotedQuote.CanDenote v := by
  have htokens : tokenize "\"\\\\\\q\\\\\" \'\'\'" "t" = .ok [oddEscape, quotedQuote] :=
    eq_ok_of_toOption (by decide +kernel)
  refine ⟨htokens, ?_, ?_⟩
  · obtain ⟨hiff, herror, -⟩ :=
      alone_text_of_tokenize htokens (List.mem_cons_self ..) (.inl rfl) {} 0 0
    have hchars : Text.escapedChars oddEscape.text.toList = ['\\', 'q', '\\'] := by decide +kernel
    rw [hchars] at hiff herror
    obtain ⟨p, hp⟩ := hiff.mpr ⟨'q', by decide, by decide⟩
    obtain ⟨c, hc, hunknown, rfl⟩ := herror p hp
    have hslash : ¬ Text.IsUnknownEscape '\\' := by decide
    have hother : ∀ d ∈ ['\\', 'q', '\\'], Text.IsUnknownEscape d → d = 'q' := by simp [hslash]
    exact ⟨_, hp, by rw [hother c hc hunknown]⟩
  · obtain ⟨-, -, hok⟩ :=
      alone_text_of_tokenize htokens (.tail _ (List.mem_cons_self ..)) (.inr rfl) {} 0 1
    obtain ⟨e, he⟩ : ∃ e, Expr.Form.text.alone {} 0 ⟨1, [quotedQuote]⟩ = .ok (some e) :=
      exists_eq_ok_some (by decide +kernel)
    obtain ⟨v, hv, hdenotes⟩ := hok _ he
    cases hv
    exact ⟨v, he, hdenotes⟩

/-! Texts as they can be written between quotes. The lexer, which looks for the closing quote, and the
reader, which resolves the escapes, take the same characters for escapes, so that every text has a
literal and is the value of each of its literals. -/

namespace Text

def escapes : List (Char × Char) :=
  [('"', '"'), ('\\', '\\'), ('\'', '\''), ('\n', 'n'), ('\t', 't'), ('\r', 'r'), ('\x00', '0')]

/-- The text can be written so between quotes. Quotes and backslashes have to be escaped; other
characters may be escaped, if there is an escape for them. -/
inductive Writes : List Char → List Char → Prop
  | nil : Writes [] []
  | plain {c s w} (hquote : c ≠ '"') (hslash : c ≠ '\\') (h : Writes s w) :
      Writes (c :: s) (c :: w)
  | escape {c e s w} (hescape : (c, e) ∈ escapes) (h : Writes s w) :
      Writes (c :: s) ('\\' :: e :: w)

variable {s w : List Char}

/-- Each text can be written. -/
theorem writes_escaped (s : List Char) : Writes s (escaped s) := by
  induction s with
  | nil => exact .nil
  | cons c s ih =>
    rw [escaped]
    split
    · rename_i hline
      rw [hline]
      exact .escape (by decide) ih
    · split
      · rename_i hmark
        refine .escape ?_ ih
        rcases hmark with rfl | rfl | rfl <;> decide
      · rename_i hmark
        rw [not_or, not_or] at hmark
        exact .plain hmark.2.1 hmark.1 ih

/-- The first quote without a backslash of its own is the closing one. -/
theorem Writes.isQuoted (h : Writes s w) : Lexer.IsQuoted (w ++ ['"']) := by
  induction h with
  | nil => exact .close
  | plain hquote hslash _ ih => exact .plain hquote hslash ih
  | escape _ _ ih => exact .escape _ ih

theorem unescapeChar?_of_mem_escapes {c e : Char} (h : (c, e) ∈ escapes) :
    unescapeChar? e = some c := by
  have hall : ∀ x ∈ escapes, unescapeChar? x.2 = some x.1 := by decide
  exact hall (c, e) h

theorem Writes.unescape (h : Writes s w) : unescape w = .ok s := by
  induction h with
  | nil => rfl
  | plain _ hslash _ ih =>
    rw [unescape_plain hslash, ih]
    rfl
  | escape hescape _ ih =>
    rw [unescape_backslash, unescapeChar?_of_mem_escapes hescape, ih]
    rfl

def inQuotes (w : String) : String :=
  "\"" ++ w ++ "\""

theorem toList_inQuotes (w : String) : (inQuotes w).toList = '"' :: (w.toList ++ ['"']) := by
  rw [inQuotes, String.toList_append, String.toList_append]
  rfl

end Text

variable {s w : String}

/-- The literal is one token. -/
theorem tokenize_inQuotes (h : Text.Writes s.toList w.toList) (name : String) :
    tokenize (Text.inQuotes w) name = .ok [.ofText .string (Text.inQuotes w) ⟨1, 1, name⟩] := by
  have hpiece : Lexer.IsPiece ⟨some .string, (Text.inQuotes w).toList⟩ [] := by
    rw [Text.toList_inQuotes]
    exact .string h.isQuoted
  have hscans := Lexer.Scans.token (p := ⟨1, 1, name⟩) hpiece (fun d hd => by cases hd) .done
  rw [List.append_nil, String.ofList_toList] at hscans
  exact Lexer.tokenize_eq_iff.mpr hscans

theorem unescaped_inQuotes (h : Text.Writes s.toList w.toList) (kind : Token.Kind) (p : Position) :
    (Token.ofText kind (Text.inQuotes w) p).unescaped = .ok s := by
  have hinner : Text.withoutQuotes? (Text.inQuotes w).toList = some w.toList := by
    rw [Text.toList_inQuotes, Text.withoutQuotes?_quoted rfl]
  rw [Token.unescaped, Token.ofText, hinner]
  simp only [h.unescape, Except.map, String.ofList_toList]

/-- Every text can be written as a literal, and however it is written between double quotes, the
source text is one token, of which the text is the value. -/
theorem alone_of_writes (s : String) :
    (∃ w : String, Text.Writes s.toList w.toList) ∧
      ∀ w : String, Text.Writes s.toList w.toList → ∀ name : String, ∃ t : Token,
        tokenize (Text.inQuotes w) name = .ok [t] ∧ t.kind = .string ∧
          ∀ (o : Options) (observers start : Nat),
            Expr.Form.text.alone o observers ⟨start, [t]⟩ =
              .ok (some (.literal t.position (.text s))) := by
  constructor
  · refine ⟨String.ofList (Text.escaped s.toList), ?_⟩
    rw [String.toList_ofList]
    exact Text.writes_escaped s.toList
  · intro w hwrites name
    refine ⟨_, tokenize_inQuotes hwrites name, rfl, ?_⟩
    intro o observers start
    have hvalue := unescaped_inQuotes hwrites .string ⟨1, 1, name⟩
    have hkind : (Token.ofText .string (Text.inQuotes w) ⟨1, 1, name⟩).kind = .string := rfl
    simp only [Expr.Form.alone, Expr.Form.read, Expr.readText, Expr.readToken, hkind,
      Expr.literalOr, hvalue]
    rfl

def slashedText : String :=
  "\\\\\"\né\x00"

def slashedLiteral : String :=
  "\\\\\\\\\\\"\né\\0"

theorem writes_slashedLiteral : Text.Writes slashedText.toList slashedLiteral.toList := by
  have hslash : ('\\', '\\') ∈ Text.escapes := by decide
  have hzero : Text.Writes ['\x00'] ['\\', '0'] := .escape (by decide) .nil
  have hletter : Text.Writes ['é', '\x00'] ['é', '\\', '0'] := .plain (by decide) (by decide) hzero
  exact .escape hslash (.escape hslash (.escape (by decide) (.plain (by decide) (by decide) hletter)))

/-- The first four backslashes are two pairs, and the fifth escapes the quote. -/
theorem alone_of_writes_slashedLiteral :
    Text.Writes slashedText.toList slashedLiteral.toList ∧
      ∃ t : Token, tokenize (Text.inQuotes slashedLiteral) "t" = .ok [t] ∧ t.kind = .string ∧
        Expr.Form.text.alone {} 0 ⟨0, [t]⟩ =
          .ok (some (.literal t.position (.text slashedText))) := by
  obtain ⟨t, htokens, hkind, halone⟩ :=
    (alone_of_writes slashedText).2 slashedLiteral writes_slashedLiteral "t"
  exact ⟨writes_slashedLiteral, t, htokens, hkind, halone {} 0 0⟩

end Prose
