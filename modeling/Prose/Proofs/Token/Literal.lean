import Prose.Token.Value

namespace Prose.Text

def escaped : List Char → List Char
  | [] => []
  | c :: cs =>
    if c = '\n' then '\\' :: 'n' :: escaped cs
    else if c = '\\' ∨ c = '"' ∨ c = '\'' then '\\' :: c :: escaped cs
    else c :: escaped cs

theorem unescape_backslash (c : Char) (cs : List Char) :
    unescape ('\\' :: c :: cs) =
      match unescapeChar? c with
      | some d => (unescape cs).map (d :: ·)
      | none => .error (.unknownEscape c) := rfl

theorem unescape_plain {c : Char} (h : c ≠ '\\') (cs : List Char) :
    unescape (c :: cs) = (unescape cs).map (c :: ·) := by
  rw [unescape]
  · exact fun hc _ => h hc
  · exact fun _ _ hc _ => h hc

/-- Escaping is undone by reading. -/
theorem unescape_escaped (cs : List Char) : unescape (escaped cs) = .ok cs := by
  induction cs with
  | nil => rfl
  | cons c cs ih =>
    rw [escaped]
    split
    · rename_i hc
      rw [unescape_backslash, ih, hc]
      rfl
    · split
      · rename_i hc
        rw [unescape_backslash, ih]
        rcases hc with rfl | rfl | rfl <;> rfl
      · rename_i hc
        rw [unescape_plain (fun h => hc (.inl h)), ih]
        rfl

theorem withoutQuotes?_quoted {q : Char} (hq : q.utf8Size = 1) (cs : List Char) :
    withoutQuotes? (q :: (cs ++ [q])) = some cs := by
  simp [withoutQuotes?, hq]

end Prose.Text

namespace Prose.Token

def quotedLiteral (kind : Kind) (q : Char) (cs : List Char) : Token :=
  ⟨kind, String.ofList (q :: (Text.escaped cs ++ [q])), .unknown, .unknown⟩

theorem unescaped_quotedLiteral (kind : Kind) {q : Char} (hq : q.utf8Size = 1) (cs : List Char) :
    (quotedLiteral kind q cs).unescaped = .ok (String.ofList cs) := by
  rw [unescaped, quotedLiteral, String.toList_ofList, Text.withoutQuotes?_quoted hq]
  simp only [Text.unescape_escaped]
  rfl

theorem characterValue_quotedLiteral (kind : Kind) {q : Char} (hq : q.utf8Size = 1) (c : Char) :
    (quotedLiteral kind q [c]).characterValue = .ok (.character c) := by
  rw [characterValue, unescaped_quotedLiteral kind hq]
  simp [bind, Except.bind]

end Prose.Token

namespace Prose.Shape

/-- A number begins with a digit or a sign. -/
theorem isNumber_eq_false {c : Char} (hdigit : Text.isDecimalDigit c = false) (hpoint : c ≠ '.')
    (hsign : c ≠ '-') (cs : List Char) : isNumber (c :: cs) = false := by
  have hfirst (ds : List Char) : isDigits (c :: ds) = false := by simp [isDigits, hdigit]
  have hunsigned : isNumber (c :: cs) = isUnsigned (c :: cs) := by
    rw [isNumber]
    exact fun _ h => hsign (List.cons.inj h).1
  rw [hunsigned, isUnsigned]
  split
  · exact hfirst cs
  · rw [List.takeWhile_cons, if_pos (bne_iff_ne.mpr hpoint), hfirst, Bool.false_and]

/-- The shape of a well-formed name. -/
theorem ofText_of_isIdentifier {n : String} (h : isIdentifier n.toList = true) :
    ofText n = .identifier := by
  obtain ⟨cs, hcs⟩ : ∃ cs, n.toList = '$' :: cs := by
    match hn : n.toList with
    | [] => simp [hn, isIdentifier] at h
    | c :: cs =>
      by_cases hc : c = '$'
      · exact ⟨cs, by rw [hc]⟩
      · rw [hn, isIdentifier] at h
        · cases h
        · exact fun _ _ he => hc (List.cons.inj he).1
  rw [ofText, if_neg, if_neg, if_neg, if_pos h]
  · have hcharacter : isCharacter ('$' :: cs) = false := rfl
    rw [hcs, hcharacter]
    exact Bool.false_ne_true
  · have hstring : isString ('$' :: cs) = false := rfl
    rw [hcs, hstring]
    exact Bool.false_ne_true
  · rw [hcs, isNumber_eq_false (by decide) (by decide) (by decide)]
    exact Bool.false_ne_true

end Prose.Shape
