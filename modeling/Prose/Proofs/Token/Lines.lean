import Prose.Proofs.Text.Lines
import Prose.Proofs.Token.Scan

namespace Prose

def Position.lowered (n : Nat) (p : Position) : Position :=
  { p with line := p.line + n }

def Token.lowered (n : Nat) (t : Token) : Token :=
  { t with position := t.position.lowered n }

def LexicalError.lowered (n : Nat) (e : LexicalError) : LexicalError :=
  { e with position := e.position.lowered n }

namespace Position

variable {p : Position}

theorem after_lowered (n : Nat) (p : Position) (c : Char) :
    (p.lowered n).after c = (p.after c).lowered n := by
  rw [after, after]
  split
  · simp only [lowered, Nat.add_right_comm]
  · rfl

/-- The same characters lead from lowered places to lowered places. -/
theorem foldl_after_lowered (n : Nat) (p : Position) (text : List Char) :
    text.foldl after (p.lowered n) = (text.foldl after p).lowered n := by
  induction text generalizing p with
  | nil => rfl
  | cons c text ih => rw [List.foldl_cons, List.foldl_cons, after_lowered, ih]

/-- The line behind a text and a line feed begins as many lines further down as there are line feeds
up to there. -/
theorem after_foldl_after (name : String) (text : List Char) :
    (text.foldl after ⟨1, 1, name⟩).after '\n' =
      (⟨1, 1, name⟩ : Position).lowered (text.count '\n' + 1) := by
  calc (text.foldl after ⟨1, 1, name⟩).after '\n'
      = (behind name ([] ++ text)).after '\n' := by rw [← foldl_after_behind]; rfl
    _ = behind name (text ++ '\n' :: []) := (behind_append_singleton name text '\n').symm
    _ = ⟨text.count '\n' + 1 + 1, 1, name⟩ := behind_append_cons name text []
    _ = (⟨1, 1, name⟩ : Position).lowered (text.count '\n' + 1) := by
      rw [lowered, Nat.add_comm 1]

end Position

namespace Lexer

variable {n : Nat} {p : Position} {a b cs : List Char} {ts : List Token}
  {r : Except LexicalError (List Token)}

def lowered (n : Nat) : Except LexicalError (List Token) → Except LexicalError (List Token)
  | .ok ts => .ok (ts.map (Token.lowered n))
  | .error e => .error (e.lowered n)

theorem lowered_map (x : Piece) (p : Position) (r : Except LexicalError (List Token)) :
    lowered n (r.map ((x.token? p).toList ++ ·)) =
      (lowered n r).map ((x.token? (p.lowered n)).toList ++ ·) := by
  obtain ⟨kind, text⟩ := x
  cases r <;> cases kind <;> rfl

/-- Scanning looks at characters only, so it goes the same way on lines further down. -/
theorem Scans.lowered (h : Scans p cs r) : Scans (p.lowered n) cs (lowered n r) := by
  induction h with
  | done => exact .done
  | fault h => exact .fault h
  | cut h htext _ ih =>
    rw [lowered_map]
    rw [← Position.foldl_after_lowered] at ih
    exact .cut h htext ih

/-- Behind a text that is scanned to its end and a line feed, scanning begins anew. -/
theorem Scans.append_line (ha : Scans p a (.ok ts))
    (hb : Scans ((a.foldl Position.after p).after '\n') b r) :
    Scans p (a ++ '\n' :: b) (r.map (ts ++ ·)) := by
  generalize hs : Except.ok ts = s at ha
  induction ha generalizing ts with
  | done =>
    cases hs
    exact .cut (piece_of_blank (by decide) b) rfl hb
  | fault => cases hs
  | @cut p c cs x rest s h htext _ ih =>
    cases s with
    | error e => cases hs
    | ok us =>
      cases hs
      rw [htext, List.foldl_append] at hb
      have hrest := ih hb rfl
      -- The line feed ends the piece wherever the end of the text did.
      have hpiece := piece_append_cons h (.inl rfl) b
      have hwhole : c :: (cs ++ '\n' :: b) = x.text ++ (rest ++ '\n' :: b) := by
        rw [← List.cons_append, htext, List.append_assoc]
      have htokens : (r.map (us ++ ·)).map ((x.token? p).toList ++ ·) =
          r.map ((x.token? p).toList ++ us ++ ·) := by
        cases r with
        | error e => rfl
        | ok vs => simp only [Except.map, List.append_assoc]
      have hscans := Scans.cut hpiece hwhole hrest
      rw [htokens] at hscans
      exact hscans

end Lexer

/-- Behind a source text that becomes tokens and a line feed, a text becomes the tokens that it
becomes alone, or fails as it does alone, as many lines further down as there are line feeds in
front of it. -/
theorem tokenize_append_line {a name : String} {ts : List Token} (h : tokenize a name = .ok ts)
    (b : String) :
    tokenize (a ++ "\n" ++ b) name =
      match tokenize b name with
      | .ok us => .ok (ts ++ us.map (Token.lowered (a.toList.count '\n' + 1)))
      | .error e => .error (e.lowered (a.toList.count '\n' + 1)) := by
  have hchars : (a ++ "\n" ++ b).toList = a.toList ++ '\n' :: b.toList := by
    rw [String.toList_append, String.toList_append, List.append_assoc]
    rfl
  have hb : Lexer.Scans ⟨1, 1, name⟩ b.toList (tokenize b name) := Lexer.tokenize_eq_iff.mp rfl
  have hbelow := hb.lowered (n := a.toList.count '\n' + 1)
  rw [← Position.after_foldl_after] at hbelow
  have hwhole := (Lexer.tokenize_eq_iff.mp h).append_line hbelow
  rw [← hchars] at hwhole
  rw [Lexer.tokenize_eq_iff.mpr hwhole]
  cases tokenize b name <;> rfl

def pointedLines : String :=
  "\"a\\\"\n\" # \"c\n5."

def pointedTokens : List Token :=
  [.ofText .string "\"a\\\"\n\"" ⟨1, 1, "t"⟩, .ofText .number "5" ⟨3, 1, "t"⟩,
    .ofText .punctuation "." ⟨3, 2, "t"⟩]

/-- The digits of the next line are a number of their own, and a literal that is not finished there is
at fault in its own place. -/
theorem tokenize_append_line_pointedLines :
    tokenize pointedLines "t" = .ok pointedTokens ∧
      tokenize (pointedLines ++ "\n" ++ "25 'x'") "t" =
        .ok (pointedTokens ++
          [.ofText .number "25" ⟨4, 1, "t"⟩, .ofText .character "'x'" ⟨4, 4, "t"⟩]) ∧
      tokenize (pointedLines ++ "\n" ++ " \"b") "t" =
        .error ⟨.unterminatedString, ⟨4, 2, "t"⟩⟩ := by
  have htokens : tokenize pointedLines "t" = .ok pointedTokens := by decide +kernel
  have hnumber : tokenize "25 'x'" "t" =
      .ok [.ofText .number "25" ⟨1, 1, "t"⟩, .ofText .character "'x'" ⟨1, 4, "t"⟩] := by
    decide +kernel
  have hliteral : tokenize " \"b" "t" = .error ⟨.unterminatedString, ⟨1, 2, "t"⟩⟩ := by
    decide +kernel
  refine ⟨htokens, ?_, ?_⟩
  · rw [tokenize_append_line htokens, hnumber]
    rfl
  · rw [tokenize_append_line htokens, hliteral]
    rfl

end Prose
