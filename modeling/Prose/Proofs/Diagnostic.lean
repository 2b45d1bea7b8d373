import Prose.Proofs.Blame
import Prose.Proofs.Condense.Account
import Prose.Proofs.Text.Lines

namespace Prose

def LexicalFault.first : LexicalFault → Char
  | unterminatedString => '"'
  | unterminatedCharacter => '\''
  | unexpected c => c

/-- What a problem of a source text may point at: the first character of one of its tokens, or, if it
cannot be cut into tokens, that of the literal or symbol at which it cannot. -/
inductive Offends (source name : String) : Position → Char → Prop
  | token {ts t c} (h : tokenize source name = .ok ts) (ht : t ∈ ts)
      (hc : t.text.toList.head? = some c) : Offends source name t.position c
  | fault {e} (h : tokenize source name = .error e) : Offends source name e.position e.fault.first

namespace Lexer

/-- Behind `before`, the character `c` of the text `cs` stands at the place, and `c` ends no line. -/
def StandsAt (name : String) (before cs : List Char) (c : Char) (place : Position) : Prop :=
  ∃ more rest, cs = more ++ c :: rest ∧ place = .behind name (before ++ more) ∧
    c ≠ '\n' ∧ c ≠ '\r'

variable {name : String} {c : Char} {cs before text : List Char} {p place : Position}

theorem StandsAt.prepend (h : StandsAt name (before ++ text) cs c place) :
    StandsAt name before (text ++ cs) c place := by
  obtain ⟨more, rest, rfl, hplace, hc⟩ := h
  rw [List.append_assoc] at hplace
  exact ⟨text ++ more, rest, by rw [List.append_assoc], hplace, hc⟩

/-- A token does not begin with white space. -/
theorem exists_cons_of_isPiece {kind : Token.Kind} {rest : List Char}
    (h : IsPiece ⟨some kind, text⟩ rest) : ∃ c cs, text = c :: cs ∧ c ≠ '\n' ∧ c ≠ '\r' := by
  have hne {c : Char} {p : Char → Prop} (h : p c) (hfeed : ¬ p '\n') (hreturn : ¬ p '\r') :
      c ≠ '\n' ∧ c ≠ '\r' :=
    ⟨fun hc => hfeed (hc ▸ h), fun hc => hreturn (hc ▸ h)⟩
  cases h with
  | mark h | operator h => exact ⟨_, _, rfl, hne (p := (· ∈ _)) h (by decide) (by decide)⟩
  | string | character | escaped | name => exact ⟨_, _, rfl, by decide, by decide⟩
  | number h | decimal h =>
    exact ⟨_, _, rfl, hne (p := (Char.isDigit · = true)) h (by decide) (by decide)⟩
  | word h => exact ⟨_, _, rfl, hne (p := (startsWord · = true)) h (by decide) (by decide)⟩

/-- A fault names the character at which no piece can be cut, which is no white space. -/
theorem first_of_piece {fault : LexicalFault} (h : piece c cs = .error fault) :
    fault.first = c ∧ c ≠ '\n' ∧ c ≠ '\r' := by
  have hne : c ≠ '\n' ∧ c ≠ '\r' := by
    constructor <;> (rintro rfl; cases h)
  refine ⟨?_, hne⟩
  -- A fault comes of a quotation mark that is not closed, of a `$` without a name, or of a
  -- character with which nothing begins.
  unfold piece at h
  split at h
  · cases h
  split at h
  · cases h
  split at h
  · cases h
  split at h
  · rename_i hc
    split at h
    · cases h
    · cases h
      exact (eq_of_beq hc).symm
  split at h
  · rename_i hc
    split at h
    · cases h
    · cases h
      exact (eq_of_beq hc).symm
  split at h
  · split at h
    · split at h
      · cases h
      · cases h
        rfl
    · cases h
      rfl
  split at h
  · cases h
  split at h
  · cases h
  split at h
  · cases h
  · cases h
    rfl

/-- Each token has the place of its first character. -/
theorem standsAt_of_cuts {ts : List Token} (h : Cuts p cs ts) (hp : p = .behind name before) :
    ∀ t ∈ ts, ∃ c, t.text.toList.head? = some c ∧ StandsAt name before cs c t.position := by
  induction h generalizing before with
  | nil => exact List.forall_mem_nil _
  | gap _ _ ih =>
    intro t ht
    obtain ⟨c, hc, hstands⟩ := ih (by rw [hp, Position.foldl_after_behind]) t ht
    exact ⟨c, hc, hstands.prepend⟩
  | token hpiece _ ih =>
    refine List.forall_mem_cons.mpr ⟨?_, fun t ht => ?_⟩
    · obtain ⟨c, cs, rfl, hc⟩ := exists_cons_of_isPiece hpiece
      refine ⟨c, ?_, [], _, rfl, by rw [List.append_nil]; exact hp, hc⟩
      rw [Token.ofText, String.toList_ofList, List.head?_cons]
    · obtain ⟨c, hc, hstands⟩ := ih (by rw [hp, Position.foldl_after_behind]) t ht
      exact ⟨c, hc, hstands.prepend⟩

theorem standsAt_of_tokenize {source : String} {ts : List Token}
    (h : tokenize source name = .ok ts) :
    ∀ t ∈ ts, ∃ c, t.text.toList.head? = some c ∧ StandsAt name [] source.toList c t.position :=
  standsAt_of_cuts (cuts_of_tokenize h) rfl

/-- A lexical error has the place of the character at which no piece can be cut. -/
theorem standsAt_of_tokensFrom {n : Nat} {e : LexicalError} (hp : p = .behind name before)
    (h : tokensFrom n p cs = .error e) : StandsAt name before cs e.fault.first e.position := by
  induction n generalizing p cs before with
  | zero => cases h
  | succ n ih =>
    cases cs with
    | nil => cases h
    | cons c cs =>
      rw [tokensFrom] at h
      split at h
      · rename_i fault hfault
        cases h
        obtain ⟨hfirst, hne⟩ := first_of_piece hfault
        rw [hfirst]
        exact ⟨[], cs, rfl, by rw [List.append_nil]; exact hp, hne⟩
      · rename_i x hx
        obtain ⟨rest, htext, -⟩ := isPiece_of_piece hx
        rw [htext, List.drop_left] at h
        rw [htext]
        cases hrest : tokensFrom n (x.text.foldl Position.after p) rest with
        | error e' =>
          rw [hrest] at h
          cases h
          -- The fault stands behind the piece, whose characters are counted in front of it.
          refine (ih ?_ hrest).prepend
          rw [hp, Position.foldl_after_behind]
        | ok us =>
          rw [hrest] at h
          simp only [bind, Except.bind] at h
          split at h <;> cases h

end Lexer

/-- What a problem may point at is a character of the text, at the place that it has there. -/
theorem Offends.standsAt {source name : String} {place : Position} {c : Char}
    (h : Offends source name place c) : Lexer.StandsAt name [] source.toList c place := by
  cases h with
  | token h ht hc =>
    obtain ⟨d, hd, hstands⟩ := Lexer.standsAt_of_tokenize h _ ht
    cases Option.some.inj (hc.symm.trans hd)
    exact hstands
  | fault h => exact Lexer.standsAt_of_tokensFrom rfl h

namespace Condense

/-- Each condensed token has the place of a token that it was made from. -/
theorem exists_position_of_accounts {groups : List (List Token)} {us : List Token}
    (h : Accounts groups us) : ∀ u ∈ us, ∃ t ∈ groups.flatten, t.position = u.position := by
  induction h with
  | nil => exact List.forall_mem_nil _
  | @merged group groups u us hmerges _ ih =>
    rw [List.flatten_cons]
    refine List.forall_mem_cons.mpr ⟨?_, fun v hv => ?_⟩
    · cases hmerges <;> exact ⟨_, List.mem_append_left _ (List.mem_cons_self ..), rfl⟩
    · obtain ⟨t, ht, hplace⟩ := ih v hv
      exact ⟨t, List.mem_append_right _ ht, hplace⟩
  | @alone t groups us _ _ ih =>
    rw [List.flatten_cons]
    refine List.forall_mem_cons.mpr ⟨⟨t, List.mem_cons_self .., rfl⟩, fun v hv => ?_⟩
    obtain ⟨u, hu, hplace⟩ := ih v hv
    exact ⟨u, List.mem_append_right _ hu, hplace⟩

end Condense

namespace Parser

variable {p : Parser} {source name : String} {ts : List Token} {r : Parsed} {e : Problem}

/-- The tokens that problems point at have the places of tokens of the source text. -/
theorem exists_position_of_shown (h : tokenize source name = .ok ts) :
    ∀ u ∈ (shown ts).tokens, ∃ t ∈ ts, t.position = u.position := by
  rw [shown]
  cases hcondensed : condense ts with
  | error e => exact fun u hu => ⟨u, hu, rfl⟩
  | ok us =>
    obtain ⟨groups, rfl, haccounts⟩ := Condense.exists_accounts
      (Condense.becomes_of_groups (Nat.le_refl _) hcondensed)
      (Condense.raw_of_cuts (Lexer.cuts_of_tokenize h))
    exact Condense.exists_position_of_accounts haccounts

/-- Each problem of a source text has the place of what it may point at. -/
theorem offends_of_parseSource (hr : p.parseSource source = some r) (he : e ∈ r.errors) :
    ∃ place c, e.position? = some place ∧ Offends source p.options.sourceName place c := by
  unfold parseSource at hr
  split at hr
  · rename_i error herror
    cases hr
    rw [List.mem_singleton.mp he]
    exact ⟨error.position, _, rfl, .fault herror⟩
  · rename_i ts hts
    have hcites := cites_of_parse hr e he
    obtain ⟨u, hu⟩ := Option.isSome_iff_exists.mp (isSome_position?_of_cites hcites)
    obtain ⟨v, hv, rfl⟩ := Option.map_eq_some_iff.mp hu
    have hmem := hcites.2.subset (List.mem_of_mem_head? hv)
    obtain ⟨t, ht, hplace⟩ := exists_position_of_shown hts v hmem
    obtain ⟨c, hc, -⟩ := Lexer.standsAt_of_tokenize hts t ht
    rw [← hplace] at hu
    exact ⟨t.position, c, hu, .token hts ht hc⟩

end Parser

namespace Diagnostic

def shownRow (n : Nat) (line : List Char) : String :=
  Printer.lineNumber n ++ " | " ++ String.ofList line

def caretRow (column : Nat) : String :=
  "   | " ++ "".pushn ' ' (column - 1) ++ "^"

/-- How much wider the number of a line is than the two columns that the row of the caret has in its
place. -/
def excess (n : Nat) : Nat :=
  (Printer.lineNumber n).length - 2

section rows

variable {n column : Nat} {text : List Char} {c : Char}

theorem three_le_length_lineNumber (n : Nat) : 3 ≤ (Printer.lineNumber n).length := by
  rw [Printer.lineNumber, String.length_append, String.length_pushn, String.length_empty]
  omega

theorem getElem?_caretRow (h : 0 < column) : (caretRow column).toList[column + 4]? = some '^' := by
  have hfront : ("   | " ++ "".pushn ' ' (column - 1)).toList.length = column + 4 := by
    rw [String.length_toList, String.length_append, String.length_pushn]
    change 5 + (0 + (column - 1)) = column + 4
    omega
  rw [caretRow, String.toList_append, ← hfront, List.getElem?_append_right (Nat.le_refl _),
    Nat.sub_self]
  rfl

theorem getElem?_shownRow (h : 0 < column) (hc : text[column - 1]? = some c) :
    (shownRow n text).toList[column + 4 + excess n]? = some c := by
  have hwidth := three_le_length_lineNumber n
  have hfront : (Printer.lineNumber n ++ " | ").toList.length =
      (Printer.lineNumber n).length + 3 := by
    rw [String.length_toList, String.length_append]
    rfl
  have hindex : column + 4 + excess n =
      (Printer.lineNumber n ++ " | ").toList.length + (column - 1) := by
    rw [hfront, excess]
    omega
  rw [shownRow, String.toList_append, String.toList_ofList, hindex,
    List.getElem?_append_right (Nat.le_add_right ..), Nat.add_sub_cancel_left]
  exact hc

/-- The excerpt of a place that is there. -/
theorem excerpt_of_isLine {d : Printer} {place : Position}
    (hline : Text.IsLine d.source.toList place.line text) (hcolumn : 0 < place.column) :
    d.excerpt place =
      "  --> " ++ d.fileName ++ ":" ++ toString place.line ++ ":" ++ toString place.column ++ "\n" ++
        "   |\n" ++ shownRow place.line text ++ "\n" ++ caretRow place.column ++ "\n" := by
  have hcaret : "^\n" = "^" ++ "\n" := by decide
  unfold Printer.excerpt
  simp only [Nat.max_eq_left hcolumn, Text.getElem?_lines_of_isLine hline, Option.getD_some,
    shownRow, caretRow]
  rw [hcaret]
  simp only [← String.append_assoc]

end rows

/-- The diagnostic of a problem names a place, and shows the line of the source with its number. The
line has the character `c` in the column of the place, and `c` begins what the problem points at. The
caret does not stand below `c` but further left, by the columns that the number is too wide. -/
structure PointsAt (source name fileName : String) (e : Problem) (place : Position)
    (text : List Char) (c : Char) : Prop where
  position : e.position? = some place
  offends : Offends source name place c
  isLine : Text.IsLine source.toList place.line text
  column : text[place.column - 1]? = some c
  render : Printer.render ⟨fileName, source⟩ e =
    "error[" ++ e.code.text ++ "]: " ++ e.message ++ "\n" ++
      ("  --> " ++ fileName ++ ":" ++ toString place.line ++ ":" ++ toString place.column ++ "\n" ++
        "   |\n" ++ shownRow place.line text ++ "\n" ++ caretRow place.column ++ "\n") ++
      e.help.elim "" fun help => "help: " ++ help ++ "\n"
  caret : (caretRow place.column).toList[place.column + 4]? = some '^'
  shown : (shownRow place.line text).toList[place.column + 4 + excess place.line]? = some c

/-- Every problem of a source text has a place in it, and its diagnostic points from the left at the
first character of a token, or of the literal or symbol at which the text cannot be cut. -/
theorem pointsAt_of_parseSource (p : Parser) (source fileName : String) :
    ∀ r ∈ p.parseSource source, ∀ e ∈ r.errors, ∃ place line c,
      PointsAt source p.options.sourceName fileName e place line c := by
  intro r hr e he
  obtain ⟨place, c, hplace, hoffends⟩ := Parser.offends_of_parseSource hr he
  obtain ⟨before, rest, hsource, rfl, hfeed, hreturn⟩ := hoffends.standsAt
  rw [List.nil_append] at *
  obtain ⟨line, hline, hc⟩ :=
    Position.exists_isLine_behind hfeed hreturn p.options.sourceName before rest
  rw [← hsource] at hline
  have hcolumn : 0 < (Position.behind p.options.sourceName before).column := Nat.succ_pos _
  have hnumber : (Position.behind p.options.sourceName before).line ≠ 0 := Nat.succ_ne_zero _
  refine ⟨_, line, c, hplace, hoffends, hline, hc, ?_, getElem?_caretRow hcolumn,
    getElem?_shownRow hcolumn hc⟩
  rw [Printer.render, hplace]
  simp only
  rw [if_neg hnumber, excerpt_of_isLine hline hcolumn]
  cases e.help <;> rfl

def unfinishedText : String :=
  "print 1 .\r\n\n  print \"two ."

/-- There is one problem, and its diagnostic points from the left at the quote. -/
theorem pointsAt_of_parseSource_unfinishedText :
    ∃ r ∈ ({} : Parser).parseSource unfinishedText, r.errors.length = 1 ∧
      ∀ e ∈ r.errors, ∃ place line c,
        PointsAt unfinishedText "<input>" "main.carmen" e place line c := by
  have hparse : ∃ r ∈ ({} : Parser).parseSource unfinishedText, r.errors.length = 1 := by
    decide +kernel
  obtain ⟨r, hr, hlength⟩ := hparse
  exact ⟨r, hr, hlength, pointsAt_of_parseSource {} unfinishedText "main.carmen" r hr⟩

def unfinishedAssignment : String :=
  "print 1 .\nprint 2 .\nset $x equal to ."

/-- Above the caret there is the space in front of the line, with which no token begins. -/
theorem not_offends_above_caret :
    (∃ r ∈ ({} : Parser).parseSource unfinishedAssignment, ∃ e ∈ r.errors,
      Printer.render ⟨"main.carmen", unfinishedAssignment⟩ e =
        "error[C0002]: expected a value after `equal to` in `set $x equal to .`\n" ++
          "  --> main.carmen:3:1\n" ++ "   |\n" ++ "  3 | set $x equal to .\n" ++ "   | ^\n") ∧
    "   | ^".toList[5]? = some '^' ∧ "  3 | set $x equal to .".toList[5]? = some ' ' ∧
    ∀ place, ¬ Offends unfinishedAssignment "<input>" place ' ' := by
  have hparse : ∃ r ∈ ({} : Parser).parseSource unfinishedAssignment, ∃ e ∈ r.errors,
      Printer.render ⟨"main.carmen", unfinishedAssignment⟩ e =
        "error[C0002]: expected a value after `equal to` in `set $x equal to .`\n" ++
          "  --> main.carmen:3:1\n" ++ "   |\n" ++ "  3 | set $x equal to .\n" ++ "   | ^\n" := by
    decide +kernel
  have htokens : ∃ ts, (tokenize unfinishedAssignment "<input>").toOption = some ts ∧
      ∀ t ∈ ts, t.text.toList.head? ≠ some ' ' := by
    decide +kernel
  refine ⟨hparse, by decide, by decide, fun place h => ?_⟩
  obtain ⟨ts, hts, hheads⟩ := htokens
  have hts := eq_ok_of_toOption hts
  generalize hc : ' ' = c at h
  cases h with
  | token h ht hhead =>
    cases hts.symm.trans h
    exact hheads _ ht (hc ▸ hhead)
  | fault h => cases hts.symm.trans h

end Diagnostic

end Prose
