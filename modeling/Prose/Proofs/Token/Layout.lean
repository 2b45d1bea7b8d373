import Prose.Proofs.Token.Pieces

/-! The layout of a source text: its tokens stand in it one behind the other, with nothing but white
space and comments between them, and each token knows the line and the column of its first
character. -/
namespace Prose

namespace Position

/-- The place behind a text from the beginning of a source: one line more than it has line ends, and
one column more than it has characters behind the last of them. -/
def behind (name : String) (before : List Char) : Position :=
  ⟨before.count '\n' + 1, (before.reverse.takeWhile (· != '\n')).length + 1, name⟩

def Precedes (p q : Position) : Prop :=
  p.line < q.line ∨ p.line = q.line ∧ p.column < q.column

variable {name : String} {p q r : Position}

theorem behind_append_singleton (name : String) (before : List Char) (c : Char) :
    behind name (before ++ [c]) = (behind name before).after c := by
  rw [behind, behind, after, List.count_append, List.reverse_append, List.reverse_singleton,
    List.singleton_append]
  split
  · rename_i hc
    subst hc
    rfl
  · rename_i hc
    have hcount : [c].count '\n' = 0 := List.count_eq_zero.mpr (by simpa using Ne.symm hc)
    have hline : (c :: before.reverse).takeWhile (· != '\n') =
        c :: before.reverse.takeWhile (· != '\n') :=
      List.takeWhile_cons_of_pos (bne_iff_ne.mpr hc)
    rw [hcount, hline]
    rfl

/-- Going on character by character comes to the place behind the whole. -/
theorem foldl_after_behind (name : String) (before text : List Char) :
    text.foldl after (behind name before) = behind name (before ++ text) := by
  induction text generalizing before with
  | nil => rw [List.append_nil, List.foldl_nil]
  | cons c text ih =>
    rw [List.foldl_cons, ← behind_append_singleton, ih, List.append_assoc, List.singleton_append]

theorem Precedes.trans (h : p.Precedes q) (h' : q.Precedes r) : p.Precedes r := by
  unfold Precedes at *
  omega

theorem precedes_after (p : Position) (c : Char) : p.Precedes (p.after c) := by
  unfold Precedes after
  split
  · exact .inl (Nat.lt_succ_self _)
  · exact .inr ⟨rfl, Nat.lt_succ_self _⟩

/-- What stands behind more text stands at a later place. -/
theorem behind_precedes_behind (name : String) (before : List Char) {text : List Char}
    (h : text ≠ []) : (behind name before).Precedes (behind name (before ++ text)) := by
  induction text generalizing before with
  | nil => exact absurd rfl h
  | cons c text ih =>
    have hstep : (behind name before).Precedes (behind name (before ++ [c])) := by
      rw [behind_append_singleton]
      exact precedes_after _ c
    cases text with
    | nil => exact hstep
    | cons d text =>
      have hrest := ih (before ++ [c]) (List.cons_ne_nil d text)
      rw [List.append_assoc, List.singleton_append] at hrest
      exact hstep.trans hrest

end Position

namespace Lexer

/-- What stands between tokens, in front of `rest`: white space, and comments that go on to the end
of their line. -/
inductive IsGap : List Char → List Char → Prop
  | nil {rest} : IsGap [] rest
  | blank {c gap rest} (hc : c ∈ [' ', '\r', '\t', '\n']) (h : IsGap gap rest) :
      IsGap (c :: gap) rest
  | comment {cs gap rest} (hcs : '\n' ∉ cs) (hend : ∀ c ∈ (gap ++ rest).head?, c = '\n')
      (h : IsGap gap rest) : IsGap ('#' :: (cs ++ gap)) rest

/-- Behind the text `before`, a text consists of gaps and of these tokens in their order, and each
token has the place of its first character. -/
inductive IsLaidOut (name : String) : List Char → List Char → List Token → Prop
  | done {before gap} (h : IsGap gap []) : IsLaidOut name before gap []
  | token {before gap t rest ts} (hgap : IsGap gap (t.text.toList ++ rest))
      (hne : t.text.toList ≠ []) (hplace : t.position = .behind name (before ++ gap))
      (h : IsLaidOut name (before ++ gap ++ t.text.toList) rest ts) :
      IsLaidOut name before (gap ++ t.text.toList ++ rest) (t :: ts)

variable {name : String} {before gap rest : List Char} {ts : List Token}

theorem isGap_of_isPiece {tail : List Char} (h : IsPiece ⟨none, gap⟩ (tail ++ rest))
    (htail : IsGap tail rest) : IsGap (gap ++ tail) rest := by
  cases h with
  | blank hc => exact .blank hc htail
  | comment hcs hend => exact .comment hcs hend htail

/-- One more piece of white space or comment in front makes the first gap longer. -/
theorem IsLaidOut.prepend (h : IsLaidOut name (before ++ gap) rest ts)
    (hgap : IsPiece ⟨none, gap⟩ rest) : IsLaidOut name before (gap ++ rest) ts := by
  cases h with
  | done htail =>
    apply done
    rw [← List.append_nil rest] at hgap
    exact isGap_of_isPiece hgap htail
  | token htail hne hplace h =>
    rw [List.append_assoc before] at hplace h
    rw [List.append_assoc] at hgap
    rw [← List.append_assoc, ← List.append_assoc]
    exact .token (isGap_of_isPiece hgap htail) hne hplace h

/-- The pieces of a text lay it out. -/
theorem isLaidOut_of_cuts {p : Position} {cs : List Char} (h : Cuts p cs ts)
    (hp : p = .behind name before) : IsLaidOut name before cs ts := by
  induction h generalizing before with
  | nil => exact .done .nil
  | gap hpiece _ ih =>
    refine (ih ?_).prepend hpiece
    rw [hp, Position.foldl_after_behind]
  | @token p kind text rest ts hpiece _ ih =>
    have htext : (Token.ofText kind (String.ofList text) p).text.toList = text :=
      String.toList_ofList
    have hrest : IsLaidOut name (before ++ [] ++ text) rest ts := by
      apply ih
      rw [hp, List.append_nil, Position.foldl_after_behind]
    have hplace : p = .behind name (before ++ []) := by rw [hp, List.append_nil]
    have hne : (Token.ofText kind (String.ofList text) p).text.toList ≠ [] := by
      rw [htext]
      exact ne_nil_of_isPiece hpiece
    rw [← htext] at hrest
    have htoken := IsLaidOut.token .nil hne hplace hrest
    rwa [htext, List.nil_append] at htoken

/-- Each token of a laid-out text stands somewhere in it. -/
theorem IsLaidOut.exists_position {cs : List Char} (h : IsLaidOut name before cs ts) :
    ∀ t ∈ ts, ∃ more, t.position = .behind name (before ++ more) := by
  induction h with
  | done => exact fun t ht => by cases ht
  | @token before gap t rest ts _ _ hplace _ ih =>
    refine List.forall_mem_cons.mpr ⟨⟨gap, hplace⟩, fun u hu => ?_⟩
    obtain ⟨more, hmore⟩ := ih u hu
    refine ⟨gap ++ (t.text.toList ++ more), ?_⟩
    rw [hmore, List.append_assoc, List.append_assoc]

/-- Tokens of a laid-out text stand at later and later places. -/
theorem IsLaidOut.pairwise {cs : List Char} (h : IsLaidOut name before cs ts) :
    ts.Pairwise fun t u => t.position.Precedes u.position := by
  induction h with
  | done => exact .nil
  | @token before gap t rest ts _ hne hplace hrest ih =>
    refine .cons (fun u hu => ?_) ih
    obtain ⟨more, hmore⟩ := hrest.exists_position u hu
    rw [hplace, hmore, List.append_assoc]
    exact Position.behind_precedes_behind name _ fun h => hne (List.append_eq_nil_iff.mp h).1

end Lexer

/-- A source text that becomes tokens is laid out by them, and their places increase. -/
theorem isLaidOut_of_tokenize {source name : String} {ts : List Token}
    (h : tokenize source name = .ok ts) :
    Lexer.IsLaidOut name [] source.toList ts ∧
      ts.Pairwise fun t u => t.position.Precedes u.position := by
  have hlaid : Lexer.IsLaidOut name [] source.toList ts :=
    Lexer.isLaidOut_of_cuts (Lexer.cuts_of_tokenize h) rfl
  exact ⟨hlaid, hlaid.pairwise⟩

def brokenLines : String :=
  "print \"# a\n \\\" b\" # \"c\n\t'\\\n' 1.5x ."

/-- The line ends in the literals count. -/
theorem isLaidOut_of_tokenize_brokenLines :
    ∃ ts, tokenize brokenLines "t" = .ok ts ∧
      ts.map (fun t => (t.position.line, t.position.column)) =
        [(1, 1), (1, 7), (3, 2), (4, 3), (4, 6), (4, 8)] ∧
      Lexer.IsLaidOut "t" [] brokenLines.toList ts ∧
      ts.Pairwise fun t u => t.position.Precedes u.position := by
  have hplaces : (tokenize brokenLines "t").toOption.map
      (·.map fun t => (t.position.line, t.position.column)) =
        some [(1, 1), (1, 7), (3, 2), (4, 3), (4, 6), (4, 8)] := by
    decide +kernel
  obtain ⟨ts, htokens, hplaces⟩ := Option.map_eq_some_iff.mp hplaces
  have htokens := eq_ok_of_toOption htokens
  exact ⟨ts, htokens, hplaces, isLaidOut_of_tokenize htokens⟩

end Prose
