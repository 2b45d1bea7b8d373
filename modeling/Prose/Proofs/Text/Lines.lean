import Mathlib.Data.List.TakeWhile
import Prose.Diagnostic
import Prose.Proofs.Token.Layout

namespace Prose

namespace Text

/-- Line `n` of a text, counted from one, is `line`: it goes on to a line feed, to a carriage return
in front of one, or to the end of the text, and neither of the two belongs to it. -/
inductive IsLine : List Char → Nat → List Char → Prop
  | feed {line rest} (h : '\n' ∉ line) (hreturn : line.getLast? ≠ some '\r') :
      IsLine (line ++ '\n' :: rest) 1 line
  | carriage {line rest} (h : '\n' ∉ line) : IsLine (line ++ '\r' :: '\n' :: rest) 1 line
  | last {line} (h : '\n' ∉ line) : IsLine line 1 line
  | next {first rest n line} (h : '\n' ∉ first) (hrest : IsLine rest n line) :
      IsLine (first ++ '\n' :: rest) (n + 1) line

variable {cs line first front : List Char} {n : Nat}

theorem IsLine.pos (h : IsLine cs n line) : 0 < n := by
  cases h with
  | feed | carriage | last => exact Nat.one_pos
  | next => exact Nat.succ_pos _

theorem lines_of_not_mem (h : '\n' ∉ line) : lines line = [line] := by
  rw [lines, List.splitOn_eq_singleton h]
  rfl

/-- The first line ends in front of the first line feed. -/
theorem lines_append_cons (h : '\n' ∉ first) (rest : List Char) :
    lines (first ++ '\n' :: rest) =
      (if first.getLast? = some '\r' then first.dropLast else first) :: lines rest := by
  have hsplit : (first ++ '\n' :: rest).splitOn '\n' = first :: rest.splitOn '\n' := by
    have hfeed : ('\n' == '\n') = true := beq_self_eq_true '\n'
    have hpieces := List.splitOnP_append_cons (p := (· == '\n')) first rest hfeed
    rw [List.splitOn, hpieces, ← List.splitOn, List.splitOn_eq_singleton h]
    rfl
  have hne : rest.splitOn '\n' ≠ [] := List.splitOn_ne_nil '\n' rest
  simp only [lines, hsplit, List.dropLast_cons_of_ne_nil hne, List.getLast?_cons_of_ne_nil hne,
    List.map_cons, List.cons_append]

theorem getElem?_lines_of_isLine (h : IsLine cs n line) : (lines cs)[n - 1]? = some line := by
  induction h with
  | feed h hreturn =>
    rw [lines_append_cons h, if_neg hreturn]
    rfl
  | @carriage line rest h =>
    have hfirst : '\n' ∉ line ++ ['\r'] := by
      rw [List.mem_append, List.mem_singleton]
      exact not_or.mpr ⟨h, by decide⟩
    have hlast : (line ++ ['\r']).getLast? = some '\r' := List.getLast?_concat ..
    rw [← List.singleton_append (x := '\r'), ← List.append_assoc, lines_append_cons hfirst,
      if_pos hlast, List.dropLast_concat]
    rfl
  | last h =>
    rw [lines_of_not_mem h]
    rfl
  | next h hrest ih =>
    rw [lines_append_cons h, Nat.add_sub_cancel]
    rw [← Nat.sub_add_cancel hrest.pos, List.getElem?_cons_succ]
    exact ih

/-- The first line begins with what stands in front of the first line feed, if no carriage return
is the last of it. -/
theorem exists_isLine_one (h : '\n' ∉ front) (hreturn : front.getLast? ≠ some '\r')
    (rest : List Char) : ∃ more, IsLine (front ++ rest) 1 (front ++ more) := by
  by_cases hfeed : '\n' ∈ rest
  · obtain ⟨more, behind, rfl, hmore⟩ := List.eq_append_cons_of_mem hfeed
    have hline : '\n' ∉ front ++ more := List.not_mem_append h hmore
    rw [← List.append_assoc]
    rcases List.eq_nil_or_concat more with rfl | ⟨inner, c, rfl⟩
    · refine ⟨[], .feed hline ?_⟩
      rw [List.append_nil]
      exact hreturn
    · by_cases hc : c = '\r'
      · subst hc
        refine ⟨inner, ?_⟩
        rw [List.concat_eq_append, ← List.append_assoc, List.append_assoc,
          List.singleton_append]
        refine .carriage fun hmem => hline ?_
        rw [List.concat_eq_append, ← List.append_assoc]
        exact List.mem_append_left _ hmem
      · refine ⟨inner.concat c, .feed hline ?_⟩
        rw [List.concat_eq_append, ← List.append_assoc, List.getLast?_concat]
        exact fun hlast => hc (Option.some.inj hlast)
  · exact ⟨rest, .last (List.not_mem_append h hfeed)⟩

end Text

namespace Position

variable {name : String} {before : List Char} {c : Char}

/-- A place on the first line counts the characters in front of it. -/
theorem behind_of_not_mem (h : '\n' ∉ before) :
    behind name before = ⟨1, before.length + 1, name⟩ := by
  have hall : ∀ d ∈ before.reverse, (d != '\n') = true := by
    intro d hd
    refine bne_iff_ne.mpr ?_
    rintro rfl
    exact h (List.mem_reverse.mp hd)
  rw [behind, List.count_eq_zero.mpr h, List.takeWhile_eq_self_iff.mpr hall, List.length_reverse]

/-- Behind a line feed the columns are counted anew. -/
theorem behind_append_cons (name : String) (first before : List Char) :
    behind name (first ++ '\n' :: before) =
      ⟨first.count '\n' + 1 + (behind name before).line, (behind name before).column, name⟩ := by
  have hline : (first ++ '\n' :: before).reverse.takeWhile (· != '\n') =
      before.reverse.takeWhile (· != '\n') := by
    rw [List.reverse_append, List.reverse_cons, List.append_assoc, List.takeWhile_append]
    split
    · rename_i hall
      rw [List.singleton_append, List.takeWhile_cons_of_neg (by decide), List.append_nil,
        (List.takeWhile_prefix _).eq_of_length hall]
    · rfl
  have hcount : (first ++ '\n' :: before).count '\n' =
      first.count '\n' + (before.count '\n' + 1) := by
    rw [List.count_append, List.count_cons_self]
  rw [behind, behind, hline, hcount]
  simp only [mk.injEq, and_true]
  omega

/-- The character at a place, unless it ends a line, is the one that its line has in its column. -/
theorem exists_isLine_behind (hfeed : c ≠ '\n') (hreturn : c ≠ '\r') (name : String)
    (before rest : List Char) :
    ∃ text, Text.IsLine (before ++ c :: rest) (behind name before).line text ∧
      text[(behind name before).column - 1]? = some c := by
  by_cases hmem : '\n' ∈ before
  · obtain ⟨first, before', rfl, hfirst⟩ := List.eq_append_cons_of_mem hmem
    obtain ⟨text, hline, hc⟩ := exists_isLine_behind hfeed hreturn name before' rest
    refine ⟨text, ?_, ?_⟩
    · rw [behind_append_cons, List.count_eq_zero.mpr hfirst, List.append_assoc, List.cons_append,
        Nat.zero_add, Nat.add_comm]
      exact .next hfirst hline
    · rw [behind_append_cons]
      exact hc
  · have hfront : '\n' ∉ before ++ [c] :=
      List.not_mem_append hmem fun h => hfeed (List.mem_singleton.mp h).symm
    have hlast : (before ++ [c]).getLast? ≠ some '\r' := by
      rw [List.getLast?_concat]
      exact fun h => hreturn (Option.some.inj h)
    obtain ⟨more, hline⟩ := Text.exists_isLine_one hfront hlast rest
    rw [List.append_assoc, List.append_assoc, List.singleton_append, List.singleton_append] at hline
    rw [behind_of_not_mem hmem]
    refine ⟨_, hline, ?_⟩
    rw [Nat.add_sub_cancel, List.getElem?_append_right (Nat.le_refl _), Nat.sub_self]
    rfl
termination_by before.length
decreasing_by
  subst_vars
  simp only [List.length_append, List.length_cons]
  omega

end Position

end Prose
