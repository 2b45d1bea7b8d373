import Prose.Proofs.Token.Scan

namespace Prose

namespace Token

def unplaced (t : Token) : Kind × String × Keyword :=
  (t.kind, t.text, t.keyword)

inductive IsCut : Token → Prop
  | mk {kind text rest p} (h : Lexer.IsPiece ⟨some kind, text⟩ rest) :
      IsCut (.ofText kind (String.ofList text) p)

theorem isCut_of_cuts {p : Position} {cs : List Char} {ts : List Token} (h : Lexer.Cuts p cs ts) :
    ∀ t ∈ ts, t.IsCut := by
  induction h with
  | nil => exact List.forall_mem_nil _
  | gap _ _ ih => exact ih
  | token hpiece _ ih => exact List.forall_mem_cons.mpr ⟨.mk hpiece, ih⟩

theorem render_singleton (t : Token) : render [t] = t.text := by
  rw [render, List.map_singleton, String.intercalate_singleton]

theorem toList_render_cons_cons (t u : Token) (ts : List Token) :
    (render (t :: u :: ts)).toList = t.text.toList ++ ' ' :: (render (u :: ts)).toList := by
  rw [render, List.map_cons, List.map_cons, String.intercalate_cons_cons, String.toList_append,
    String.toList_append, List.append_assoc]
  rfl

end Token

namespace Lexer

open Token

/-- A token is scanned from its text, in whatever place that stands. -/
theorem Scans.isCut {t : Token} (ht : t.IsCut) {p : Position} {rest : List Char} {us : List Token}
    (hend : ∀ d ∈ rest.head?, d = '\n' ∨ d = ' ')
    (hrest : Scans (t.text.toList.foldl Position.after p) rest (.ok us)) :
    ∃ u, u.unplaced = t.unplaced ∧ Scans p (t.text.toList ++ rest) (.ok (u :: us)) := by
  cases ht with
  | @mk kind text behind q h =>
    have htext : (ofText kind (String.ofList text) q).text.toList = text := String.toList_ofList
    rw [htext] at hrest ⊢
    exact ⟨.ofText kind (String.ofList text) p, rfl, .token h hend hrest⟩

/-- What is shown of tokens is scanned to the same tokens. -/
theorem exists_scans_render {ts : List Token} (hts : ∀ t ∈ ts, t.IsCut) (p : Position) :
    ∃ us, Scans p (render ts).toList (.ok us) ∧ us.map unplaced = ts.map unplaced := by
  induction ts generalizing p with
  | nil => exact ⟨[], .done, rfl⟩
  | cons t ts ih =>
    obtain ⟨ht, hts⟩ := List.forall_mem_cons.mp hts
    cases ts with
    | nil =>
      obtain ⟨u, hu, hscans⟩ := Scans.isCut ht (p := p) (fun d hd => by cases hd) .done
      rw [List.append_nil, ← render_singleton] at hscans
      exact ⟨[u], hscans, congrArg (· :: []) hu⟩
    | cons t' ts =>
      -- The space is a piece of its own, behind which the other tokens are scanned.
      obtain ⟨us, hscans, hus⟩ := ih hts ((t.text.toList.foldl Position.after p).after ' ')
      have hspace := Scans.blank (by decide) hscans
      have hend : ∀ d ∈ (' ' :: (render (t' :: ts)).toList).head?, d = '\n' ∨ d = ' ' :=
        fun d hd => .inr (Option.some.inj hd).symm
      obtain ⟨u, hu, hwhole⟩ := Scans.isCut ht hend hspace
      rw [← toList_render_cons_cons] at hwhole
      exact ⟨u :: us, hwhole, congrArg₂ List.cons hu hus⟩

end Lexer

/-- The tokens of a source text, shown with one space between them, become tokens of the same kinds,
texts and roles. -/
theorem tokenize_render {source name : String} {ts : List Token}
    (h : tokenize source name = .ok ts) (name' : String) :
    ∃ us, tokenize (Token.render ts) name' = .ok us ∧
      us.map Token.unplaced = ts.map Token.unplaced := by
  have hts := Token.isCut_of_cuts (Lexer.cuts_of_tokenize h)
  obtain ⟨us, hscans, hus⟩ := Lexer.exists_scans_render hts ⟨1, 1, name'⟩
  exact ⟨us, Lexer.tokenize_eq_iff.mpr hscans, hus⟩

def denseSource : String :=
  "$é+3.25.x-5.'''\"a # \n\\\"\"#\"c\nwörd'\\\n'"

/-- With the spaces they stand in other places and are the same. -/
theorem tokenize_render_denseSource :
    ∃ ts us, tokenize denseSource "t" = .ok ts ∧ tokenize (Token.render ts) "t" = .ok us ∧
      us.map Token.unplaced = ts.map Token.unplaced ∧
      us.map (·.text) = ["$é", "+", "3.25", ".", "x", "-", "5", ".", "'''", "\"a # \n\\\"\"",
        "wörd", "'\\\n'"] := by
  have htexts : (tokenize denseSource "t").toOption.map (·.map (·.text)) =
      some ["$é", "+", "3.25", ".", "x", "-", "5", ".", "'''", "\"a # \n\\\"\"",
        "wörd", "'\\\n'"] := by
    decide +kernel
  obtain ⟨ts, htokens, htexts⟩ := Option.map_eq_some_iff.mp htexts
  have htokens := eq_ok_of_toOption htokens
  obtain ⟨us, hrender, hus⟩ := tokenize_render htokens "t"
  refine ⟨ts, us, htokens, hrender, hus, ?_⟩
  have hsame := congrArg (List.map fun v => v.2.1) hus
  rw [List.map_map, List.map_map] at hsame
  exact hsame.trans htexts

end Prose
