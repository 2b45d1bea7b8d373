import Prose.Proofs.Expr.Division
import Prose.Proofs.Slice.Prefix
import Prose.Proofs.Token.Regular

namespace Prose

open Prose.Expr Grammar

theorem Slice.IsRegular.of_isPartOf {q s : Slice} (h : s.IsRegular) (hq : q.IsPartOf s) :
    q.IsRegular := by
  obtain ⟨i, -, hpart⟩ := hq
  intro t ht
  exact h t (List.mem_of_mem_drop (hpart.subset ht))

variable {f g : Form} {s : Slice} {t : Token} {ts : List Token} {i : Nat}

/-- The first token is a sign of the form, or it is the only one and of a kind that the form reads.
-/
def Expr.Form.Leads (f : Form) (t : Token) (ts : List Token) : Prop :=
  t.keyword ∈ f.signs ∨ ts = [] ∧ t.kind ∈ f.kinds

/-- A form that does not begin with an operand has its sign at the first token. -/
theorem leads_of_not_rejects (hf : f.fixity.isOpenLeft = false) (h : ¬ f.Rejects s) :
    ∃ t ts, s.tokens = t :: ts ∧ f.Leads t ts := by
  by_contra hnone
  refine h (verdict_of_read_eq (read_eq_of_unled hf fun t ts hs => ?_))
  constructor
  · exact fun hk => hnone ⟨t, ts, hs, .inl hk⟩
  · exact fun hts hk => hnone ⟨t, ts, hs, .inr ⟨hts, hk⟩⟩

/-- A sign is not on names and literals. -/
theorem not_plain_of_mem_signs (ht : t.IsRegular) (h : t.keyword ∈ f.signs) :
    t.kind.isPlain = false := by
  have hsigns : ∀ f ∈ Form.all, ∀ k ∈ f.signs, k ≠ .unknown ∧ k ≠ .numericLiteral := by
    decide
  exact not_plain_of_keyword ht (hsigns f f.mem_all _ h).1 (hsigns f f.mem_all _ h).2

/-- Only an ordinal leads two forms. -/
theorem eq_of_mem_signs {k : Keyword} (hf : f.fixity.isOpenLeft = false)
    (hg : g.fixity.isOpenLeft = false) (hk : k ∈ f.signs) (hk' : k ∈ g.signs) (hne : k ≠ .ordinal) :
    f = g := by
  have hall : ∀ f ∈ Form.all, f.fixity.isOpenLeft = false → ∀ g ∈ Form.all,
      g.fixity.isOpenLeft = false → ∀ k ∈ f.signs, k ∈ g.signs → f = g ∨ k = .ordinal := by
    decide
  exact (hall f f.mem_all hf g g.mem_all hg k hk hk').resolve_right hne

theorem index_or_ordinal_of_mem_signs (hf : f.fixity.isOpenLeft = false)
    (hk : Keyword.ordinal ∈ f.signs) : f = .index ∨ f = .ordinal := by
  have hall : ∀ f ∈ Form.all, f.fixity.isOpenLeft = false → Keyword.ordinal ∈ f.signs →
      f = .index ∨ f = .ordinal := by
    decide
  exact hall f f.mem_all hf hk

theorem rejects_index (ht : t.keyword = .ordinal) (hs : s.tokens = [t]) :
    Form.index.Rejects s := by
  apply verdict_of_read_eq
  simp [Form.read, readIndex_eq, Slice.startsWith, hs, ht]

theorem rejects_ordinal {u : Token} (hs : s.tokens = t :: u :: ts) : Form.ordinal.Rejects s := by
  apply verdict_of_read_eq
  rw [Form.read, readOrdinal, readToken, hs]

/-- What follows an ordinal tells the two forms apart that it leads. -/
theorem rejects_index_or_ordinal (ht : t.keyword = .ordinal) (hs : s.tokens = t :: ts) :
    Form.index.Rejects s ∨ Form.ordinal.Rejects s := by
  match ts with
  | [] => exact .inl (rejects_index ht hs)
  | _ :: _ => exact .inr (rejects_ordinal hs)

/-- At most one form that does not begin with an operand does not reject a slice. -/
theorem eq_of_not_rejects (hs : s.IsRegular) (hf : f.fixity.isOpenLeft = false)
    (hg : g.fixity.isOpenLeft = false) (h : ¬ f.Rejects s) (h' : ¬ g.Rejects s) : f = g := by
  obtain ⟨t, ts, hts, hlead⟩ := leads_of_not_rejects hf h
  obtain ⟨t', ts', hts', hlead'⟩ := leads_of_not_rejects hg h'
  rw [hts] at hts'
  obtain ⟨rfl, rfl⟩ := List.cons.inj hts'
  have ht : t.IsRegular := hs t (by rw [hts]; exact List.mem_cons_self ..)
  rcases hlead with hk | ⟨-, hkind⟩ <;> rcases hlead' with hk' | ⟨-, hkind'⟩
  · -- An ordinal is the only word with which two forms begin, and one of the two rejects the slice.
    by_cases hordinal : t.keyword = .ordinal
    · rw [hordinal] at hk hk'
      have hreject := rejects_index_or_ordinal hordinal hts
      rcases index_or_ordinal_of_mem_signs hf hk with rfl | rfl <;>
        rcases index_or_ordinal_of_mem_signs hg hk' with rfl | rfl
      · rfl
      · exact (hreject.elim h h').elim
      · exact (hreject.elim h' h).elim
      · rfl
    · exact eq_of_mem_signs hf hg hk hk' hordinal
  · -- A word that a form begins with is not plain, and the kinds of tokens are those of plain ones.
    have hplain := not_plain_of_mem_signs ht hk
    rw [isPlain_of_mem_kinds hkind'] at hplain
    cases hplain
  · have hplain := not_plain_of_mem_signs ht hk'
    rw [isPlain_of_mem_kinds hkind] at hplain
    cases hplain
  · have hall : ∀ f ∈ Form.all, ∀ g ∈ Form.all, ∀ kind ∈ f.kinds, kind ∈ g.kinds → f = g := by
      decide
    exact hall f f.mem_all g g.mem_all t.kind hkind hkind'

section leftmost

/-- The part before an index that divides a slice has the same first token. -/
theorem Expr.Form.Divides.tokens_take (h : f.Divides s i) (hs : s.tokens = t :: ts) :
    (s.take i).tokens = t :: ts.take (i - 1) := by
  obtain ⟨n, rfl⟩ := Nat.exists_eq_add_one_of_ne_zero (Nat.ne_of_gt h.1)
  rw [Slice.tokens_take, hs, List.take_succ_cons, Nat.add_sub_cancel]

/-- What a form accepts begins with a token that leads the form, or with an operand. -/
theorem Expr.Form.Accepts.leads_or_divides (h : f.Accepts s) :
    (f.fixity.isOpenLeft = false ∧ ∃ t ts, s.tokens = t :: ts ∧ f.Leads t ts) ∨
      ∃ i, f.Divides s i ∧ (s.take i).IsOperand f.level .before ∧
        (f.fixity.isOpenRight = true → (s.drop (i + 1)).IsOperand f.level .after) := by
  cases hf : f.fixity.isOpenLeft with
  | false => exact .inl ⟨rfl, leads_of_not_rejects hf h.not_rejects⟩
  | true => exact .inr (exists_divides_of_accepts hf h)

/-- A slice that begins with the word of a form is accepted by that form, or is divided. -/
theorem Expr.Form.Accepts.eq_or_divides (h : g.Accepts s) (hs : s.IsRegular)
    (hts : s.tokens = t :: ts) (hf : f.fixity.isOpenLeft = false) (hk : t.keyword ∈ f.signs)
    (hne : t.keyword ≠ .ordinal) : g = f ∨
      ∃ i, g.Divides s i ∧ (s.take i).IsOperand g.level .before ∧
        (g.fixity.isOpenRight = true → (s.drop (i + 1)).IsOperand g.level .after) := by
  rcases h.leads_or_divides with ⟨hg, u, us, hu, hlead⟩ | hdivides
  · rw [hts] at hu
    obtain ⟨rfl, -⟩ := List.cons.inj hu
    rcases hlead with hlead | ⟨-, hkind⟩
    · exact .inl (eq_of_mem_signs hg hf hlead hk hne)
    · have ht : t.IsRegular := hs t (by rw [hts]; exact List.mem_cons_self ..)
      have hplain := not_plain_of_mem_signs ht hk
      rw [isPlain_of_mem_kinds hkind] at hplain
      cases hplain
  · exact .inr hdivides

/-- The part in front of an index that divides a slice is shorter. -/
theorem Expr.Form.Divides.length_take (h : f.Divides s i) : (s.take i).length < s.length := by
  rw [Slice.length_take]
  exact Nat.lt_of_le_of_lt (Nat.min_le_left _ _) h.lt_length

theorem Expr.Form.Accepts.length_pos (h : f.Accepts s) : 0 < s.length := by
  rcases h.leads_or_divides with ⟨-, t, ts, hs, -⟩ | ⟨i, hi, -⟩
  · rw [Slice.length, hs, List.length_cons]
    exact Nat.succ_pos _
  · exact Nat.lt_of_le_of_lt (Nat.zero_le i) hi.lt_length

/-- A slice whose first token leads no form is not read. -/
theorem not_reads_of_not_leads (hs : s.tokens = t :: ts) (hplain : t.kind.isPlain = false)
    (hk : ∀ f : Form, f.fixity.isOpenLeft = false → t.keyword ∉ f.signs) : ¬ g.Reads s := by
  induction hn : s.length using Nat.strongRecOn generalizing s ts g with
  | _ n ih =>
    intro h
    rcases h.accepts.leads_or_divides with ⟨hg, u, us, hu, hlead⟩ | ⟨i, hi, ⟨f, hf, -⟩, -⟩
    · rw [hs] at hu
      obtain ⟨rfl, -⟩ := List.cons.inj hu
      rcases hlead with hlead | ⟨-, hkind⟩
      · exact hk g hg hlead
      · rw [isPlain_of_mem_kinds hkind] at hplain
        cases hplain
    · obtain ⟨f', hf'⟩ := hf.exists_reads
      exact ih _ (hn ▸ hi.length_take) (hi.tokens_take hs) rfl hf'

/-- The forms at the left of an operator that are looser than every check end with an operand. -/
theorem isOpenRight_of_isOpenLeft (hf : f.fixity.isOpenLeft = true)
    (hlevel : Form.typeCheck.level < f.level) : f.fixity.isOpenRight = true := by
  cases f with
  | operators l => rfl
  | typeCheck => exact absurd hlevel (by decide)
  | nullCheck => exact absurd hlevel (by decide)
  | _ => cases hf

theorem isArticle_eq_false_of_mem_signs {k : Keyword} (hf : f.fixity ≠ .transparent)
    (hk : k ∈ f.signs) : k.isArticle = false := by
  have hall : ∀ f ∈ Form.all, f.fixity ≠ .transparent → ∀ k ∈ f.signs, k.isArticle = false := by
    decide
  exact hall f f.mem_all hf k hk

/-- Without an article in front the form at the front is the one that reads. -/
theorem Expr.Form.Fronts.reads (h : f.Fronts s) (hs : s.tokens = t :: ts)
    (ht : t.keyword.isArticle = false) : f.Reads s := by
  rcases h.reads_or_article with ⟨-, hread⟩ | ⟨hread, -⟩
  · exact hread
  · obtain ⟨u, v, us, hu, harticle⟩ := article_of_not_rejects hread.accepts.not_rejects
    rw [hs] at hu
    obtain ⟨rfl, -⟩ := List.cons.inj hu
    rw [ht] at harticle
    cases harticle

/-- A slice that begins with the word of a loose form is read by that form or by a looser operator
behind it. -/
theorem eq_or_looser_of_reads (hs : s.IsRegular) (hf : f.fixity = .openRight)
    (hlevel : Form.typeCheck.level < f.level) (hts : s.tokens = t :: ts) (hk : t.keyword ∈ f.signs)
    (h : g.Reads s) : g = f ∨ g.fixity.isOpenLeft = true ∧ f.level < g.level := by
  induction hn : s.length using Nat.strongRecOn generalizing s ts g with
  | _ n ih =>
    have hleft : f.fixity.isOpenLeft = false := by rw [hf]; rfl
    have hne : t.keyword ≠ .ordinal := by
      intro hordinal
      rw [hordinal] at hk
      rcases index_or_ordinal_of_mem_signs hleft hk with rfl | rfl
      · exact absurd hlevel (by decide)
      · cases hf
    rcases h.accepts.eq_or_divides hs hts hleft hk hne with rfl | ⟨i, hi, ⟨f', hf', hbound⟩, -⟩
    · exact .inl rfl
    · -- The part before the operator begins with the same word, so the statement holds of it.
      have htake := hi.tokens_take hts
      have hreads : f'.Reads (s.take i) :=
        hf'.reads htake (isArticle_eq_false_of_mem_signs (by rw [hf]; decide) hk)
      -- The operator has another level, since no two forms have the same one.
      have hlevels : f.level ≠ g.level := fun he => by
        rw [← Form.level_injective he] at hi
        rw [hi.isOpenLeft] at hleft
        cases hleft
      refine .inr ⟨hi.isOpenLeft, ?_⟩
      rcases ih _ (hn ▸ hi.length_take) (hs.of_isPartOf (s.isPartOf_take i)) htake hreads rfl with
        rfl | ⟨hl, hlt⟩
      · have hle := hbound (by rw [hf]; rfl)
        omega
      · have hle := hbound (isOpenRight_of_isOpenLeft hl (by omega))
        omega

theorem isSome_enclosed_of_not_rejects (h : ¬ Form.parenthesized.Rejects s) :
    (s.enclosed .openParen).isSome = true := by
  cases henclosed : s.enclosed .openParen with
  | some inner => rfl
  | none =>
    refine absurd ?_ h
    apply verdict_of_read_eq
    rw [Form.read, readParenthesized_eq, henclosed]

/-- A slice that begins with a parenthesis is read only if the parenthesis closes in it. -/
theorem exists_enclosed_of_reads (hs : s.IsRegular) (hts : s.tokens = t :: ts)
    (hk : t.keyword = .openParen) (h : g.Reads s) :
    ∃ j, j ≤ s.length ∧ ((s.take j).enclosed .openParen).isSome = true := by
  induction hn : s.length using Nat.strongRecOn generalizing s ts g with
  | _ n ih =>
    have hsign : t.keyword ∈ Form.parenthesized.signs := by rw [hk]; decide
    rcases h.accepts.eq_or_divides hs hts rfl hsign (by rw [hk]; decide) with
      rfl | ⟨i, hi, ⟨f, hf, -⟩, -⟩
    · refine ⟨s.length, Nat.le_of_eq hn, ?_⟩
      have hwhole : s.take s.length = s := by simp [Slice.take, Slice.length]
      rw [hwhole]
      exact isSome_enclosed_of_not_rejects h.accepts.not_rejects
    · have htake := hi.tokens_take hts
      have hreads : f.Reads (s.take i) := hf.reads htake (by rw [hk]; rfl)
      obtain ⟨j, hj, henclosed⟩ :=
        ih _ (hn ▸ hi.length_take) (hs.of_isPartOf (s.isPartOf_take i)) htake hreads rfl
      rw [Slice.length_take] at hj
      rw [Slice.take_take s (by omega)] at henclosed
      exact ⟨j, by omega, henclosed⟩

end leftmost

/-- The loose forms that do not begin with an operand. -/
theorem parenthesized_or_openRight (hf : f.fixity.isOpenLeft = false) (harticle : f ≠ .article)
    (hlevel : 800 < f.level) : f = .parenthesized ∨
      f.fixity = .openRight ∧ Form.typeCheck.level < f.level ∧ f.kinds = [] := by
  have hall : ∀ f ∈ Form.all, f.fixity.isOpenLeft = false → f ≠ .article → 800 < f.level →
      f = .parenthesized ∨
        f.fixity = .openRight ∧ Form.typeCheck.level < f.level ∧ f.kinds = [] := by
    decide
  exact hall f f.mem_all hf harticle hlevel

/-- The first tokens of what a form reads to the end are no operand of a tighter operator. -/
theorem not_isOperand_take (hs : s.IsRegular) (hf : f.fixity.isOpenLeft = false)
    (harticle : f ≠ .article) (h : ¬ f.Rejects s) (hi : g.Divides s i) (hlt : g.level < f.level) :
    ¬ (s.take i).IsOperand g.level .before := by
  rintro ⟨f', hf', hbound⟩
  have hlevel := le_level_of_isOpenLeft hi.isOpenLeft
  have hregular := hs.of_isPartOf (s.isPartOf_take i)
  obtain ⟨t, ts, hts, hlead⟩ := leads_of_not_rejects hf h
  have htake := hi.tokens_take hts
  rcases parenthesized_or_openRight hf harticle (by omega) with rfl | ⟨hright, hloose, hkinds⟩
  · -- The closer of the first parenthesis is the last token, so it is not among the first ones.
    have hk : t.keyword = .openParen := by
      rcases hlead with hlead | ⟨-, hkind⟩
      · exact List.mem_singleton.mp hlead
      · cases hkind
    have hsome := isSome_enclosed_of_not_rejects h
    have hreads : f'.Reads (s.take i) := hf'.reads htake (by rw [hk]; rfl)
    obtain ⟨j, hj, hsome'⟩ := exists_enclosed_of_reads hregular htake hk hreads
    obtain ⟨c, hc, hend⟩ := Slice.matchingClose_of_enclosed hsome
    obtain ⟨c', hc', hend'⟩ := Slice.matchingClose_of_enclosed hsome'
    -- A closer that is found in a first part is found in the whole slice at the same index.
    have hsame := Slice.matchingClose_of_take (b := .paren) hts hk
      (Slice.matchingClose_of_take (b := .paren) htake hk hc')
    have hlength := hi.lt_length
    rw [hc] at hsame
    cases hsame
    simp only [Slice.length_take] at hj hend'
    omega
  · have hk : t.keyword ∈ f.signs := by
      rcases hlead with hlead | ⟨-, hkind⟩
      · exact hlead
      · rw [hkinds] at hkind
        cases hkind
    have hreads : f'.Reads (s.take i) :=
      hf'.reads htake (isArticle_eq_false_of_mem_signs (by rw [hright]; decide) hk)
    rcases eq_or_looser_of_reads hregular hright hloose htake hk hreads with rfl | ⟨hl, hlooser⟩
    · have hle := hbound (by rw [hright]; rfl)
      omega
    · have hle := hbound (isOpenRight_of_isOpenLeft hl (by omega))
      omega

end Prose
