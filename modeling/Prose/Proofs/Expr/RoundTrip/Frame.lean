import Prose.Proofs.Expr.Outcome
import Prose.Proofs.Expr.Precedence
import Prose.Proofs.Expr.Sign
import Prose.Proofs.Expr.Writing
import Prose.Proofs.Slice.Nested

namespace Prose.Expr

open Grammar

variable {s : Slice} {f : Form} {e : Expr} {ks : List Keyword} {ts : List Token}

/-- The tokens are read as the expression, up to groupings and places, wherever they stand. -/
structure ReadsBack (e : Expr) (ts : List Token) : Prop where
  nested : WellNested ts
  reads (a : Nat) : ∃ rule e', standard.outcome ⟨a, ts⟩ = .ok (some (rule, e')) ∧ e'.bare = e.bare

/-- The tokens are read as the expression in parentheses. -/
structure IsOperand (e : Expr) (ts : List Token) : Prop where
  around : Bracket.paren.Around ts
  reads (a : Nat) : ∃ e', standard.outcome ⟨a, ts⟩ = .ok (some (Form.parenthesized.rule, e')) ∧
    e'.bare = e.bare

section sole

theorem isCloser_of_mem_signs {k : Keyword} (h : k ∈ f.signs) : k.isCloser = false := by
  have hall : ∀ f ∈ Form.all, ∀ k ∈ f.signs, k.isCloser = false := by decide
  exact hall f f.mem_all k h

theorem mem_depthZero_head {t : Token} (h : t.keyword.isCloser = false) :
    (0, t.keyword) ∈ depthZero 0 0 (t :: ts) := by
  cases ho : t.keyword.isOpener with
  | true => rw [depthZero_opener 0 0 ts ho h]; simp
  | false => rw [depthZero_plain 0 0 ts ho h]; simp

/-- A form rejects tokens that show none of its signs. -/
theorem verdict_eq_none_of_shows (htwo : 2 ≤ s.length) (hks : Shows ks s.tokens)
    (hlast : ∀ t ∈ s.tokens.getLast?, t.keyword ∈ ks) (hf : ∀ k ∈ ks, k ∉ f.signs) :
    standard.verdict f s = .ok none := by
  refine verdict_of_read_eq ?_
  cases hl : f.fixity.isOpenLeft with
  | true =>
    refine read_eq_of_unsigned hl (fun i k _ hmem => hf k (hks.of_mem hmem)) fun _ t ht => ?_
    exact hf _ (hlast t ht)
  | false =>
    refine read_eq_of_unled hl fun t us hs => ⟨fun hk => ?_, fun hus => ?_⟩
    · refine hf _ (hks.of_mem (i := 0) (j := 0) ?_) hk
      rw [hs]
      exact mem_depthZero_head (isCloser_of_mem_signs hk)
    · rw [Slice.length, hs, hus] at htwo
      simp at htwo

/-- A form reads a slice that shows no sign but its own and is not in parentheses. -/
theorem outcome_of_shows (htwo : 2 ≤ s.length) (hks : Shows ks s.tokens)
    (hlast : ∀ t ∈ s.tokens.getLast?, t.keyword ∈ ks) (hparen : s.enclosed .openParen = none)
    (hothers : ∀ f' ∈ Form.all, f' ≠ .parenthesized → f' ≠ f → ∀ k ∈ ks, k ∉ f'.signs)
    (he : standard.verdict f s = .ok (some e)) :
    standard.outcome s = .ok (some (f.rule, e)) := by
  refine outcome_standard_eq_some_iff.mpr ⟨f, rfl, by omega, he, fun f' hlt => ?_⟩
  have hne : f' ≠ f := by
    rintro rfl
    exact Nat.lt_irrefl _ hlt
  by_cases hp : f' = .parenthesized
  · subst hp
    exact verdict_of_read_eq (by simp [Form.read, readParenthesized_eq, hparen])
  · exact verdict_eq_none_of_shows htwo hks hlast (hothers f' f'.mem_all hp hne)

/-- A form reads a single token that has no sign or kind of another form. -/
theorem outcome_of_token {t : Token} {a : Nat}
    (hothers : ∀ f' ∈ Form.all, f' ≠ f → t.keyword ∉ f'.signs ∧ t.kind ∉ f'.kinds)
    (he : standard.verdict f ⟨a, [t]⟩ = .ok (some e)) :
    standard.outcome ⟨a, [t]⟩ = .ok (some (f.rule, e)) := by
  refine outcome_standard_eq_some_iff.mpr ⟨f, rfl, Nat.one_pos, he, fun f' hlt => ?_⟩
  have hne : f' ≠ f := by
    rintro rfl
    exact Nat.lt_irrefl _ hlt
  obtain ⟨hsigns, hkinds⟩ := hothers f' f'.mem_all hne
  refine verdict_of_read_eq ?_
  cases hl : f'.fixity.isOpenLeft with
  | true =>
    -- A single token has no room for a sign between operands.
    refine read_eq_of_unsigned hl (fun i k hi hmem => ?_) fun _ u hu => ?_
    · have hlen := Slice.lt_length_of_getElem? (s := ⟨a, [t]⟩)
        (by simpa using (getElem?_of_mem_depthZero hmem).2)
      simp only [Slice.length, List.length_singleton] at hlen
      omega
    · rw [List.getLast?_singleton, Option.mem_some_iff] at hu
      rwa [← hu]
  | false =>
    refine read_eq_of_unled hl fun u us hs => ?_
    cases hs
    exact ⟨hsigns, fun _ => hkinds⟩

end sole

section outline

variable {k : Keyword} {us : List Token}

/-- The tokens are well nested, show keywords of `ks` only, and end in one of these. -/
structure HasOutline (ks : List Keyword) (ts : List Token) : Prop where
  nested : WellNested ts
  shows : Shows ks ts
  last : ∀ t ∈ ts.getLast?, t.keyword ∈ ks

theorem hasOutline_nil : HasOutline ks [] :=
  ⟨WellNested.nil, shows_nil, by simp⟩

theorem HasOutline.append (h : HasOutline ks ts) (h' : HasOutline ks us) :
    HasOutline ks (ts ++ us) := by
  refine ⟨h.nested.append h'.nested, h.shows.append h'.shows, fun t ht => ?_⟩
  rw [List.getLast?_append, Option.mem_def, Option.or_eq_some_iff] at ht
  exact ht.elim (h'.last t) fun ht => h.last t ht.2

theorem isFlat_word (w : Word k) (h : k.isOpener = false ∧ k.isCloser = false) :
    w.val.IsFlat := by
  unfold Token.IsFlat
  rw [w.property.1]
  exact h

theorem HasOutline.cons {t : Token} (ht : t.IsFlat) (hk : t.keyword ∈ ks) (h : HasOutline ks ts) :
    HasOutline ks (t :: ts) := by
  have ht' : HasOutline ks [t] := by
    refine ⟨wellNested_singleton ht, shows_singleton ht hk, fun u hu => ?_⟩
    rw [List.getLast?_singleton, Option.mem_some_iff] at hu
    exact hu ▸ hk
  exact ht'.append h

theorem HasOutline.word (h : HasOutline ks ts) (w : Word k)
    (hflat : k.isOpener = false ∧ k.isCloser = false) (hk : k ∈ ks) :
    HasOutline ks (w.val :: ts) :=
  h.cons (isFlat_word w hflat) (by rwa [w.property.1])

/-- An operand shows its parentheses. -/
theorem IsOperand.hasOutline (h : IsOperand e ts) (ho : .openParen ∈ ks) (hc : .closeParen ∈ ks) :
    HasOutline ks ts := by
  refine ⟨h.around.wellNested, h.around.shows ho hc, fun t ht => ?_⟩
  obtain ⟨o, inner, c, rfl, -, hclose, -⟩ := h.around
  rw [← List.cons_append, List.getLast?_concat, Option.mem_some_iff] at ht
  rwa [← ht, hclose]

theorem IsOperand.two_le_length (h : IsOperand e ts) : 2 ≤ ts.length :=
  h.around.two_le_length

end outline

section tokens

/-- A literal that a form reads from one token. -/
theorem readsBack_value {p : Position} {v : Literal} {t : Token} (hflat : t.IsFlat)
    {value : Token → Option (Query Expr)} {q : Query Expr}
    (hread : f.read = fun s => readToken s value) (hq : value t = some q)
    (hv : q.resolve standard.outcome = .ok (literal t.position v))
    (hothers : ∀ f' ∈ Form.all, f' ≠ f → t.keyword ∉ f'.signs ∧ t.kind ∉ f'.kinds) :
    ReadsBack (literal p v) [t] := by
  refine ⟨wellNested_singleton hflat, fun a =>
    ⟨f.rule, literal t.position v, ?_, by simp only [bare]⟩⟩
  refine outcome_of_token hothers ?_
  rw [verdict, hread]
  simp [readToken, hq, hv, Except.map]

/-- A constant is a word, so no form reads it by its kind. -/
theorem readsBack_constant {p : Position} {v : Literal} {t : Token} {k : Keyword}
    (hkind : t.kind.isPlain = false) (hkey : t.keyword = k) (hk : constant? k = some v)
    (hflat : k.isOpener = false ∧ k.isCloser = false)
    (hothers : ∀ f' ∈ Form.all, f' ≠ .constant → k ∉ f'.signs) :
    ReadsBack (literal p v) [t] := by
  refine readsBack_value (f := .constant) (q := pure (literal t.position v))
    (by rwa [← hkey] at hflat) rfl (by rw [hkey, hk]; rfl) rfl
    fun f' hmem hne => ⟨hkey ▸ hothers f' hmem hne, fun hk => ?_⟩
  rw [isPlain_of_mem_kinds hk] at hkind
  cases hkind

/-- A literal is read by the form of its kind. -/
theorem readsBack_literal {p : Position} {v : Literal} {t : Token} (h : t.Denotes v) :
    ReadsBack (literal p v) [t] := by
  cases v with
  | number n =>
    obtain ⟨hkind, hkey, hvalue⟩ := h
    refine readsBack_value (f := .number) ?_ rfl (if_pos hkind) (by rw [hvalue]; rfl) ?_
    · unfold Token.IsFlat
      rcases hkey with hk | hk <;> rw [hk] <;> decide
    · rw [hkind]
      rcases hkey with hk | hk <;> rw [hk] <;> decide
  | text x =>
    obtain ⟨hkind, hkey, hvalue⟩ := h
    refine readsBack_value (f := .text) ⟨by rw [hkey]; rfl, by rw [hkey]; rfl⟩ rfl
      (by simp only [hkind]; rfl) (by rw [hvalue]; rfl) ?_
    rw [hkind, hkey]
    decide
  | character c =>
    obtain ⟨hkind, hkey, hvalue⟩ := h
    refine readsBack_value (f := .text) ⟨by rw [hkey]; rfl, by rw [hkey]; rfl⟩ rfl
      (by simp only [hkind]; rfl) (by rw [hvalue]; rfl) ?_
    rw [hkind, hkey]
    decide
  | boolean b =>
    cases b with
    | true => exact readsBack_constant h.1 h.2 rfl (by decide) (by decide)
    | false => exact readsBack_constant h.1 h.2 rfl (by decide) (by decide)
  | null => exact readsBack_constant h.1 h.2 rfl (by decide) (by decide)

theorem name?_kind {t : Token} {n : String} (h : t.name? = some n) : t.kind = .identifier := by
  unfold Token.name? at h
  split at h
  · rename_i hk
    exact hk.1
  · cases h

/-- A name is read as an identifier. -/
theorem outcome_identifier {n : String} {t : Token} (h : t.Names n) (a : Nat) :
    standard.outcome ⟨a, [t]⟩ =
      .ok (some (Form.identifier.rule, identifier t.position n)) := by
  obtain ⟨hkey, hname⟩ := h
  refine outcome_of_token ?_ ?_
  · rw [name?_kind hname, hkey]
    decide
  · refine verdict_of_read_eq ?_
    simp only [Form.read, readIdentifier_eq, Slice.name?, hname]
    rfl

theorem readsBack_identifier {p : Position} {n : String} {t : Token} (h : t.Names n) :
    ReadsBack (identifier p n) [t] := by
  refine ⟨wellNested_singleton ⟨by rw [h.1]; rfl, by rw [h.1]; rfl⟩, fun a => ?_⟩
  exact ⟨_, _, outcome_identifier h a, by simp only [bare]⟩

/-- The empty list is one word. -/
theorem readsBack_emptyList {p : Position} (w : Word .emptyList) :
    ReadsBack (list p []) [w.val] := by
  refine ⟨wellNested_singleton (isFlat_word w (by decide)), fun a =>
    ⟨Form.list.rule, list w.val.position [], ?_, by simp only [bare]⟩⟩
  refine outcome_of_token (fun f' hmem hne => ⟨?_, fun hk => ?_⟩) ?_
  · rw [w.property.1]
    revert f'
    decide
  · have hplain := isPlain_of_mem_kinds hk
    rw [w.property.2] at hplain
    cases hplain
  · refine verdict_of_read_eq ?_
    have hstart : (⟨a, [w.val]⟩ : Slice).startsWith .emptyList = true := by
      simp [Slice.startsWith, w.property.1]
    simp only [Form.read, readList_eq, hstart]
    rfl

end tokens

section forms

variable {p : Position}

/-- Parentheses are read by the first form of all. -/
theorem outcome_parens {o c : Token} {a : Nat} {rule : Rule} (ho : o.keyword = .openParen)
    (hc : c.keyword = .closeParen) (hnested : WellNested ts)
    (h : standard.outcome ⟨a + 1, ts⟩ = .ok (some (rule, e))) :
    standard.outcome ⟨a, o :: (ts ++ [c])⟩ =
      .ok (some (Form.parenthesized.rule, grouping o.position e)) := by
  have hinner : (⟨a, o :: (ts ++ [c])⟩ : Slice).enclosed .openParen = some ⟨a + 1, ts⟩ :=
    Slice.enclosed_of_around (b := .paren) ho hc hnested rfl
  refine outcome_standard_eq_some_iff.mpr ⟨.parenthesized, rfl, Nat.succ_pos _, ?_, ?_⟩
  · simp only [verdict, Form.read, readParenthesized_eq, hinner, Inquiry.resolve_bind,
      resolve_required h]
    rfl
  · intro f' hlt
    have hmax : ∀ f' ∈ Form.all, f'.level ≤ Form.parenthesized.level := by decide
    exact absurd hlt (Nat.not_lt.mpr (hmax f' f'.mem_all))

/-- An expression in parentheses is read with its grouping. -/
theorem isOperand_parens {o c : Token} (ho : o.keyword = .openParen) (hc : c.keyword = .closeParen)
    (h : ReadsBack e ts) : IsOperand e (o :: (ts ++ [c])) := by
  refine ⟨⟨o, ts, c, rfl, ho, hc, h.nested⟩, fun a => ?_⟩
  obtain ⟨rule, e', houtcome, hbare⟩ := h.reads (a + 1)
  exact ⟨_, outcome_parens ho hc h.nested houtcome, by simp only [bare, hbare]⟩

theorem readsBack_grouping (h : IsOperand e ts) : ReadsBack (grouping p e) ts :=
  ⟨h.around.wellNested, fun a => by
    obtain ⟨e', houtcome, hbare⟩ := h.reads a
    exact ⟨_, e', houtcome, by simpa only [bare] using hbare⟩⟩

/-- A form reads back tokens that show no sign but its own. -/
theorem readsBack_of_hasOutline (f : Form) (ks : List Keyword) (hts : HasOutline ks ts)
    (htwo : 2 ≤ ts.length)
    (hparen : ∀ a, (⟨a, ts⟩ : Slice).enclosed .openParen = none)
    (hothers : ∀ f' ∈ Form.all, f' ≠ .parenthesized → f' ≠ f → ∀ k ∈ ks, k ∉ f'.signs)
    (hread : ∀ a, ∃ e', standard.verdict f ⟨a, ts⟩ = .ok (some e') ∧ e'.bare = e.bare) :
    ReadsBack e ts := by
  refine ⟨hts.nested, fun a => ?_⟩
  obtain ⟨e', he, hbare⟩ := hread a
  exact ⟨f.rule, e', outcome_of_shows htwo hts.shows hts.last (hparen a) hothers he, hbare⟩

theorem startsWith_word {k : Keyword} {a : Nat} (w : Word k) :
    (⟨a, w.val :: ts⟩ : Slice).startsWith k = true := by
  simp [Slice.startsWith, w.property.1]

theorem enclosed_word {k : Keyword} {a : Nat} (w : Word k) (hk : k ≠ .openParen) :
    (⟨a, w.val :: ts⟩ : Slice).enclosed .openParen = none := by
  refine Slice.enclosed_eq_none_of_startsWith ?_
  simpa [Slice.startsWith, w.property.1] using hk

end forms

end Prose.Expr
