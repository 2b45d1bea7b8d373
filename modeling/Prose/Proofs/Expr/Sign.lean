import Prose.Proofs.Expr.Indices
import Prose.Proofs.Expr.Outcome

/-! Signs: the keywords without which a form rejects a slice. A form that does not begin with an
operand has its sign, or the kind of its only token, at the first token; the others have it behind
their operand. -/
namespace Prose

theorem Slice.startsWith_iff {s : Slice} {k : Keyword} :
    s.startsWith k = true ↔ ∃ t ts, s.tokens = t :: ts ∧ t.keyword = k := by
  obtain ⟨a, _ | ⟨t, ts⟩⟩ := s <;> simp [startsWith]

namespace Expr

/-- The keywords of which one is found in every slice that the form does not reject. -/
def Form.signs : Form → List Keyword
  | parenthesized => [.openParen]
  | article => [.the, .a, .an]
  | ternary => [.ifWord]
  | selection => [.matchWord]
  | operators l => l.operators.map (·.1)
  | unary op => [unaryLead op]
  | typeCheck => [.isA]
  | nullCheck => [.isNull, .isNotNull]
  | phrase p => [p.lead]
  | cast => [.cast]
  | slice => [.slice]
  | index => [.item, .element, .ordinal]
  | call => [.call]
  | list => [.listOf, .emptyList]
  | ordinal => [.ordinal]
  | constant => [.trueWord, .falseWord, .null]
  | number | text | identifier => []

def Form.kinds : Form → List Token.Kind
  | number => [.number]
  | text => [.string, .character]
  | identifier => [.identifier]
  | _ => []

theorem isPlain_of_mem_kinds {f : Form} {kind : Token.Kind} (h : kind ∈ f.kinds) :
    kind.isPlain = true := by
  cases f with
  | number => rw [List.mem_singleton.mp h]; rfl
  | identifier => rw [List.mem_singleton.mp h]; rfl
  | text =>
    rcases List.mem_cons.mp h with rfl | h
    · rfl
    · rw [List.mem_singleton.mp h]; rfl
  | _ => cases h

variable {g : Grammar} {s : Slice}

theorem verdict_of_read_eq {f : Form} {r : Option Expr} (h : f.read s = pure r) :
    g.verdict f s = .ok r := by
  rw [Grammar.verdict, h, Inquiry.resolve_pure]

/-- A slice that begins with none of the signs of a form, nor with a token of its kind alone. -/
def Form.Unled (f : Form) (s : Slice) : Prop :=
  ∀ t ts, s.tokens = t :: ts → t.keyword ∉ f.signs ∧ (ts = [] → t.kind ∉ f.kinds)

theorem Form.Unled.startsWith_eq_false {f : Form} (h : f.Unled s) {k : Keyword}
    (hk : k ∈ f.signs) : s.startsWith k = false := by
  rw [← Bool.not_eq_true, Slice.startsWith_iff]
  rintro ⟨t, ts, hs, rfl⟩
  exact (h t ts hs).1 hk

/-- Forms of one token read nothing else. -/
theorem read_eq_of_token {f : Form} {value : Token → Option (Query Expr)}
    (hread : f.read s = readToken s value)
    (h : ∀ t, s.tokens = [t] → value t = none) : f.read s = pure none := by
  rw [hread, readToken]
  split
  · rename_i t hs
    rw [h t hs]
  · rfl

/-- A form that begins with a word or is one token rejects a slice without its sign there. -/
theorem read_eq_of_unled {f : Form} (hf : f.fixity.isOpenLeft = false) (h : f.Unled s) :
    f.read s = pure none := by
  -- The first token is neither a word of the form nor, if it is the only one, of its kind.
  have hlead {k : Keyword} (hk : k ∈ f.signs) : s.startsWith k = false :=
    h.startsWith_eq_false hk
  have hkey (t : Token) (ht : s.tokens = [t]) : t.keyword ∉ f.signs := (h t [] ht).1
  have hkind (t : Token) (ht : s.tokens = [t]) : t.kind ∉ f.kinds := (h t [] ht).2 rfl
  cases f with
  | parenthesized =>
    simp [Form.read, readParenthesized_eq, Slice.enclosed_eq, hlead (k := .openParen) (by decide)]
  | article =>
    simp only [Form.read, readArticle_eq]
    split
    · rename_i t u ts hs
      have ht := (h t (u :: ts) hs).1
      have ha : t.keyword.isArticle = false := by
        revert ht
        cases t.keyword <;> decide
      simp [ha]
    · rfl
  | ternary => simp [Form.read, readTernary, hlead (k := .ifWord) (by decide)]
  | selection => simp [Form.read, readSelection_eq, hlead (k := .matchWord) (by decide)]
  | unary op => simp [Form.read, readUnary_eq, hlead (k := unaryLead op) (by simp [Form.signs])]
  | phrase p => simp [Form.read, readPhrase_eq, hlead (k := p.lead) (by simp [Form.signs])]
  | cast => simp [Form.read, readCast_eq, hlead (k := .cast) (by decide)]
  | slice => simp [Form.read, readSlice_eq, hlead (k := .slice) (by decide)]
  | index =>
    simp only [Form.read, readIndex_eq, hlead (k := .item) (by decide),
      hlead (k := .element) (by decide), Bool.false_eq_true, or_self, if_false]
    split
    · rename_i t u v ts hs
      have ht : t.keyword ≠ .ordinal := fun hk => (h t _ hs).1 (by simp [hk, Form.signs])
      simp [ht]
    · rfl
  | call => simp [Form.read, readCall_eq, hlead (k := .call) (by decide)]
  | list =>
    simp [Form.read, readList_eq, hlead (k := .emptyList) (by decide),
      hlead (k := .listOf) (by decide)]
  | number =>
    refine read_eq_of_token rfl fun t ht => if_neg fun hk => hkind t ht ?_
    simp [hk, Form.kinds]
  | ordinal =>
    refine read_eq_of_token rfl fun t ht => if_neg fun hk => hkey t ht ?_
    simp [hk, Form.signs]
  | text =>
    refine read_eq_of_token rfl fun t ht => ?_
    have hk := hkind t ht
    revert hk
    cases t.kind <;> simp [Form.kinds]
  | constant =>
    refine read_eq_of_token rfl fun t ht => ?_
    have hk := hkey t ht
    revert hk
    cases t.keyword <;> simp [Form.signs, constant?]
  | identifier =>
    simp only [Form.read, readIdentifier_eq, Slice.name?]
    split
    · rename_i t ht
      have hk := hkind t ht
      have hn : t.name? = none := by
        rw [Token.name?, if_neg fun hid => hk (by simp [hid.1, Form.kinds])]
      rw [hn, Option.map_none]
    · rfl
  -- Every other form begins with an operand.
  | _ => cases hf

/-- The operators at which a slice is divided stand inside it at depth zero. -/
theorem readSplit_eq_of_forall {l : OperatorLevel} {is : List Nat}
    (h : ∀ i ∈ is, 0 < i → i + 1 ≠ s.length → (s.tokens[i]?).bind
      (fun t => l.operators.lookup t.keyword) = none) : readSplit s l is = pure none := by
  induction is with
  | nil => rfl
  | cons i is ih =>
    have hrest := ih fun j hj => h j (List.mem_cons_of_mem _ hj)
    rw [readSplit]
    split
    · exact hrest
    · rename_i op hop
      split at hop
      · cases hop
      · rename_i hends
        rw [not_or] at hends
        rw [h i (List.mem_cons_self ..) (by omega) hends.2] at hop
        cases hop

/-- An operator, a type check or a null check rejects a slice without its sign inside. -/
theorem read_eq_of_unsigned {f : Form} (hf : f.fixity.isOpenLeft = true)
    (h : ∀ i k, 0 < i → (i, k) ∈ depthZero 0 0 s.tokens → k ∉ f.signs)
    (hlast : f = .nullCheck → ∀ t ∈ s.tokens.getLast?, t.keyword ∉ f.signs) :
    f.read s = pure none := by
  cases f with
  | operators l =>
    -- Every position of a sign is the first token, which divides nothing.
    simp only [Form.read, readOperators_eq]
    refine readSplit_eq_of_forall fun i hi hpos _ => ?_
    have hi' : i ∈ s.positionsOf (l.operators.map (·.1)) := by
      split at hi
      · exact hi
      · exact List.mem_reverse.mp hi
    obtain ⟨k, hk, hmem⟩ := Slice.mem_positionsOf_iff.mp hi'
    exact (h i k hpos hmem hk).elim
  | typeCheck =>
    simp only [Form.read, readTypeCheck_eq]
    split
    · rfl
    · rename_i i hi
      have hmem := Slice.mem_depthZero_of_mem_allOf (List.mem_of_getLast? hi)
      have hi0 : i = 0 := by
        by_contra hne
        exact h i _ (Nat.pos_of_ne_zero hne) hmem (by decide)
      rw [if_pos (.inl hi0)]
  | nullCheck =>
    simp only [Form.read, readNullCheck_eq]
    cases hl : s.tokens.getLast? with
    | none => rfl
    | some t =>
      have hk := hlast rfl t (by rw [hl]; rfl)
      rw [Option.map_some]
      generalize t.keyword = k at hk
      cases k <;> first | rfl | exact (hk (by decide)).elim
  | _ => cases hf

end Expr

end Prose
