import Prose.Proofs.Expr.Sound
import Prose.Proofs.Slice.Braces
import Prose.Proofs.Token.Regular

namespace Prose

inductive Leaf where
  | name (n : String)
  | value (v : Literal)
  deriving DecidableEq, Inhabited

namespace Expr

mutual

def leaves : Expr → List Leaf
  | literal _ v => [.value v]
  | identifier _ n => [.name n]
  | grouping _ e => leaves e
  | list _ es => leavesList es
  | binary _ l _ r => leaves l ++ leaves r
  | unary _ _ e => leaves e
  | nullCheck _ e _ => leaves e
  | typeCheck _ e _ => leaves e
  | cast _ e _ => leaves e
  | index _ c i => leaves i ++ leaves c
  | slice _ c a b => leaves c ++ (leaves a ++ leaves b)
  | call _ f args => .name f :: leavesList args
  | ternary _ c a b => leaves c ++ (leaves a ++ leaves b)
  | selection _ e arms d =>
    leaves e ++ (leavesArms arms ++
      match d with
      | some e => leaves e
      | none => [])
termination_by structural e => e

def leavesList : List Expr → List Leaf
  | [] => []
  | e :: es => leaves e ++ leavesList es
termination_by structural es => es

def leavesArms : List (Expr × Expr) → List Leaf
  | [] => []
  | (p, r) :: arms => (leaves p ++ leaves r) ++ leavesArms arms
termination_by structural arms => arms

end

/-- The names and values of the arms of a match and of its fallback. -/
theorem leaves_selection (p : Position) (e : Expr) (arms : List (Expr × Expr)) (d : Option Expr) :
    (selection p e arms d).leaves = e.leaves ++ (leavesArms arms ++ leavesList d.toList) := by
  cases d <;> simp [leaves, leavesList]

@[simp] theorem leaves_movedTo (e : Expr) (p : Position) : (e.movedTo p).leaves = e.leaves := by
  cases e <;> simp only [movedTo, leaves, leaves_selection]

end Expr

namespace Keyword

def isValue : Keyword → Bool
  | ordinal | trueWord | falseWord | null => true
  | _ => false

/-- The roles of words and marks that stand inside an expression or a statement and are neither
brackets nor values. Names and literals have none of these. -/
def isMute (k : Keyword) : Bool :=
  !(k.isOpener || k.isCloser || k.isValue || k == unknown || k == numericLiteral ||
    k == endOfStatement)

end Keyword

namespace Token

def isContent (t : Token) : Bool :=
  t.kind.isPlain || t.keyword.isValue

def leaf? (t : Token) : Option Leaf :=
  match t.kind with
  | .identifier => t.name?.map .name
  | .number => t.numberValue.toOption.map .value
  | .string => t.unescaped.toOption.map fun x => .value (.text x)
  | .character => t.characterValue.toOption.map .value
  | .word | .punctuation | .operator =>
    if t.keyword = .ordinal then t.ordinalValue.toOption.map .value
    else (Expr.constant? t.keyword).map .value

variable {t : Token}

theorem isContent_eq_false (hr : t.IsRegular) (hu : t.keyword ≠ .unknown)
    (hn : t.keyword ≠ .numericLiteral) (hv : t.keyword.isValue = false) : t.isContent = false := by
  rw [isContent, not_plain_of_keyword hr hu hn, hv, Bool.or_self]

theorem isContent_of_isMute (hr : t.IsRegular) (h : t.keyword.isMute = true) :
    t.isContent = false := by
  simp only [Keyword.isMute, Bool.not_eq_true', Bool.or_eq_false_iff, beq_eq_false_iff_ne] at h
  exact isContent_eq_false hr h.1.1.2 h.1.2 h.1.1.1.2

/-- The end of a statement is a word without a name or a value, too. -/
theorem isContent_of_dot (hr : t.IsRegular) (h : t.keyword = .endOfStatement) :
    t.isContent = false := by
  apply isContent_eq_false hr <;> rw [h] <;> decide

theorem isFlat_of_isMute (h : t.keyword.isMute = true) : t.IsFlat := by
  simp only [Keyword.isMute, Bool.not_eq_true', Bool.or_eq_false_iff] at h
  exact h.1.1.1.1

theorem isContent_of_bracket {b : Bracket} (hr : t.IsRegular)
    (h : t.keyword = b.opener ∨ t.keyword = b.closer) : t.isContent = false := by
  apply isContent_eq_false hr <;> rcases h with h | h <;> rw [h] <;> cases b <;> decide

/-- Names and literals are no brackets. -/
theorem isFlat_of_plain (hr : t.IsRegular) (h : t.kind.isPlain = true) : t.IsFlat := by
  unfold IsFlat
  rcases hr h with hk | hk <;> rw [hk] <;> decide

theorem kind_of_name? {n : String} (h : t.name? = some n) : t.kind = .identifier := by
  unfold name? at h
  split at h
  · rename_i hk
    exact hk.1
  · cases h

structure Bears (t : Token) (l : Leaf) : Prop where
  content : t.isContent = true
  leaf : t.leaf? = some l
  flat : t.IsFlat

theorem bears_name (hr : t.IsRegular) {n : String} (h : t.name? = some n) : t.Bears (.name n) := by
  have hkind := kind_of_name? h
  have hplain : t.kind.isPlain = true := by rw [hkind]; rfl
  refine ⟨by rw [isContent, hplain, Bool.true_or], ?_, isFlat_of_plain hr hplain⟩
  simp only [leaf?, hkind, h, Option.map_some]

/-- A word for a value is no name or literal. -/
theorem bears_of_isValue (hr : t.IsRegular) (hk : t.keyword.isValue = true) {l : Leaf}
    (h : (if t.keyword = .ordinal then t.ordinalValue.toOption.map Leaf.value
      else (Expr.constant? t.keyword).map .value) = some l) : t.Bears l := by
  have hne : t.keyword ≠ .unknown ∧ t.keyword ≠ .numericLiteral ∧ t.IsFlat := by
    unfold IsFlat
    generalize t.keyword = k at hk ⊢
    cases k <;> first | decide | cases hk
  have hplain := not_plain_of_keyword hr hne.1 hne.2.1
  refine ⟨by rw [isContent, hk, Bool.or_true], ?_, hne.2.2⟩
  unfold leaf?
  generalize t.kind = kind at hplain ⊢
  cases kind <;> first | exact h | cases hplain

theorem bears_value (hr : t.IsRegular) {v : Literal} (h : t.Spells v) : t.Bears (.value v) := by
  have hliteral (hplain : t.kind.isPlain = true) (hleaf : t.leaf? = some (.value v)) :
      t.Bears (.value v) :=
    ⟨by rw [isContent, hplain, Bool.true_or], hleaf, isFlat_of_plain hr hplain⟩
  cases h with
  | number hk hv => exact hliteral (by rw [hk]; rfl) (by simp only [leaf?, hk, hv]; rfl)
  | text hk hv => exact hliteral (by rw [hk]; rfl) (by simp only [leaf?, hk, hv]; rfl)
  | character hk hv => exact hliteral (by rw [hk]; rfl) (by simp only [leaf?, hk, hv]; rfl)
  | ordinal hk hv => exact bears_of_isValue hr (by rw [hk]; rfl) (by rw [if_pos hk, hv]; rfl)
  | constant hv =>
    have hk : t.keyword.isValue = true ∧ t.keyword ≠ .ordinal := by
      generalize t.keyword = k at hv ⊢
      cases k <;> first | decide | cases hv
    exact bears_of_isValue hr hk.1 (by rw [if_neg hk.2, hv]; rfl)

end Token

/-- A relation of tokens and leaves that goes through all words, names, values and parentheses. -/
structure Accounts (φ : List Token → List Leaf → Prop) : Prop where
  nil : φ [] []
  append {ts us : List Token} {ls ms : List Leaf} (h : φ ts ls) (h' : φ us ms) :
    φ (ts ++ us) (ls ++ ms)
  word {t : Token} (h : t.keyword.isMute = true) : φ [t] []
  name {t : Token} {n : String} (h : t.name? = some n) : φ [t] [.name n]
  value {t : Token} {v : Literal} (h : t.Spells v) : φ [t] [.value v]
  paren {o c : Token} {ts : List Token} {ls : List Leaf} (ho : o.keyword = .openParen)
    (hc : c.keyword = .closeParen) (h : φ ts ls) : φ (o :: (ts ++ [c])) ls

namespace Accounts

variable {φ : List Token → List Leaf → Prop} (hφ : Accounts φ) {t : Token} {ts us : List Token}
  {ls ms : List Leaf}
include hφ

theorem cons (ht : t.keyword.isMute = true) (h : φ ts ls) : φ (t :: ts) ls :=
  hφ.append (hφ.word ht) h

theorem concat (h : φ ts ls) (ht : t.keyword.isMute = true) : φ (ts ++ [t]) ls := by
  have happend := hφ.append h (hφ.word ht)
  rwa [List.append_nil] at happend

/-- A word between two runs of tokens. -/
theorem between (h : φ ts ls) (ht : t.keyword.isMute = true) (h' : φ us ms) :
    φ (ts ++ t :: us) (ls ++ ms) :=
  hφ.append h (hφ.cons ht h')

end Accounts

theorem isMute_of_keyword {t : Token} {k : Keyword} (ht : t.keyword = k) (hk : k.isMute = true) :
    t.keyword.isMute = true := by
  rw [ht, hk]

theorem isMute_of_ofKeyword? {k : Keyword} {n : TypeName} (h : TypeName.ofKeyword? k = some n) :
    k.isMute = true := by
  cases k <;> first | rfl | cases h

theorem isMute_role (op : BinaryOp) : op.role.isMute = true := by
  cases op <;> rfl

theorem isMute_unaryLead (op : UnaryOp) : (Expr.unaryLead op).isMute = true := by
  cases op <;> rfl

theorem isMute_of_isArticle {k : Keyword} (h : k.isArticle = true) : k.isMute = true := by
  cases k <;> first | rfl | cases h

namespace Expr

mutual

/-- A relation that goes through all parts of expressions holds of all that the grammar derives. -/
theorem Derives.account {φ : List Token → List Leaf → Prop} (hφ : Accounts φ) {e : Expr}
    {ts : List Token} : e.Derives ts → φ ts e.leaves
  -- Words are mute; names, values and parts follow each other as their leaves do.
  | .literal h => by
    simp only [leaves]
    exact hφ.value h
  | .identifier h => by
    simp only [leaves]
    exact hφ.name h
  | .grouping ho h hc => by
    simp only [leaves]
    exact hφ.paren ho hc (h.account hφ)
  | .article ht h => by
    rw [leaves_movedTo]
    exact hφ.cons (isMute_of_isArticle ht) (h.account hφ)
  | .emptyList ht => by
    simp only [leaves, leavesList]
    exact hφ.word (isMute_of_keyword ht rfl)
  | .list ht h => by
    simp only [leaves]
    exact hφ.cons (isMute_of_keyword ht rfl) (h.account hφ)
  | .binary hl ht hr => by
    simp only [leaves]
    exact hφ.between (hl.account hφ) (isMute_of_keyword ht (isMute_role _)) (hr.account hφ)
  | .unary ht h => by
    simp only [leaves]
    exact hφ.cons (isMute_of_keyword ht (isMute_unaryLead _)) (h.account hφ)
  | .phrase (p := p) ht hl hu hr => by
    simp only [leaves]
    refine hφ.cons (isMute_of_keyword ht (by cases p <;> rfl)) ?_
    exact hφ.between (hl.account hφ) (isMute_of_keyword hu rfl) (hr.account hφ)
  | .nullCheck h ht => by
    simp only [leaves]
    exact hφ.concat (h.account hφ) (isMute_of_keyword ht (by split <;> rfl))
  | .typeCheck h ht hu => by
    simp only [leaves]
    have hword := hφ.concat (h.account hφ) (isMute_of_keyword ht rfl)
    have htype := hφ.concat hword (isMute_of_ofKeyword? hu)
    rwa [List.append_assoc] at htype
  | .cast ht h hu hv => by
    simp only [leaves]
    have hword := hφ.concat (h.account hφ) (isMute_of_keyword hu rfl)
    have htype := hφ.concat hword (isMute_of_ofKeyword? hv)
    rw [List.append_assoc] at htype
    exact hφ.cons (isMute_of_keyword ht rfl) htype
  -- The index is written before the collection, and its leaves come first, too.
  | .index (t := t) ht hi hu hc => by
    simp only [leaves]
    have hmute : t.keyword.isMute = true := by
      rcases ht with ht | ht <;> exact isMute_of_keyword ht rfl
    exact hφ.cons hmute (hφ.between (hi.account hφ) (isMute_of_keyword hu rfl) (hc.account hφ))
  | .ordinalIndex (u := u) ht hv hu hw hc => by
    simp only [leaves]
    have hmute : u.keyword.isMute = true := by
      rcases hu with hu | hu <;> exact isMute_of_keyword hu rfl
    have hrest := hφ.cons hmute (hφ.cons (isMute_of_keyword hw rfl) (hc.account hφ))
    exact hφ.append (hφ.value (.ordinal ht hv)) hrest
  | .slice ht hc hu ha hv hb => by
    simp only [leaves]
    refine hφ.cons (isMute_of_keyword ht rfl) ?_
    refine hφ.between (hc.account hφ) (isMute_of_keyword hu rfl) ?_
    exact hφ.between (ha.account hφ) (isMute_of_keyword hv rfl) (hb.account hφ)
  | .call ht hu => by
    simp only [leaves, leavesList]
    exact hφ.cons (isMute_of_keyword ht rfl) (hφ.name hu)
  | .callWith ht hu hv h => by
    simp only [leaves]
    refine hφ.cons (isMute_of_keyword ht rfl) ?_
    exact hφ.append (hφ.name hu) (hφ.cons (isMute_of_keyword hv rfl) (h.account hφ))
  | .ternary ht h => h.account hφ fun _ hhead => isMute_of_keyword (Option.some.inj hhead ▸ ht) rfl
  | .selection ht hs hu h => by
    rw [leaves_selection]
    refine hφ.cons (isMute_of_keyword ht rfl) ?_
    exact hφ.between (hs.account hφ) (isMute_of_keyword hu rfl) (h.account hφ)
termination_by structural h => h

/-- The first token is the word in front of a conditional. -/
theorem DerivesTernary.account {φ : List Token → List Leaf → Prop} (hφ : Accounts φ) {e : Expr}
    {ts : List Token} : e.DerivesTernary ts → (∀ t ∈ ts.head?, t.keyword.isMute = true) →
      φ ts e.leaves
  | .last hc hu ha hv hb, ht => by
    simp only [leaves]
    refine hφ.cons (ht _ rfl) (hφ.between (hc.account hφ) (isMute_of_keyword hu rfl) ?_)
    exact hφ.between (ha.account hφ) (isMute_of_keyword hv rfl) (hb.account hφ)
  | .more hc hu ha hv hb, ht => by
    simp only [leaves]
    refine hφ.cons (ht _ rfl) (hφ.between (hc.account hφ) (isMute_of_keyword hu rfl) ?_)
    refine hφ.append (ha.account hφ) (hb.account hφ fun w hw => ?_)
    exact isMute_of_keyword (Option.some.inj hw ▸ hv) rfl
termination_by structural h => h

theorem DerivesArms.account {φ : List Token → List Leaf → Prop} (hφ : Accounts φ)
    {arms : List (Expr × Expr)} {d : Option Expr} {ts : List Token} :
    DerivesArms arms d ts → φ ts (leavesArms arms ++ leavesList d.toList)
  | .last hp ht hr => by
    simp only [leavesArms, leavesList, Option.toList_none, List.append_nil]
    exact hφ.between (hp.account hφ) (isMute_of_keyword ht rfl) (hr.account hφ)
  | .fallback ht hu hd => by
    simp only [leavesArms, leavesList, Option.toList_some, List.append_nil, List.nil_append]
    exact hφ.cons (isMute_of_keyword ht rfl) (hφ.cons (isMute_of_keyword hu rfl) (hd.account hφ))
  | .more (p := p) (r := r) hp ht hr hu h => by
    simp only [leavesArms]
    rw [List.append_assoc (p.leaves ++ r.leaves)]
    refine hφ.between ?_ (isMute_of_keyword hu rfl) (h.account hφ)
    exact hφ.between (hp.account hφ) (isMute_of_keyword ht rfl) (hr.account hφ)
termination_by structural h => h

theorem DerivesItems.account {φ : List Token → List Leaf → Prop} (hφ : Accounts φ)
    {es : List Expr} {ts : List Token} : DerivesItems es ts → φ ts (leavesList es)
  | .last h => by
    simp only [leavesList, List.append_nil]
    exact h.account hφ
  | .more h ht hes => by
    simp only [leavesList]
    exact hφ.between (h.account hφ) (isMute_of_keyword ht rfl) (hes.account hφ)
termination_by structural h => h

end

end Expr

section relations

variable {ts us : List Token}

/-- Brackets are none of the tokens that bear a name or a value. -/
theorem filter_bracketed {p : Token → Bool}
    (hmute : ∀ {t : Token}, t.isContent = false → p t = false) (b : Bracket) {o c : Token}
    (ho : o.keyword = b.opener) (hc : c.keyword = b.closer)
    (hr : ∀ t ∈ o :: (ts ++ [c]), t.IsRegular) :
    (o :: (ts ++ [c])).filter p = ts.filter p := by
  rw [List.forall_mem_cons, List.forall_mem_append] at hr
  have ho' := hmute (Token.isContent_of_bracket hr.1 (.inl ho))
  have hc' := hmute (Token.isContent_of_bracket (hr.2.2 c (List.mem_singleton_self c)) (.inr hc))
  simp [List.filter_append, ho', hc']

/-- The names and values are those of some tokens, in order, if all that bear one are among them and
no others. -/
theorem accounts_filter {p : Token → Bool} (hp : ∀ {t : Token} {l : Leaf}, t.Bears l → p t = true)
    (hmute : ∀ {t : Token}, t.isContent = false → p t = false) : Accounts fun ts ls =>
      (∀ t ∈ ts, t.IsRegular) → (ts.filter p).map Token.leaf? = ls.map some := by
  have hleaf {t : Token} {l : Leaf} (h : t.Bears l) :
      ([t].filter p).map Token.leaf? = [l].map some := by
    simp [hp h, h.leaf]
  constructor
  case nil => simp
  case append =>
    intro ts us ls ms h h' hr
    rw [List.forall_mem_append] at hr
    rw [List.filter_append, List.map_append, List.map_append, h hr.1, h' hr.2]
  case word =>
    intro t ht hr
    simp [hmute (Token.isContent_of_isMute (hr t (List.mem_singleton_self t)) ht)]
  case name =>
    intro t n h hr
    exact hleaf (Token.bears_name (hr t (List.mem_singleton_self t)) h)
  case value =>
    intro t v h hr
    exact hleaf (Token.bears_value (hr t (List.mem_singleton_self t)) h)
  case paren =>
    intro o c ts ls ho hc h hr
    rw [filter_bracketed hmute .paren ho hc hr]
    exact h fun t ht => hr t (List.mem_cons_of_mem o (List.mem_append_left [c] ht))

/-- The names and values are those of the tokens that stand for one, in order. -/
theorem accounts_content : Accounts fun ts ls =>
    (∀ t ∈ ts, t.IsRegular) → (ts.filter Token.isContent).map Token.leaf? = ls.map some :=
  accounts_filter (·.content) id

/-- Every bracket is closed by one of its kind. -/
theorem accounts_wellNested :
    Accounts fun ts _ => (∀ t ∈ ts, t.IsRegular) → WellNested ts := by
  constructor
  case nil => exact fun _ => .nil
  case append =>
    intro ts us ls ms h h' hr
    rw [List.forall_mem_append] at hr
    exact (h hr.1).append (h' hr.2)
  case word => exact fun ht _ => wellNested_singleton (Token.isFlat_of_isMute ht)
  case name =>
    intro t n h hr
    exact wellNested_singleton (Token.bears_name (hr t (List.mem_singleton_self t)) h).flat
  case value =>
    intro t v h hr
    exact wellNested_singleton (Token.bears_value (hr t (List.mem_singleton_self t)) h).flat
  case paren =>
    intro o c ts ls ho hc h hr
    rw [List.forall_mem_cons, List.forall_mem_append] at hr
    exact .bracket (b := .paren) ho hc (h hr.2.1) .nil

end relations

theorem Token.isInline_of_isContent {t : Token} (hr : t.IsRegular) (hflat : t.IsFlat)
    (h : t.isContent = true) : t.keyword.isInline = true := by
  apply hflat.isInline
  intro hk
  rw [isContent_of_dot hr hk] at h
  cases h

theorem Keyword.isInline_of_isMute {k : Keyword} (h : k.isMute = true) : k.isInline = true := by
  cases k <;> first | rfl | cases h

/-- Expressions are made of words, names, values and parentheses. -/
theorem accounts_inline : Accounts fun ts _ =>
    (∀ t ∈ ts, t.IsRegular) → ∀ t ∈ ts, t.keyword.isInline = true := by
  -- Of the parts of an expression only the words and the brackets are not contents.
  constructor
  case nil => simp
  case append =>
    intro ts us _ _ h h' hr
    rw [List.forall_mem_append] at hr ⊢
    exact ⟨h hr.1, h' hr.2⟩
  case word =>
    intro t ht _
    exact List.forall_mem_singleton.mpr (Keyword.isInline_of_isMute ht)
  case name =>
    intro t n h hr
    have hregular := hr t (List.mem_singleton_self t)
    have hbears := Token.bears_name hregular h
    exact List.forall_mem_singleton.mpr
      (Token.isInline_of_isContent hregular hbears.flat hbears.content)
  case value =>
    intro t v h hr
    have hregular := hr t (List.mem_singleton_self t)
    have hbears := Token.bears_value hregular h
    exact List.forall_mem_singleton.mpr
      (Token.isInline_of_isContent hregular hbears.flat hbears.content)
  case paren =>
    intro o c ts _ ho hc h hr
    rw [List.forall_mem_cons, List.forall_mem_append] at hr ⊢
    exact ⟨by rw [ho]; rfl, h hr.2.1, List.forall_mem_singleton.mpr (by rw [hc]; rfl)⟩

/-- What the cascade reads is inline. -/
theorem isInline_of_outcome {g : Grammar} {s : Slice} {rule : Expr.Rule} {e : Expr}
    (hs : ∀ t ∈ s.tokens, t.IsRegular) (h : g.outcome s = .ok (some (rule, e))) :
    IsInline s.tokens := by
  have hderives := g.derives_of_outcome h
  exact ⟨hderives.account accounts_wellNested hs, hderives.account accounts_inline hs⟩

end Prose
