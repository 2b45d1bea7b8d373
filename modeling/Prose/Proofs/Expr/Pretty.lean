import Prose.Proofs.Expr.Leaves
import Prose.Proofs.Expr.Writing
import Prose.Proofs.Number.Reading
import Prose.Proofs.Text.Outline

/-! The prefix form of an expression can be read in one way only. It is the text of an outline, and
an outline tells the expression but for its groupings and places. -/
namespace Prose

open Text (Outline Quote)

def Number.Decimal.shown? : List Char → Option Decimal
  | '-' :: cs => (Magnitude.read? cs).map (⟨true, ·⟩)
  | cs => (Magnitude.read? cs).map (⟨false, ·⟩)

/-- No two decimals look alike. -/
theorem Number.Decimal.shown?_render (d : Decimal) : shown? d.render.toList = some d := by
  obtain ⟨negative, m⟩ := d
  obtain ⟨c, cs, hcs, hc⟩ := m.exists_digits
  rw [render, String.toList_ofList]
  cases negative with
  | true => rw [if_pos rfl, shown?, m.read?_digits, Option.map_some]
  | false =>
    rw [if_neg Bool.false_ne_true, shown?, m.read?_digits, Option.map_some]
    intro ds hds
    rw [hcs] at hds
    cases hds
    cases hc

/-- A number is written with digits and a point. -/
theorem Number.Magnitude.mem_digits (a : Magnitude) {c : Char} (hc : c ∈ a.digits) :
    c.isDigit = true ∨ c = '.' := by
  rw [digits_eq, List.mem_append] at hc
  rcases hc with hc | hc
  · exact .inl (a.isDigit_padded c (List.mem_of_mem_take hc))
  · split at hc
    · cases hc
    · rcases List.mem_cons.mp hc with rfl | hc
      · exact .inr rfl
      · exact .inl (a.isDigit_padded c (List.mem_of_mem_drop hc))

namespace Expr

/-- A name is a dollar sign, a letter or an underscore, and more of them and digits. -/
theorem exists_of_isName {n : String} (h : IsName n) :
    ∃ c cs, n.toList = '$' :: c :: cs ∧ Shape.startsName c = true ∧
      ∀ d ∈ cs, (Shape.startsName d || d.isDigit) = true := by
  unfold IsName Shape.isIdentifier at h
  split at h
  · rename_i c cs hn
    rw [Bool.and_eq_true, List.all_eq_true] at h
    exact ⟨c, cs, hn, h⟩
  · cases h

inductive Symbol where
  | binary (op : BinaryOp)
  | unary (op : UnaryOp)
  | nullCheck (negated : Bool)
  | typeCheck | cast | item | slice | call | condition | selection | fallback
  | boolean (value : Bool)
  | null
  | type (t : TypeName)
  deriving DecidableEq

namespace Symbol

def text : Symbol → String
  | binary op => op.symbol
  | unary op => op.symbol
  | nullCheck negated => if negated then "not-null?" else "null?"
  | typeCheck => "is-a"
  | cast => "cast"
  | item => "item"
  | slice => "slice"
  | call => "call"
  | condition => "if"
  | selection => "match"
  | fallback => "otherwise"
  | boolean value => if value then "true" else "false"
  | null => "null"
  | type t => t.word

def all : List Symbol :=
  [.binary .add, .binary .subtract, .binary .multiply, .binary .divide, .binary .modulo,
    .binary .power, .binary .conjunction, .binary .disjunction, .binary .equal, .binary .notEqual,
    .binary .greater, .binary .less, .binary .atLeast, .binary .atMost, .binary .bitAnd,
    .binary .bitOr, .binary .bitXor, .binary .shiftLeft, .binary .shiftRight, .binary .concat,
    .binary .contains, .unary .negation, .unary .negate, .unary .bitNot, .unary .absolute,
    .unary .squareRoot, .unary .length, .nullCheck false, .nullCheck true, .typeCheck, .cast, .item,
    .slice, .call, .condition, .selection, .fallback, .boolean false, .boolean true, .null,
    .type .number, .type .text, .type .boolean, .type .character, .type .list]

def ofText? (w : List Char) : Option Symbol :=
  all.find? fun s => s.text.toList = w

theorem mem_all (s : Symbol) : s ∈ all := by
  cases s with
  | binary op => cases op <;> decide
  | unary op => cases op <;> decide
  | nullCheck b | boolean b => cases b <;> decide
  | type t => cases t <;> decide
  | _ => decide

/-- The fixed words differ from each other. -/
theorem ofText?_text (s : Symbol) : ofText? s.text.toList = some s := by
  have hall : ∀ s ∈ all, ofText? s.text.toList = some s := by decide +kernel
  exact hall s s.mem_all

theorem isWord_text (s : Symbol) : Text.isWord s.text.toList = true := by
  have hall : ∀ s ∈ all, Text.isWord s.text.toList = true := by decide +kernel
  exact hall s s.mem_all

/-- They are no names and no numbers. -/
theorem ofText?_eq_none {w : List Char}
    (h : w.head? = some '$' ∨ (Number.Decimal.shown? w).isSome = true) : ofText? w = none := by
  have hall : ∀ s ∈ all, s.text.toList.head? ≠ some '$' ∧
      Number.Decimal.shown? s.text.toList = none := by decide +kernel
  rw [ofText?, List.find?_eq_none]
  intro s hs hw
  rw [decide_eq_true_iff] at hw
  subst hw
  obtain ⟨hname, hnumber⟩ := hall s hs
  rcases h with h | h
  · exact hname h
  · rw [hnumber] at h
    cases h

end Symbol

def form (s : Symbol) (parts : List Outline) : Outline :=
  .group .round (.word s.text.toList :: parts)

def literalOutline : Literal → Outline
  | .number n => .word n.render.toList
  | .text x => .quoted .double x.toList
  | .character c => .quoted .single [c]
  | .boolean b => .word (Symbol.boolean b).text.toList
  | .null => .word Symbol.null.text.toList

mutual

def outline : Expr → Outline
  | literal _ v => literalOutline v
  | identifier _ n => .word n.toList
  | grouping _ e => outline e
  | list _ es => .group .square (outlines es)
  | binary _ l op r => form (.binary op) [outline l, outline r]
  | unary _ op e => form (.unary op) [outline e]
  | nullCheck _ e negated => form (.nullCheck negated) [outline e]
  | typeCheck _ e t => form .typeCheck [outline e, .word (Symbol.type t).text.toList]
  | cast _ e t => form .cast [outline e, .word (Symbol.type t).text.toList]
  | index _ c i => form .item [outline i, outline c]
  | slice _ c f t => form .slice [outline c, outline f, outline t]
  | call _ f args => form .call (.word f.toList :: outlines args)
  | ternary _ c t e => form .condition [outline c, outline t, outline e]
  | selection _ s arms d =>
    form .selection (outline s :: (outlineArms arms ++
      match d with
      | some e => [form .fallback [outline e]]
      | none => []))
termination_by structural e => e

def outlines : List Expr → List Outline
  | [] => []
  | e :: es => outline e :: outlines es
termination_by structural es => es

def outlineArms : List (Expr × Expr) → List Outline
  | [] => []
  | (p, r) :: arms => .group .round [outline p, outline r] :: outlineArms arms
termination_by structural arms => arms

end

section text

open Text.Outline (texts)

theorem toList_pretty_literal (v : Literal) : v.pretty.toList = (literalOutline v).text := by
  cases v with
  | number | boolean | null => rfl
  | text x => simp [Literal.pretty, literalOutline, Text.quoted, Outline.text, Quote.char]
  | character c => simp [Literal.pretty, literalOutline, Text.quoted, Outline.text, Quote.char]

theorem text_form (s : Symbol) (os : List Outline) :
    (form s os).text = '(' :: (s.text.toList ++ ((texts os).flatMap (' ' :: ·) ++ [')'])) := by
  rw [form, Outline.text, texts, Outline.intercalate_cons, List.append_assoc]
  rfl

theorem texts_append (os os' : List Outline) : texts (os ++ os') = texts os ++ texts os' := by
  induction os with
  | nil => rfl
  | cons o os ih => rw [List.cons_append, texts, texts, ih, List.cons_append]

mutual

/-- The prefix form is the text of the outline. -/
theorem toList_pretty : ∀ e : Expr, e.pretty.toList = e.outline.text
  -- By the constructors of expressions, along the outline.
  | literal _ v => toList_pretty_literal v
  | identifier _ _ => rfl
  | grouping _ e => toList_pretty e
  | list _ es => by
    simp [pretty, outline, Outline.text, ← toList_prettyList es, String.toList_intercalate,
      Text.Fence.opening, Text.Fence.closing]
  | binary _ l op r => by
    simp [pretty, outline, text_form, texts, toList_pretty l, toList_pretty r, Symbol.text]
  | unary _ op e => by
    simp [pretty, outline, text_form, texts, toList_pretty e, Symbol.text]
  | nullCheck _ e b => by
    cases b <;> simp [pretty, outline, text_form, texts, toList_pretty e, Symbol.text]
  | typeCheck _ e t => by
    simp [pretty, outline, text_form, texts, toList_pretty e, Symbol.text, Outline.text]
  | cast _ e t => by
    simp [pretty, outline, text_form, texts, toList_pretty e, Symbol.text, Outline.text]
  | index _ c i => by
    simp [pretty, outline, text_form, texts, toList_pretty c, toList_pretty i, Symbol.text]
  | slice _ c f t => by
    simp [pretty, outline, text_form, texts, toList_pretty c, toList_pretty f, toList_pretty t,
      Symbol.text]
  | call _ f args => by
    simp [pretty, outline, text_form, texts, ← toList_prettyList args, Symbol.text, Outline.text,
      String.toList_intercalate, Outline.intercalate_cons]
  | ternary _ c a b => by
    simp [pretty, outline, text_form, texts, toList_pretty c, toList_pretty a, toList_pretty b,
      Symbol.text]
  | selection _ e arms none => by
    simp [pretty, outline, text_form, texts, ← toList_prettyArms arms, toList_pretty e, Symbol.text,
      String.toList_intercalate, Outline.intercalate_cons]
  | selection _ e arms (some d) => by
    simp [pretty, outline, text_form, texts, texts_append, ← toList_prettyArms arms,
      toList_pretty e, toList_pretty d, Symbol.text, String.toList_intercalate,
      Outline.intercalate_cons]
termination_by structural e => e

/-- The prefix forms of several expressions are the texts of their outlines. -/
theorem toList_prettyList : ∀ es : List Expr,
    (prettyList es).map String.toList = texts (outlines es)
  | [] => rfl
  | e :: es => by
    rw [prettyList, outlines, texts, List.map_cons, toList_pretty e, toList_prettyList es]
termination_by structural es => es

/-- The prefix forms of arms are the texts of their outlines. -/
theorem toList_prettyArms : ∀ arms : List (Expr × Expr),
    (prettyArms arms).map String.toList = texts (outlineArms arms)
  | [] => rfl
  | (p, r) :: arms => by
    rw [prettyArms, outlineArms, texts, List.map_cons, toList_prettyArms arms]
    simp [toList_pretty p, toList_pretty r, Outline.text, texts, Text.Fence.opening,
      Text.Fence.closing]
termination_by structural arms => arms

end

end text

section bare

mutual

/-- Groupings and places leave no trace in an outline. -/
theorem outline_bare : ∀ e : Expr, e.bare.outline = e.outline
  | literal _ _ | identifier _ _ => rfl
  | grouping _ e => outline_bare e
  | list _ es => by rw [bare, outline, outline, outlines_bareList es]
  | binary _ l _ r => by rw [bare, outline, outline, outline_bare l, outline_bare r]
  | unary _ _ e | nullCheck _ e _ | typeCheck _ e _ | cast _ e _ => by
    rw [bare, outline, outline, outline_bare e]
  | index _ c i => by rw [bare, outline, outline, outline_bare c, outline_bare i]
  | slice _ a b c | ternary _ a b c => by
    rw [bare, outline, outline, outline_bare a, outline_bare b, outline_bare c]
  | call _ _ args => by rw [bare, outline, outline, outlines_bareList args]
  | selection _ e arms none => by
    simp only [bare, outline, outline_bare e, outlineArms_bareArms arms]
  | selection _ e arms (some d) => by
    simp only [bare, outline, outline_bare e, outlineArms_bareArms arms, outline_bare d]
termination_by structural e => e

theorem outlines_bareList : ∀ es : List Expr, outlines (bareList es) = outlines es
  | [] => rfl
  | e :: es => by rw [bareList, outlines, outlines, outline_bare e, outlines_bareList es]
termination_by structural es => es

theorem outlineArms_bareArms : ∀ arms : List (Expr × Expr),
    outlineArms (bareArms arms) = outlineArms arms
  | [] => rfl
  | (p, r) :: arms => by
    rw [bareArms, outlineArms, outlineArms, outline_bare p, outline_bare r,
      outlineArms_bareArms arms]
termination_by structural arms => arms

end

end bare

section readability

open Text.Outline (AreReadable)

def AreNames (ls : List Leaf) : Prop :=
  ∀ n, Leaf.name n ∈ ls → IsName n

theorem areNames_append {ls ms : List Leaf} : AreNames (ls ++ ms) ↔ AreNames ls ∧ AreNames ms := by
  simp only [AreNames, List.mem_append, or_imp, forall_and]

theorem areNames_name_cons {n : String} {ls : List Leaf} :
    AreNames (.name n :: ls) ↔ IsName n ∧ AreNames ls := by
  simp [AreNames, or_imp, forall_and]

/-- Letters, digits and what else names and numbers are made of make up words. -/
theorem isWord_of_forall {cs : List Char} (hne : cs ≠ [])
    (h : ∀ c ∈ cs, (Shape.startsName c || c.isDigit || c ∈ ['$', '.', '-']) = true) :
    Text.isWord cs = true := by
  have hplain : ∀ c ∈ cs, c ∉ ['"', '\'', ' ', '(', ')', '[', ']'] := by
    intro c hc hmem
    have hallowed := h c hc
    simp only [List.mem_cons, List.not_mem_nil, or_false] at hmem
    rcases hmem with rfl | rfl | rfl | rfl | rfl | rfl | rfl <;> exact absurd hallowed (by decide)
  obtain ⟨c, cs, rfl⟩ := List.exists_cons_of_ne_nil hne
  have hc := hplain c (List.mem_cons_self ..)
  simp only [List.mem_cons, not_or] at hc
  simp only [Text.isWord, Bool.and_eq_true, bne_iff_ne, List.all_eq_true]
  refine ⟨⟨hc.1, hc.2.1⟩, fun d hd => ?_⟩
  have hd := hplain d hd
  simp only [List.mem_cons, not_or] at hd
  simp [Text.isDelimiter, hd]

theorem isWord_name {n : String} (h : IsName n) : Text.isWord n.toList = true := by
  obtain ⟨c, cs, hn, hc, hcs⟩ := exists_of_isName h
  rw [hn]
  refine isWord_of_forall (List.cons_ne_nil _ _) ?_
  rw [List.forall_mem_cons, List.forall_mem_cons]
  refine ⟨rfl, by rw [hc]; rfl, fun d hd => by rw [hcs d hd, Bool.true_or]⟩

theorem isWord_render (d : Number.Decimal) : Text.isWord d.render.toList = true := by
  have hdigits : ∀ c ∈ d.magnitude.digits,
      (Shape.startsName c || c.isDigit || c ∈ ['$', '.', '-']) = true := by
    intro c hc
    rcases d.magnitude.mem_digits hc with hdigit | rfl
    · rw [hdigit, Bool.or_true, Bool.true_or]
    · decide
  obtain ⟨c, cs, hcs, -⟩ := d.magnitude.exists_digits
  have hne : d.magnitude.digits ≠ [] := by
    rw [hcs]
    exact List.cons_ne_nil c cs
  rw [Number.Decimal.render, String.toList_ofList]
  split
  · exact isWord_of_forall (List.cons_ne_nil _ _) (List.forall_mem_cons.mpr ⟨rfl, hdigits⟩)
  · exact isWord_of_forall hne hdigits

theorem isReadable_literal (v : Literal) : (literalOutline v).IsReadable := by
  cases v with
  | number d => exact isWord_render d
  | text _ | character _ => trivial
  | boolean b => exact (Symbol.boolean b).isWord_text
  | null => exact Symbol.null.isWord_text

theorem isReadable_form {s : Symbol} {os : List Outline} (h : AreReadable os) :
    (form s os).IsReadable :=
  ⟨s.isWord_text, h⟩

theorem areReadable_append {os os' : List Outline} (h : AreReadable os) (h' : AreReadable os') :
    AreReadable (os ++ os') := by
  induction os with
  | nil => exact h'
  | cons o os ih => exact ⟨h.1, ih h.2⟩

mutual

/-- The outline of an expression with well-formed names is readable. -/
theorem isReadable_outline : ∀ e : Expr, AreNames e.leaves → e.outline.IsReadable
  -- By the constructors of expressions: names are words since they are well-formed, symbols always.
  | literal _ v, _ => isReadable_literal v
  | identifier _ n, h => isWord_name (h n (List.mem_singleton_self _))
  | grouping _ e, h => isReadable_outline e h
  | list _ es, h => areReadable_outlines es h
  | binary _ l _ r, h => by
    obtain ⟨hl, hr⟩ := areNames_append.mp h
    exact isReadable_form ⟨isReadable_outline l hl, isReadable_outline r hr, trivial⟩
  | unary _ _ e, h | nullCheck _ e _, h => isReadable_form ⟨isReadable_outline e h, trivial⟩
  | typeCheck _ e t, h | cast _ e t, h =>
    isReadable_form ⟨isReadable_outline e h, (Symbol.type t).isWord_text, trivial⟩
  | index _ c i, h => by
    obtain ⟨hi, hc⟩ := areNames_append.mp h
    exact isReadable_form ⟨isReadable_outline i hi, isReadable_outline c hc, trivial⟩
  | slice _ a b c, h | ternary _ a b c, h => by
    obtain ⟨ha, h⟩ := areNames_append.mp h
    obtain ⟨hb, hc⟩ := areNames_append.mp h
    exact isReadable_form
      ⟨isReadable_outline a ha, isReadable_outline b hb, isReadable_outline c hc, trivial⟩
  | call _ f args, h => by
    obtain ⟨hf, hargs⟩ := areNames_name_cons.mp h
    exact isReadable_form ⟨isWord_name hf, areReadable_outlines args hargs⟩
  | selection _ e arms none, h => by
    obtain ⟨he, h⟩ := areNames_append.mp h
    obtain ⟨harms, -⟩ := areNames_append.mp h
    exact isReadable_form ⟨isReadable_outline e he,
      areReadable_append (areReadable_outlineArms arms harms) trivial⟩
  | selection _ e arms (some d), h => by
    obtain ⟨he, h⟩ := areNames_append.mp h
    obtain ⟨harms, hd⟩ := areNames_append.mp h
    exact isReadable_form ⟨isReadable_outline e he,
      areReadable_append (areReadable_outlineArms arms harms)
        ⟨isReadable_form ⟨isReadable_outline d hd, trivial⟩, trivial⟩⟩
termination_by structural e => e

theorem areReadable_outlines : ∀ es : List Expr, AreNames (leavesList es) →
    AreReadable (outlines es)
  | [], _ => trivial
  | e :: es, h => by
    obtain ⟨he, hes⟩ := areNames_append.mp h
    exact ⟨isReadable_outline e he, areReadable_outlines es hes⟩
termination_by structural es => es

theorem areReadable_outlineArms : ∀ arms : List (Expr × Expr), AreNames (leavesArms arms) →
    AreReadable (outlineArms arms)
  | [], _ => trivial
  | (p, r) :: arms, h => by
    obtain ⟨hpair, harms⟩ := areNames_append.mp h
    obtain ⟨hp, hr⟩ := areNames_append.mp hpair
    exact ⟨⟨isReadable_outline p hp, isReadable_outline r hr, trivial⟩,
      areReadable_outlineArms arms harms⟩
termination_by structural arms => arms

end

end readability

inductive Part where
  | symbol (s : Symbol)
  | whole (e : Expr)
  | arm (pattern result : Expr)
  | fallback (e : Expr)
  | other

namespace Part

def whole? : Part → Option Expr
  | whole e => some e
  | _ => none

def arm? : Part → Option (Expr × Expr)
  | arm p r => some (p, r)
  | _ => none

def fallback? : Part → Option Expr
  | fallback e => some e
  | _ => none

def ofSymbol : Symbol → Part
  | .boolean b => whole (.literal .unknown (.boolean b))
  | .null => whole (.literal .unknown .null)
  | s => symbol s

def ofWord (w : List Char) : Part :=
  match Symbol.ofText? w with
  | some s => ofSymbol s
  | none =>
    if w.head? = some '$' then whole (.identifier .unknown (String.ofList w))
    else
      match Number.Decimal.shown? w with
      | some d => whole (.literal .unknown (.number d))
      | none => other

def ofQuoted : Quote → List Char → Part
  | .double, cs => whole (.literal .unknown (.text (String.ofList cs)))
  | .single, [c] => whole (.literal .unknown (.character c))
  | .single, _ => other

/-- The parts between parentheses, put together as the first one says. An arm has no fixed word in
front of it. -/
def ofForm : List Part → Part
  | [symbol (.binary op), whole l, whole r] => whole (.binary .unknown l op r)
  | [symbol (.unary op), whole e] => whole (.unary .unknown op e)
  | [symbol (.nullCheck negated), whole e] => whole (.nullCheck .unknown e negated)
  | [symbol .typeCheck, whole e, symbol (.type t)] => whole (.typeCheck .unknown e t)
  | [symbol .cast, whole e, symbol (.type t)] => whole (.cast .unknown e t)
  | [symbol .item, whole i, whole c] => whole (.index .unknown c i)
  | [symbol .slice, whole c, whole f, whole t] => whole (.slice .unknown c f t)
  -- How many arguments and arms there are only the end of the parentheses says.
  | symbol .call :: whole (.identifier _ f) :: args =>
    whole (.call .unknown f (args.filterMap whole?))
  | [symbol .condition, whole c, whole t, whole e] => whole (.ternary .unknown c t e)
  | symbol .selection :: whole e :: parts =>
    whole (.selection .unknown e (parts.filterMap arm?) (parts.findSome? fallback?))
  | [symbol .fallback, whole e] => fallback e
  | [whole p, whole r] => arm p r
  | _ => other

mutual

def ofOutline : Outline → Part
  | .word w => ofWord w
  | .quoted q cs => ofQuoted q cs
  | .group .round os => ofForm (ofOutlines os)
  | .group .square os => whole (.list .unknown ((ofOutlines os).filterMap whole?))
termination_by structural o => o

def ofOutlines : List Outline → List Part
  | [] => []
  | o :: os => ofOutline o :: ofOutlines os
termination_by structural os => os

end

theorem ofWord_text (s : Symbol) : ofWord s.text.toList = ofSymbol s := by
  rw [ofWord, s.ofText?_text]

theorem ofWord_name {n : String} (h : IsName n) :
    ofWord n.toList = whole (.identifier .unknown n) := by
  obtain ⟨c, cs, hn, -⟩ := exists_of_isName h
  have hhead : n.toList.head? = some '$' := by rw [hn]; rfl
  rw [ofWord, Symbol.ofText?_eq_none (.inl hhead)]
  simp only [if_pos hhead, String.ofList_toList]

theorem ofWord_render (d : Number.Decimal) :
    ofWord d.render.toList = whole (.literal .unknown (.number d)) := by
  have hshown := d.shown?_render
  have hhead : d.render.toList.head? ≠ some '$' := by
    intro hhead
    obtain ⟨cs, hcs⟩ := List.head?_eq_some_iff.mp hhead
    rw [hcs] at hshown
    cases hshown
  rw [ofWord, Symbol.ofText?_eq_none (.inr (by rw [hshown]; rfl))]
  simp only [if_neg hhead, hshown]

theorem ofOutline_literal (v : Literal) :
    ofOutline (literalOutline v) = whole (.literal .unknown v) := by
  cases v with
  | number d => exact ofWord_render d
  | text x => simp [literalOutline, ofOutline, ofQuoted]
  | character c => rfl
  | boolean b => exact ofWord_text (.boolean b)
  | null => exact ofWord_text .null

theorem ofOutlines_append (os os' : List Outline) :
    ofOutlines (os ++ os') = ofOutlines os ++ ofOutlines os' := by
  induction os with
  | nil => rfl
  | cons o os ih => rw [List.cons_append, ofOutlines, ofOutlines, ih, List.cons_append]

/-- There is no fallback among arms. -/
theorem findSome?_fallback?_arms (arms : List (Expr × Expr)) :
    (arms.map fun a => arm a.1 a.2).findSome? fallback? = none := by
  induction arms with
  | nil => rfl
  | cons a arms ih => exact ih

theorem ofOutline_form (s : Symbol) (os : List Outline) :
    ofOutline (form s os) = ofForm (ofSymbol s :: ofOutlines os) := by
  rw [form, ofOutline, ofOutlines, ofOutline, ofWord_text]

mutual

/-- The outline of an expression with well-formed names stands for its bare form. -/
theorem ofOutline_outline : ∀ e : Expr, AreNames e.leaves → ofOutline e.outline = whole e.bare
  -- By the constructors of expressions: the symbol in front tells what the items stand for.
  | literal _ v, _ => ofOutline_literal v
  | identifier _ n, h => ofWord_name (h n (List.mem_singleton_self _))
  | grouping _ e, h => ofOutline_outline e h
  | list _ es, h => by
    rw [outline, ofOutline, ofOutlines_outlines es h, bare]
    simp [List.filterMap_map, Function.comp_def, whole?]
  | binary _ l _ r, h => by
    obtain ⟨hl, hr⟩ := areNames_append.mp h
    simp only [outline, ofOutline_form, ofOutlines, ofOutline_outline l hl, ofOutline_outline r hr]
    rfl
  | unary _ _ e, h | nullCheck _ e _, h => by
    simp only [outline, ofOutline_form, ofOutlines, ofOutline_outline e h]
    rfl
  | typeCheck _ e t, h | cast _ e t, h => by
    simp only [outline, ofOutline_form, ofOutlines, ofOutline_outline e h, ofOutline, ofWord_text]
    rfl
  | index _ c i, h => by
    obtain ⟨hi, hc⟩ := areNames_append.mp h
    simp only [outline, ofOutline_form, ofOutlines, ofOutline_outline i hi, ofOutline_outline c hc]
    rfl
  | slice _ a b c, h | ternary _ a b c, h => by
    obtain ⟨ha, h⟩ := areNames_append.mp h
    obtain ⟨hb, hc⟩ := areNames_append.mp h
    simp only [outline, ofOutline_form, ofOutlines, ofOutline_outline a ha, ofOutline_outline b hb,
      ofOutline_outline c hc]
    rfl
  | call _ f args, h => by
    obtain ⟨hf, hargs⟩ := areNames_name_cons.mp h
    simp only [outline, ofOutline_form, ofOutlines, ofOutline, ofWord_name hf,
      ofOutlines_outlines args hargs, bare]
    simp [ofSymbol, ofForm, List.filterMap_map, Function.comp_def, whole?]
  -- A default is one more item behind the arms.
  | selection _ e arms none, h => by
    obtain ⟨he, h⟩ := areNames_append.mp h
    obtain ⟨harms, -⟩ := areNames_append.mp h
    simp only [outline, ofOutline_form, ofOutlines, ofOutline_outline e he, List.append_nil,
      ofOutlines_outlineArms arms harms, bare]
    simp [ofSymbol, ofForm, List.filterMap_map, Function.comp_def, arm?, findSome?_fallback?_arms]
  | selection _ e arms (some d), h => by
    obtain ⟨he, h⟩ := areNames_append.mp h
    obtain ⟨harms, hd⟩ := areNames_append.mp h
    simp only [outline, ofOutline_form, ofOutlines, ofOutline_outline e he, ofOutlines_append,
      ofOutlines_outlineArms arms harms, ofOutline_outline d hd, bare]
    simp [ofSymbol, ofForm, List.filterMap_map, Function.comp_def, arm?, fallback?,
      findSome?_fallback?_arms]
termination_by structural e => e

theorem ofOutlines_outlines : ∀ es : List Expr, AreNames (leavesList es) →
    ofOutlines (outlines es) = (bareList es).map whole
  | [], _ => rfl
  | e :: es, h => by
    obtain ⟨he, hes⟩ := areNames_append.mp h
    rw [outlines, ofOutlines, ofOutline_outline e he, ofOutlines_outlines es hes, bareList,
      List.map_cons]
termination_by structural es => es

theorem ofOutlines_outlineArms : ∀ arms : List (Expr × Expr), AreNames (leavesArms arms) →
    ofOutlines (outlineArms arms) = (bareArms arms).map fun a => arm a.1 a.2
  | [], _ => rfl
  | (p, r) :: arms, h => by
    obtain ⟨hpair, harms⟩ := areNames_append.mp h
    obtain ⟨hp, hr⟩ := areNames_append.mp hpair
    rw [outlineArms, ofOutlines, ofOutline, ofOutlines, ofOutlines, ofOutlines,
      ofOutline_outline p hp, ofOutline_outline r hr, ofOutlines_outlineArms arms harms, bareArms,
      List.map_cons]
    rfl
termination_by structural arms => arms

end

end Part

/-- Two expressions whose names are well formed have one prefix form just if they are equal but for
groupings and places. Decimals that look alike are equal, zeros with a sign and trailing places
included. -/
theorem pretty_eq_iff_bare_eq {e e' : Expr} (hnames : ∀ n, Leaf.name n ∈ e.leaves → IsName n)
    (hnames' : ∀ n, Leaf.name n ∈ e'.leaves → IsName n) :
    e.pretty = e'.pretty ↔ e.bare = e'.bare := by
  constructor
  · intro h
    have htext : e.outline.text = e'.outline.text := by
      rw [← toList_pretty e, ← toList_pretty e', h]
    have houtline := Outline.text_inj (isReadable_outline e hnames)
      (isReadable_outline e' hnames') htext
    have hparts := Part.ofOutline_outline e hnames
    rw [houtline, Part.ofOutline_outline e' hnames'] at hparts
    exact (Part.whole.inj hparts).symm
  · intro h
    apply String.toList_inj.mp
    rw [toList_pretty, toList_pretty, ← outline_bare e, ← outline_bare e', h]

/-- A name and a text that looks like the end of a call and the beginning of another one. -/
def quotedCall : Expr :=
  .call .unknown "$f" [.identifier .unknown "$a", .literal .unknown (.text ") (call $g \"")]

def groupedCall (p : Position) : Expr :=
  .call p "$f" [.grouping p (.identifier p "$a"), .literal p (.text ") (call $g \"")]

/-- The quotes of the text keep it apart from the brackets around it. -/
theorem pretty_eq_iff_bare_eq_quotedCall :
    (∀ n, Leaf.name n ∈ quotedCall.leaves → IsName n) ∧
      (∀ n, Leaf.name n ∈ (groupedCall ⟨1, 1, "t"⟩).leaves → IsName n) ∧
        quotedCall.pretty = "(call $f $a \") (call $g \\\"\")" ∧
          (quotedCall.pretty = (groupedCall ⟨1, 1, "t"⟩).pretty ↔
            quotedCall.bare = (groupedCall ⟨1, 1, "t"⟩).bare) := by
  have hnames : ∀ n, Leaf.name n ∈ quotedCall.leaves → IsName n := by
    intro n hn
    simp only [quotedCall, leaves, leavesList, List.mem_append, List.mem_cons, Leaf.name.injEq,
      List.not_mem_nil, or_false, reduceCtorEq] at hn
    rcases hn with rfl | rfl <;> decide
  have hnames' : ∀ n, Leaf.name n ∈ (groupedCall ⟨1, 1, "t"⟩).leaves → IsName n := hnames
  exact ⟨hnames, hnames', by decide, pretty_eq_iff_bare_eq hnames hnames'⟩

end Expr

end Prose
