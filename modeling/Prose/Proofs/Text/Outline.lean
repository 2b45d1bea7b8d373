import Mathlib.Data.List.TakeWhile
import Prose.Text.Quoted
import Prose.Token.Value

/-! Trees of words, texts in quotes and groups between brackets, and the one text of each. Whatever
stands behind such a text, it tells where it ends and which tree it was written from. -/
namespace Prose.Text

/-- A run ends in front of what does not belong to it. -/
theorem run_append_inj {α : Type} {p : α → Bool} {xs ys rest rest' : List α}
    (hxs : ∀ x ∈ xs, p x = true) (hys : ∀ y ∈ ys, p y = true)
    (hrest : ∀ x ∈ rest.head?, p x = false) (hrest' : ∀ x ∈ rest'.head?, p x = false)
    (h : xs ++ rest = ys ++ rest') : xs = ys ∧ rest = rest' := by
  have hstop {l : List α} (hl : ∀ x ∈ l.head?, p x = false) : l.takeWhile p = [] := by
    cases l with
    | nil => rfl
    | cons x l => exact List.takeWhile_cons_of_neg (by rw [hl x rfl]; exact Bool.false_ne_true)
  have hrun := congrArg (List.takeWhile p) h
  rw [List.takeWhile_append_of_pos hxs, List.takeWhile_append_of_pos hys, hstop hrest,
    hstop hrest', List.append_nil, List.append_nil] at hrun
  subst hrun
  exact ⟨rfl, List.append_cancel_left h⟩

section hexadecimal

theorem toDigits_sixteen (n : ℕ) :
    Nat.toDigits 16 n =
      (if n < 16 then [] else Nat.toDigits 16 (n / 16)) ++ [(n % 16).digitChar] := by
  rw [Nat.toDigits_eq_if (by decide)]
  split
  · rename_i h
    rw [Nat.mod_eq_of_lt h, List.nil_append]
  · rfl

theorem digitChar_inj : ∀ m < 16, ∀ n < 16, Nat.digitChar m = Nat.digitChar n → m = n := by
  decide

/-- Numbers with the same digits are equal. -/
theorem toDigits_sixteen_inj (m n : ℕ) (h : Nat.toDigits 16 m = Nat.toDigits 16 n) : m = n := by
  -- The last digit is the remainder, and the digits in front of it are those of the quotient.
  induction m using Nat.strongRecOn generalizing n with
  | ind m ih =>
    rw [toDigits_sixteen m, toDigits_sixteen n, List.append_singleton_inj] at h
    have hlast := digitChar_inj _ (Nat.mod_lt m (by decide)) _ (Nat.mod_lt n (by decide)) h.2
    have hfront := h.1
    split at hfront <;> split at hfront
    · omega
    · exact absurd hfront.symm Nat.toDigits_ne_nil
    · exact absurd hfront Nat.toDigits_ne_nil
    · have hquotient := ih (m / 16) (by omega) (n / 16) hfront
      omega

/-- No digit closes a brace. -/
theorem ne_brace_of_mem_toDigits (n : ℕ) : ∀ c ∈ Nat.toDigits 16 n, c ≠ '\x7d' := by
  induction n using Nat.strongRecOn with
  | ind n ih =>
    rw [toDigits_sixteen, List.forall_mem_append, List.forall_mem_singleton]
    refine ⟨?_, Nat.digitChar_ne _ rfl⟩
    split
    · exact fun _ hc => absurd hc List.not_mem_nil
    · exact ih (n / 16) (by omega)

theorem numericEscape_append_inj {c d : Char} {rest rest' : List Char}
    (h : numericEscape c ++ rest = numericEscape d ++ rest') : c = d ∧ rest = rest' := by
  simp only [numericEscape, List.append_assoc, List.cons_append, List.nil_append, List.cons.injEq,
    true_and] at h
  have hdigits (n : ℕ) : ∀ x ∈ Nat.toDigits 16 n, (x != '\x7d') = true :=
    fun x hx => bne_iff_ne.mpr (ne_brace_of_mem_toDigits n x hx)
  obtain ⟨hcode, hrest⟩ :=
    run_append_inj (hdigits _) (hdigits _) (by simp) (by simp) h
  exact ⟨Char.toNat_inj.mp (toDigits_sixteen_inj _ _ hcode), (List.cons.inj hrest).2⟩

end hexadecimal

inductive Quote where
  | double | single

namespace Quote

def char : Quote → Char
  | double => '"'
  | single => '\''

theorem char_inj {q r : Quote} (h : q.char = r.char) : q = r := by
  cases q <;> cases r <;> first | rfl | exact absurd h (by decide)

theorem char_ne_backslash (q : Quote) : q.char ≠ '\\' := by
  cases q <;> decide

end Quote

/-- What stands between quotes for a character: the character itself, a backslash with a letter or
a mark that is known, or its number. -/
inductive IsEscape (q : Quote) : Char → List Char → Prop
  | plain {c : Char} (hslash : c ≠ '\\') (hquote : c ≠ q.char) : IsEscape q c [c]
  | short {c x : Char} (h : unescapeChar? x = some c) : IsEscape q c ['\\', x]
  | numeric (c : Char) : IsEscape q c (numericEscape c)

section escapes

variable {q : Quote} {c d : Char} {es fs rest rest' : List Char}

theorem isEscape_escapeChar (q : Quote) (c : Char) : IsEscape q c (escapeChar q.char c) := by
  fun_cases escapeChar q.char c with
  | case1 | case2 | case3 | case4 =>
    subst_vars
    exact .short rfl
  | case5 _ _ _ _ h =>
    rw [Bool.or_eq_true, decide_eq_true_iff, decide_eq_true_iff] at h
    refine .short ?_
    rcases h with rfl | rfl
    · cases q <;> rfl
    · rfl
  | case6 => exact .numeric c
  | case7 _ _ _ _ h =>
    rw [Bool.or_eq_true, decide_eq_true_iff, decide_eq_true_iff, not_or] at h
    exact .plain h.2 h.1

/-- An escape does not begin with the quote. -/
theorem IsEscape.append_ne (h : IsEscape q c es) : es ++ rest ≠ q.char :: rest' := by
  intro he
  cases h with
  | plain _ hquote => exact hquote (List.cons.inj he).1
  | short _ => exact q.char_ne_backslash (List.cons.inj he).1.symm
  | numeric => exact q.char_ne_backslash (List.cons.inj he).1.symm

/-- Escapes can be told apart, whatever follows them. -/
theorem IsEscape.append_inj (hc : IsEscape q c es) (hd : IsEscape q d fs)
    (h : es ++ rest = fs ++ rest') : c = d ∧ rest = rest' := by
  -- The letter of a number stands for no character.
  have hunknown {x : Char} (hx : unescapeChar? x = some c ∨ unescapeChar? x = some d) :
      x ≠ 'u' := by
    rintro rfl
    rcases hx with hx | hx <;> cases hx
  cases hc with
  | plain hslash _ =>
    cases hd with
    | plain => exact List.cons.inj h
    | short | numeric => exact absurd (List.cons.inj h).1 hslash
  | short hx =>
    cases hd with
    | plain hslash _ => exact absurd (List.cons.inj h).1.symm hslash
    | short hy =>
      obtain ⟨-, htail⟩ := List.cons.inj h
      obtain ⟨rfl, hrest⟩ := List.cons.inj htail
      exact ⟨Option.some.inj (hx.symm.trans hy), hrest⟩
    | numeric => exact absurd (List.cons.inj (List.cons.inj h).2).1 (hunknown (.inl hx))
  | numeric =>
    cases hd with
    | plain hslash _ => exact absurd (List.cons.inj h).1.symm hslash
    | short hy => exact absurd (List.cons.inj (List.cons.inj h).2).1.symm (hunknown (.inr hy))
    | numeric => exact numericEscape_append_inj h

/-- The closing quote is the first one that no escape contains. -/
theorem escapes_append_inj {cs ds : List Char}
    (h : cs.flatMap (escapeChar q.char) ++ q.char :: rest =
      ds.flatMap (escapeChar q.char) ++ q.char :: rest') : cs = ds ∧ rest = rest' := by
  induction cs generalizing ds with
  | nil =>
    cases ds with
    | nil => exact ⟨rfl, (List.cons.inj h).2⟩
    | cons d ds =>
      rw [List.flatMap_cons, List.append_assoc] at h
      exact absurd h.symm (isEscape_escapeChar q d).append_ne
  | cons c cs ih =>
    cases ds with
    | nil =>
      rw [List.flatMap_cons, List.append_assoc] at h
      exact absurd h (isEscape_escapeChar q c).append_ne
    | cons d ds =>
      rw [List.flatMap_cons, List.flatMap_cons, List.append_assoc, List.append_assoc] at h
      obtain ⟨rfl, htail⟩ := (isEscape_escapeChar q c).append_inj (isEscape_escapeChar q d) h
      obtain ⟨rfl, hrest⟩ := ih htail
      exact ⟨rfl, hrest⟩

end escapes

inductive Fence where
  | round | square

namespace Fence

def opening : Fence → Char
  | round => '('
  | square => '['

def closing : Fence → Char
  | round => ')'
  | square => ']'

theorem opening_inj {f g : Fence} (h : f.opening = g.opening) : f = g := by
  cases f <;> cases g <;> first | rfl | exact absurd h (by decide)

theorem closing_ne_blank (f : Fence) : f.closing ≠ ' ' := by
  cases f <;> decide

end Fence

def isDelimiter (c : Char) : Bool :=
  c ∈ [' ', '(', ')', '[', ']']

def isWord : List Char → Bool
  | [] => false
  | c :: cs => c != '"' && c != '\'' && (c :: cs).all fun d => !isDelimiter d

def IsDelimited (rest : List Char) : Prop :=
  ∀ c ∈ rest.head?, isDelimiter c = true

inductive Outline where
  | word (text : List Char)
  | quoted (quote : Quote) (text : List Char)
  | group (fence : Fence) (parts : List Outline)

namespace Outline

mutual

def text : Outline → List Char
  | word cs => cs
  | quoted q cs => q.char :: (cs.flatMap (escapeChar q.char) ++ [q.char])
  | group f os => f.opening :: ([' '].intercalate (texts os) ++ [f.closing])
termination_by structural o => o

def texts : List Outline → List (List Char)
  | [] => []
  | o :: os => text o :: texts os
termination_by structural os => os

end

mutual

def IsReadable : Outline → Prop
  | word cs => isWord cs = true
  | quoted _ _ => True
  | group _ os => AreReadable os
termination_by structural o => o

def AreReadable : List Outline → Prop
  | [] => True
  | o :: os => IsReadable o ∧ AreReadable os
termination_by structural os => os

end

section readability

variable {f : Fence} {c : Char} {cs ds rest rest' : List Char}

theorem isDelimited_closing (f : Fence) (rest : List Char) : IsDelimited (f.closing :: rest) := by
  intro c hc
  cases hc
  cases f <;> rfl

theorem isDelimited_parts (f : Fence) (ts : List (List Char)) (rest : List Char) :
    IsDelimited (ts.flatMap (' ' :: ·) ++ f.closing :: rest) := by
  cases ts with
  | nil => exact isDelimited_closing f rest
  | cons t ts =>
    intro c hc
    cases hc
    rfl

/-- A word ends in front of the first blank or bracket. -/
theorem word_append_inj (hcs : isWord cs = true) (hds : isWord ds = true)
    (hrest : IsDelimited rest) (hrest' : IsDelimited rest') (h : cs ++ rest = ds ++ rest') :
    cs = ds ∧ rest = rest' := by
  have hplain {es : List Char} (hes : isWord es = true) : ∀ c ∈ es, (!isDelimiter c) = true := by
    cases es with
    | nil => cases hes
    | cons e es =>
      rw [isWord, Bool.and_eq_true, List.all_eq_true] at hes
      exact hes.2
  have hstop {es : List Char} (hes : IsDelimited es) :
      ∀ c ∈ es.head?, (!isDelimiter c) = false :=
    fun c hc => by rw [hes c hc, Bool.not_true]
  exact run_append_inj (hplain hcs) (hplain hds) (hstop hrest) (hstop hrest') h

theorem word_append_ne (hcs : isWord cs = true) (hc : ∀ ds, isWord (c :: ds) = false) :
    cs ++ rest ≠ c :: rest' := by
  intro h
  cases cs with
  | nil => cases hcs
  | cons d cs =>
    obtain ⟨rfl, -⟩ := List.cons.inj h
    rw [hc cs] at hcs
    cases hcs

theorem not_isWord_quote (q : Quote) (cs : List Char) : isWord (q.char :: cs) = false := by
  cases q <;> rfl

theorem not_isWord_opening (f : Fence) (cs : List Char) : isWord (f.opening :: cs) = false := by
  cases f <;> rfl

theorem not_isWord_closing (f : Fence) (cs : List Char) : isWord (f.closing :: cs) = false := by
  cases f <;> rfl

theorem char_ne_opening (q : Quote) (f : Fence) : q.char ≠ f.opening := by
  cases q <;> cases f <;> decide

/-- No outline begins with a closing bracket. -/
theorem text_append_ne_closing {o : Outline} (h : o.IsReadable) :
    o.text ++ rest ≠ f.closing :: rest' := by
  cases o with
  | word cs => exact word_append_ne h (not_isWord_closing f)
  | quoted q cs =>
    intro he
    have hfirst := (List.cons.inj he).1
    cases q <;> cases f <;> cases hfirst
  | group g os =>
    intro he
    have hfirst := (List.cons.inj he).1
    cases g <;> cases f <;> cases hfirst

theorem intercalate_cons (t : List Char) (ts : List (List Char)) :
    [' '].intercalate (t :: ts) = t ++ ts.flatMap (' ' :: ·) := by
  induction ts generalizing t with
  | nil => simp
  | cons u ts ih => rw [List.intercalate_cons_cons, ih, List.flatMap_cons]; simp

mutual

/-- The text of a readable outline tells where it ends, and which outline it was written from. -/
theorem text_append_inj : ∀ (o o' : Outline) {rest rest' : List Char}, o.IsReadable →
    o'.IsReadable → IsDelimited rest → IsDelimited rest' → o.text ++ rest = o'.text ++ rest' →
    o = o' ∧ rest = rest'
  | word cs, word ds, _, _, ho, ho', hrest, hrest', h => by
    obtain ⟨rfl, hr⟩ := word_append_inj ho ho' hrest hrest' h
    exact ⟨rfl, hr⟩
  | word cs, quoted q ds, _, _, ho, _, _, _, h => by
    exact absurd h (word_append_ne ho (not_isWord_quote q))
  | word cs, group f os, _, _, ho, _, _, _, h => by
    exact absurd h (word_append_ne ho (not_isWord_opening f))
  | quoted q cs, word ds, _, _, _, ho', _, _, h => by
    exact absurd h.symm (word_append_ne ho' (not_isWord_quote q))
  | quoted q cs, quoted q' ds, _, _, _, _, _, _, h => by
    rw [text, text, List.cons_append, List.cons_append, List.cons.injEq] at h
    obtain ⟨hq, h⟩ := h
    obtain rfl := Quote.char_inj hq
    rw [List.append_assoc, List.append_assoc] at h
    obtain ⟨rfl, hr⟩ := escapes_append_inj h
    exact ⟨rfl, hr⟩
  | quoted q cs, group f os, _, _, _, _, _, _, h => by
    exact absurd (List.cons.inj h).1 (char_ne_opening q f)
  | group f os, word ds, _, _, _, ho', _, _, h => by
    exact absurd h.symm (word_append_ne ho' (not_isWord_opening f))
  | group f os, quoted q ds, _, _, _, _, _, _, h => by
    exact absurd (List.cons.inj h).1.symm (char_ne_opening q f)
  | group f os, group f' os', _, _, ho, ho', _, _, h => by
    rw [text, text, List.cons_append, List.cons_append, List.cons.injEq] at h
    obtain ⟨hf, h⟩ := h
    obtain rfl := Fence.opening_inj hf
    rw [List.append_assoc, List.append_assoc] at h
    -- The first part has no blank in front of it, and there may be no part at all.
    match os, os' with
    | [], [] => exact ⟨rfl, (List.cons.inj h).2⟩
    | [], o' :: os' =>
      rw [texts, texts, intercalate_cons, List.append_assoc] at h
      exact absurd h.symm (text_append_ne_closing ho'.1)
    | o :: os, [] =>
      rw [texts, texts, intercalate_cons, List.append_assoc] at h
      exact absurd h (text_append_ne_closing ho.1)
    | o :: os, o' :: os' =>
      rw [texts, texts, intercalate_cons, intercalate_cons, List.append_assoc,
        List.append_assoc] at h
      obtain ⟨rfl, hparts⟩ := text_append_inj o o' ho.1 ho'.1 (isDelimited_parts f _ _)
        (isDelimited_parts f _ _) h
      obtain ⟨rfl, hr⟩ := texts_append_inj f os os' ho.2 ho'.2 hparts
      exact ⟨rfl, hr⟩
termination_by structural o => o

/-- The same for what follows the first part of a group. -/
theorem texts_append_inj (f : Fence) : ∀ (os os' : List Outline) {rest rest' : List Char},
    AreReadable os → AreReadable os' →
    (texts os).flatMap (' ' :: ·) ++ f.closing :: rest =
      (texts os').flatMap (' ' :: ·) ++ f.closing :: rest' → os = os' ∧ rest = rest'
  | [], [], _, _, _, _, h => ⟨rfl, (List.cons.inj h).2⟩
  | [], _ :: _, _, _, _, _, h => absurd (List.cons.inj h).1 (Fence.closing_ne_blank f)
  | _ :: _, [], _, _, _, _, h => absurd (List.cons.inj h).1.symm (Fence.closing_ne_blank f)
  | o :: os, o' :: os', _, _, ho, ho', h => by
    rw [texts, texts, List.flatMap_cons, List.flatMap_cons, List.append_assoc, List.append_assoc,
      List.cons_append, List.cons_append, List.cons.injEq] at h
    obtain ⟨rfl, hparts⟩ := text_append_inj o o' ho.1 ho'.1 (isDelimited_parts f _ _)
      (isDelimited_parts f _ _) h.2
    obtain ⟨rfl, hr⟩ := texts_append_inj f os os' ho.2 ho'.2 hparts
    exact ⟨rfl, hr⟩
termination_by structural os => os

end

/-- Readable outlines with one text are equal. -/
theorem text_inj {o o' : Outline} (ho : o.IsReadable) (ho' : o'.IsReadable)
    (h : o.text = o'.text) : o = o' := by
  have hnil : IsDelimited [] := fun c hc => by cases hc
  exact (text_append_inj o o' ho ho' hnil hnil (congrArg (· ++ []) h)).1

end readability

end Outline

end Prose.Text
