import Prose.Json.Reader
import Prose.Json.Writer

namespace Prose.Json

section strings

def partOf (c : Char) : StringPart :=
  if c.toNat < 32 && !(['\n', '\r', '\t', '\x08', '\x0c'].contains c) then .unit c.toNat
  else .char c

def behindPart (p : StringPart) (cs : List Char) : Option (List StringPart × List Char) :=
  (readParts cs).map fun r => (p :: r.1, r.2)

theorem toDigits_of_lt_sixteen :
    ∀ n < 16, Nat.toDigits 16 n = [Nat.digitChar n] ∧ hexValue? (Nat.digitChar n) = some n := by
  decide

theorem toDigits_of_lt_thirtyTwo :
    ∀ n < 32, 16 ≤ n → Nat.toDigits 16 n = ['1', Nat.digitChar (n - 16)] ∧
      hexValue? (Nat.digitChar (n - 16)) = some (n - 16) := by
  decide

/-- An escape of four digits is read as their number. -/
theorem readParts_unit {a b c d : Char} {w x y z : Nat} (ha : hexValue? a = some w)
    (hb : hexValue? b = some x) (hc : hexValue? c = some y) (hd : hexValue? d = some z)
    (cs : List Char) : readParts ('\\' :: 'u' :: a :: b :: c :: d :: cs) =
      behindPart (.unit (16 * (16 * (16 * (16 * 0 + w) + x) + y) + z)) cs := by
  simp only [readParts, List.mapM_cons, List.mapM_nil, ha, hb, hc, hd]
  cases hcs : readParts cs <;> simp [behindPart, hcs]

theorem readParts_short {e c : Char} (he : shortEscape? e = some c) (hu : e ≠ 'u')
    (cs : List Char) : readParts ('\\' :: e :: cs) = behindPart (.char c) cs := by
  rw [readParts, he]
  · cases hcs : readParts cs <;> simp [behindPart, hcs]
  · exact fun _ _ _ _ _ h _ => hu h

theorem readParts_plain {c : Char} (hquote : c ≠ '"') (hslash : c ≠ '\\') (hc : ¬ c.toNat < 32)
    (cs : List Char) : readParts (c :: cs) = behindPart (.char c) cs := by
  have hplain : (c.toNat < 32 || c == '\\') = false := by simp [hc, hslash]
  rw [readParts, hplain]
  · cases hcs : readParts cs <;> simp [behindPart, hcs]
  · exact fun h => hquote h
  · exact fun _ _ _ _ _ h _ => hslash h
  · exact fun _ _ h _ => hslash h

/-- A character is read as the part as which it is written. -/
theorem readParts_writeChar (c : Char) (cs : List Char) :
    readParts (writeChar c ++ cs) = behindPart (partOf c) cs := by
  unfold writeChar
  split
  · rename_i hc
    simp only [Bool.or_eq_true, decide_eq_true_eq] at hc
    rcases hc with rfl | rfl
    · exact readParts_short rfl (by decide) cs
    · exact readParts_short rfl (by decide) cs
  -- The five characters of white space and control that have a short escape.
  iterate 5
    split
    · rename_i hc
      subst hc
      exact readParts_short rfl (by decide) cs
  rename_i hspecial hfeed hreturn htab hback hform
  have hunit (hc : c.toNat < 32) : partOf c = .unit c.toNat := by
    simp [partOf, hc, hfeed, hreturn, htab, hback, hform]
  have hzero : hexValue? '0' = some 0 := rfl
  have hone : hexValue? '1' = some 1 := rfl
  split
  · rename_i hc
    obtain ⟨hdigits, hvalue⟩ := toDigits_of_lt_sixteen c.toNat hc
    have hread := readParts_unit hzero hzero hzero hvalue cs
    have hsum : 16 * (16 * (16 * (16 * 0 + 0) + 0) + 0) + c.toNat = c.toNat := by omega
    rw [hsum] at hread
    rw [hdigits, hunit (by omega)]
    exact hread
  split
  · rename_i hge hc
    obtain ⟨hdigits, hvalue⟩ := toDigits_of_lt_thirtyTwo c.toNat hc (Nat.le_of_not_lt hge)
    have hread := readParts_unit hzero hzero hone hvalue cs
    have hsum : 16 * (16 * (16 * (16 * 0 + 0) + 0) + 1) + (c.toNat - 16) = c.toNat := by omega
    rw [hsum] at hread
    rw [hdigits, hunit hc]
    exact hread
  · rename_i hc
    have hpart : partOf c = .char c := by simp [partOf, hc]
    rw [hpart]
    simp only [Bool.or_eq_true, decide_eq_true_eq, not_or] at hspecial
    exact readParts_plain hspecial.1 hspecial.2 hc cs

theorem joinParts_unit {u : Nat} (hu : u < 32) (ps : List StringPart) :
    joinParts (.unit u :: ps) = (joinParts ps).map (Char.ofNat u :: ·) := by
  have hlow : ¬ 0xd800 ≤ u := by omega
  have hhigh : ¬ 0xdc00 ≤ u := by omega
  cases ps with
  | nil => simp [joinParts, hlow]
  | cons p ps =>
    cases p with
    | char c => simp [joinParts, hlow]
    | unit v => rw [joinParts]; simp [hlow, hhigh]

/-- The parts of a text are put together to the text. -/
theorem joinParts_map_partOf (cs : List Char) : joinParts (cs.map partOf) = some cs := by
  induction cs with
  | nil => rfl
  | cons c cs ih =>
    rw [List.map_cons, partOf]
    split
    · rename_i hc
      rw [Bool.and_eq_true, decide_eq_true_eq] at hc
      rw [joinParts_unit hc.1, ih, Option.map_some, Char.ofNat_toNat]
    · rw [joinParts, ih, Option.map_some]

theorem readParts_flatMap (cs rest : List Char) :
    readParts (cs.flatMap writeChar ++ '"' :: rest) = some (cs.map partOf, rest) := by
  induction cs with
  | nil => rfl
  | cons c cs ih =>
    rw [List.flatMap_cons, List.append_assoc, readParts_writeChar, behindPart, ih]
    rfl

/-- A string is read as its text. -/
theorem readString_flatMap (s : String) (rest : List Char) :
    readString (s.toList.flatMap writeChar ++ '"' :: rest) = some (some s, rest) := by
  simp [readString, readParts_flatMap, joinParts_map_partOf]

end strings

section numbers

/-- What may stand behind a value in a written document. -/
def EndsValue (rest : List Char) : Prop :=
  ∀ c ∈ rest.head?, c = ',' ∨ c = '\n'

theorem EndsValue.head_ne {c : Char} {rest : List Char} (h : EndsValue (c :: rest)) {d : Char}
    (hd : d ≠ ',' ∧ d ≠ '\n') : c ≠ d := by
  rintro rfl
  exact (h c rfl).elim hd.1 hd.2

/-- A number that is not zero does not begin with a zero. -/
theorem head?_digits_ne {n : Nat} (h : 0 < n) :
    ((Nat.toDigits 10 n).map digitValue).head? ≠ some 0 := by
  induction n using Nat.strongRecOn with
  | ind n ih =>
    by_cases hn : n < 10
    · have hdigit : ∀ n < 10, 0 < n → digitValue (Nat.digitChar n) ≠ 0 := by decide
      rw [Nat.toDigits_of_lt_base hn, List.map_singleton, List.head?_cons]
      exact fun hzero => hdigit n hn h (Option.some.inj hzero)
    · have hne : (Nat.toDigits 10 (n / 10)).map digitValue ≠ [] := by
        simp [Nat.toDigits_ne_nil]
      have hrest := ih (n / 10) (by omega) (by omega)
      obtain ⟨d, ds, hds⟩ := List.exists_cons_of_ne_nil hne
      rw [Nat.toDigits_of_base_le (by decide) (by omega), List.map_append, hds]
      rw [hds] at hrest
      exact hrest

theorem isDigit_toDigits (n : Nat) : ∀ c ∈ Nat.toDigits 10 n, c.isDigit = true := fun _ hc =>
  Nat.isDigit_of_mem_toDigits (by decide) (by decide) hc

theorem readDigits_toDigits (n : Nat) {rest : List Char} (hrest : EndsValue rest) :
    readDigits (Nat.toDigits 10 n ++ rest) = some ((Nat.toDigits 10 n).map digitValue, rest) := by
  have hend : rest.takeWhile Char.isDigit = [] ∧ rest.dropWhile Char.isDigit = rest := by
    cases rest with
    | nil => exact ⟨rfl, rfl⟩
    | cons c rest =>
      have hc : ¬ c.isDigit = true := by
        rcases hrest c rfl with rfl | rfl <;> decide
      exact ⟨List.takeWhile_cons_of_neg hc, List.dropWhile_cons_of_neg hc⟩
  rw [readDigits, List.takeWhile_append_of_pos (isDigit_toDigits n),
    List.dropWhile_append_of_pos (isDigit_toDigits n), hend.1, hend.2, List.append_nil, if_neg]
  simp [Nat.toDigits_ne_nil]

theorem readWhole_toDigits (n : Nat) {rest : List Char} (hrest : EndsValue rest) :
    readWhole (Nat.toDigits 10 n ++ rest) = some (n, rest) := by
  have hvalue : digitsValue ((Nat.toDigits 10 n).map digitValue) = n := by
    rw [digitsValue, List.foldl_map]
    exact Nat.ofDigitChars_ten_toDigits
  have hzero : ¬ (((Nat.toDigits 10 n).map digitValue).head? = some 0 ∧
      ((Nat.toDigits 10 n).map digitValue).length ≠ 1) := by
    rintro ⟨hhead, hlength⟩
    rcases Nat.eq_zero_or_pos n with rfl | hpos
    · exact hlength rfl
    · exact head?_digits_ne hpos hhead
  simp only [readWhole, readDigits_toDigits n hrest, bind, Option.bind, if_neg hzero, hvalue]

theorem exists_toDigits (n : Nat) : ∃ c cs, Nat.toDigits 10 n = c :: cs ∧ c.isDigit = true := by
  obtain ⟨c, cs, h⟩ := List.exists_cons_of_ne_nil (Nat.toDigits_ne_nil : Nat.toDigits 10 n ≠ [])
  exact ⟨c, cs, h, isDigit_toDigits n c (by rw [h]; exact List.mem_cons_self ..)⟩

/-- A natural number is read back. -/
theorem readNumber_toDigits (n : Nat) {rest : List Char} (hrest : EndsValue rest) :
    readNumber (Nat.toDigits 10 n ++ rest) = some (⟨false, n, [], none⟩, rest) := by
  have hfraction : readFraction rest = some ([], rest) := by
    cases rest with
    | nil => rfl
    | cons c rest =>
      rw [readFraction]
      exact fun _ h => hrest.head_ne (by decide) (List.cons.inj h).1
  have hexponent : readExponent rest = some (none, rest) := by
    cases rest with
    | nil => rfl
    | cons c rest =>
      have hlower : c ≠ 'e' := hrest.head_ne (by decide)
      have hupper : c ≠ 'E' := hrest.head_ne (by decide)
      simp only [readExponent.eq_def, beq_iff_eq, hlower, hupper, Bool.or_eq_true, or_self,
        if_false]
  have hsign : ((Nat.toDigits 10 n ++ rest).head? == some '-') = false := by
    obtain ⟨c, cs, hcs, hc⟩ := exists_toDigits n
    rw [hcs, List.cons_append, List.head?_cons]
    have hne : c ≠ '-' := by
      rintro rfl
      cases hc
    simpa using hne
  rw [readNumber, hsign, if_neg Bool.false_ne_true, readWhole_toDigits n hrest]
  simp only [bind, Option.bind, hfraction, hexponent]

end numbers

/-- Strings and keys are texts, and numbers are natural numbers. -/
inductive IsPlain : Json → Prop
  | null : IsPlain null
  | boolean (b : Bool) : IsPlain (boolean b)
  | natural (n : Nat) : IsPlain (natural n)
  | text (s : String) : IsPlain (text s)
  | array {items : List Json} (h : ∀ x ∈ items, x.IsPlain) : IsPlain (array items)
  | record {members : List (String × Json)} (h : ∀ m ∈ members, m.2.IsPlain) :
      IsPlain (record members)

theorem isPlain_array {items : List Json} : (array items).IsPlain ↔ ∀ x ∈ items, x.IsPlain :=
  ⟨fun h => by cases h; assumption, .array⟩

theorem isPlain_nil : (array []).IsPlain :=
  .array (List.forall_mem_nil _)

theorem isPlain_cons {x : Json} {xs : List Json} (hx : x.IsPlain) (hxs : (array xs).IsPlain) :
    (array (x :: xs)).IsPlain :=
  isPlain_array.mpr (List.forall_mem_cons.mpr ⟨hx, isPlain_array.mp hxs⟩)

theorem IsPlain.tagged {name : String} {payload : Json} (h : payload.IsPlain) :
    (Json.tagged name payload).IsPlain :=
  .record (List.forall_mem_singleton.mpr h)

section spaces

theorem skipSpace_append {ws : List Char} (hws : ∀ c ∈ ws, isSpace c = true) (cs : List Char) :
    skipSpace (ws ++ cs) = skipSpace cs :=
  List.dropWhile_append_of_pos hws

theorem isSpace_newLine (level : Nat) : ∀ c ∈ newLine level, isSpace c = true := by
  intro c hc
  rcases List.mem_cons.mp hc with rfl | hc
  · rfl
  · rw [List.eq_of_mem_replicate hc]
    rfl

theorem skipSpace_newLine (level : Nat) (cs : List Char) :
    skipSpace (newLine level ++ cs) = skipSpace cs :=
  skipSpace_append (isSpace_newLine level) cs

theorem skipSpace_cons {c : Char} (h : isSpace c = false) (cs : List Char) :
    skipSpace (c :: cs) = c :: cs :=
  List.dropWhile_cons_of_neg (by rw [h]; decide)

variable {ws : List Char} (n : Nat) (cs : List Char)

theorem readValue_newLine (level : Nat) : readValue n (newLine level ++ cs) = readValue n cs := by
  cases n with
  | zero => rfl
  | succ n => rw [readValue, readValue, skipSpace_newLine]

theorem readItems_newLine (level : Nat) : readItems n (newLine level ++ cs) = readItems n cs := by
  cases n with
  | zero => rfl
  | succ n => rw [readItems, readItems, readValue_newLine]

theorem readMembers_newLine (level : Nat) :
    readMembers n (newLine level ++ cs) = readMembers n cs := by
  cases n with
  | zero => rfl
  | succ n => rw [readMembers, readMembers, skipSpace_newLine]

end spaces

section dispatch

variable (n : Nat) (cs : List Char)

theorem readValue_quote :
    readValue (n + 1) ('"' :: cs) = (readString cs).map fun r => (string r.1, r.2) := by
  rw [readValue, skipSpace_cons rfl]
  cases h : readString cs <;> simp [h]

theorem readValue_bracket {c : Char} {rest : List Char} (h : skipSpace cs = c :: rest)
    (hc : c ≠ ']') :
    readValue (n + 1) ('[' :: cs) = (readItems n (c :: rest)).map fun r => (array r.1, r.2) := by
  rw [readValue, skipSpace_cons rfl]
  simp only [h]
  cases hitems : readItems n (c :: rest) <;> simp [hitems, hc]

theorem readValue_brace {c : Char} {rest : List Char} (h : skipSpace cs = c :: rest)
    (hc : c ≠ '\x7d') :
    readValue (n + 1) ('\x7b' :: cs) =
      (readMembers n (c :: rest)).map fun r => (object r.1, r.2) := by
  rw [readValue, skipSpace_cons rfl]
  simp only [h]
  cases hmembers : readMembers n (c :: rest) <;> simp [hmembers, hc]

theorem beq_of_isDigit {c : Char} (hc : c.isDigit = true) (d : Char) (hd : d.isDigit = false) :
    (c == d) = false := by
  refine beq_eq_false_iff_ne.mpr ?_
  rintro rfl
  rw [hc] at hd
  cases hd

theorem isSpace_of_isDigit {c : Char} (hc : c.isDigit = true) : isSpace c = false := by
  simp only [isSpace, beq_of_isDigit hc ' ' rfl, beq_of_isDigit hc '\n' rfl,
    beq_of_isDigit hc '\t' rfl, beq_of_isDigit hc '\r' rfl, Bool.or_self]

theorem readValue_digit {c : Char} (hc : c.isDigit = true) :
    readValue (n + 1) (c :: cs) = (readNumber (c :: cs)).map fun r => (number r.1, r.2) := by
  rw [readValue, skipSpace_cons (isSpace_of_isDigit hc)]
  simp only [beq_of_isDigit hc '"' rfl, beq_of_isDigit hc '[' rfl, beq_of_isDigit hc '\x7b' rfl,
    beq_of_isDigit hc 'n' rfl, beq_of_isDigit hc 't' rfl, beq_of_isDigit hc 'f' rfl,
    Bool.false_eq_true, if_false]
  cases hnumber : readNumber (c :: cs) <;> simp

end dispatch

/-- The text of the document, with room enough, is read as the document. -/
def ReadsBack (j : Json) : Prop :=
  ∀ level n rest, EndsValue rest → 2 * (write level j).length ≤ n →
    readValue n (write level j ++ rest) = some (j, rest)

theorem write_natural (level k : Nat) : write level (natural k) = Nat.toDigits 10 k := by
  simp [natural, write, Number.write]

theorem write_text (level : Nat) (s : String) : write level (text s) = writeString s := rfl

/-- A document begins with a character that is neither white space nor a closing bracket. -/
theorem IsPlain.exists_write {j : Json} (h : j.IsPlain) (level : Nat) :
    ∃ c cs, write level j = c :: cs ∧ isSpace c = false ∧ c ≠ ']' := by
  cases h with
  | null => exact ⟨'n', _, rfl, rfl, by decide⟩
  | boolean b => cases b <;> exact ⟨_, _, rfl, rfl, by decide⟩
  | natural k =>
    obtain ⟨c, cs, hcs, hc⟩ := exists_toDigits k
    refine ⟨c, cs, by rw [write_natural, hcs], isSpace_of_isDigit hc, ?_⟩
    rintro rfl
    cases hc
  | text s => exact ⟨'"', _, rfl, rfl, by decide⟩
  | @array items h =>
    cases items with
    | nil => exact ⟨'[', _, rfl, rfl, by decide⟩
    | cons x xs => exact ⟨'[', _, rfl, rfl, by decide⟩
  | @record members h =>
    cases members with
    | nil => exact ⟨'\x7b', _, rfl, rfl, by decide⟩
    | cons m ms => exact ⟨'\x7b', _, rfl, rfl, by decide⟩

theorem readsBack_null : ReadsBack null := by
  intro level n rest _ hn
  cases n with
  | zero => cases hn
  | succ n => rfl

theorem readsBack_boolean (b : Bool) : ReadsBack (boolean b) := by
  intro level n rest _ hn
  cases n with
  | zero => cases b <;> cases hn
  | succ n => cases b <;> rfl

theorem readsBack_text (s : String) : ReadsBack (text s) := by
  intro level n rest _ hn
  cases n with
  | zero => cases hn
  | succ n =>
    rw [write_text, writeString, List.cons_append, List.cons_append, List.append_assoc,
      List.singleton_append, readValue_quote, readString_flatMap]
    rfl

theorem readsBack_natural (k : Nat) : ReadsBack (natural k) := by
  intro level n rest hrest hn
  obtain ⟨c, cs, hcs, hc⟩ := exists_toDigits k
  rw [write_natural] at hn ⊢
  cases n with
  | zero =>
    rw [hcs] at hn
    cases hn
  | succ n =>
    have hnumber := readNumber_toDigits k hrest
    rw [hcs, List.cons_append] at hnumber ⊢
    rw [readValue_digit n _ hc, hnumber]
    rfl

theorem endsValue_writeItems (level outer : Nat) (xs : List Json) (rest : List Char) :
    EndsValue (writeItems level xs ++ (newLine outer ++ rest)) := by
  intro c hc
  cases xs with
  | nil => exact .inr (Option.some.inj hc).symm
  | cons x xs => exact .inl (Option.some.inj hc).symm

theorem endsValue_writeMembers (level outer : Nat) (ms : List (Option String × Json))
    (rest : List Char) : EndsValue (writeMembers level ms ++ (newLine outer ++ rest)) := by
  intro c hc
  cases ms with
  | nil => exact .inr (Option.some.inj hc).symm
  | cons m ms => exact .inl (Option.some.inj hc).symm

/-- The items of an array are read back if each of them is. -/
theorem readItems_write {xs : List Json} {x : Json} (hx : x.ReadsBack)
    (hxs : ∀ x ∈ xs, x.ReadsBack) {level outer n : Nat} {rest : List Char}
    (hn : 2 * (write level x ++ writeItems level xs).length + 2 ≤ n) :
    readItems n (write level x ++ (writeItems level xs ++ (newLine outer ++ ']' :: rest))) =
      some (x :: xs, rest) := by
  -- By the items behind this one, each of which costs as many steps as it is written with
  -- characters.
  induction xs generalizing x n with
  | nil =>
    obtain ⟨n, rfl⟩ : ∃ m, n = m + 1 := ⟨n - 1, by omega⟩
    rw [List.length_append] at hn
    have hvalue := hx level n _ (endsValue_writeItems level outer [] (']' :: rest)) (by omega)
    rw [readItems, hvalue]
    simp only [bind, Option.bind]
    rw [writeItems, List.nil_append, skipSpace_newLine, skipSpace_cons rfl]
    rfl
  | cons y ys ih =>
    obtain ⟨n, rfl⟩ : ∃ m, n = m + 1 := ⟨n - 1, by omega⟩
    obtain ⟨hy, hys⟩ := List.forall_mem_cons.mp hxs
    have hlength : (writeItems level (y :: ys)).length =
        1 + (newLine level).length + (write level y ++ writeItems level ys).length := by
      simp only [writeItems, List.length_append, List.length_cons]
      omega
    rw [List.length_append, hlength] at hn
    have hvalue := hx level n _ (endsValue_writeItems level outer (y :: ys) (']' :: rest)) (by omega)
    have hrest := ih hy hys (n := n) (by omega)
    have hitems : writeItems level (y :: ys) ++ (newLine outer ++ ']' :: rest) =
        ',' :: (newLine level ++
          (write level y ++ (writeItems level ys ++ (newLine outer ++ ']' :: rest)))) := by
      simp only [writeItems, List.append_assoc, List.cons_append]
    rw [readItems, hvalue]
    simp only [bind, Option.bind]
    rw [hitems, skipSpace_cons rfl]
    simp only
    rw [readItems_newLine, hrest]

theorem readsBack_array {items : List Json} (hplain : ∀ x ∈ items, x.IsPlain)
    (h : ∀ x ∈ items, x.ReadsBack) : ReadsBack (array items) := by
  intro level n rest _ hn
  cases items with
  | nil =>
    cases n with
    | zero => cases hn
    | succ n => rfl
  | cons x xs =>
    obtain ⟨hx, hxs⟩ := List.forall_mem_cons.mp h
    have htext : write level (array (x :: xs)) ++ rest = '[' :: (newLine (level + 1) ++
        (write (level + 1) x ++ (writeItems (level + 1) xs ++ (newLine level ++ ']' :: rest)))) := by
      simp only [write, List.cons_append, List.append_assoc, List.nil_append]
    have hlength : (write (level + 1) x ++ writeItems (level + 1) xs).length + 4 ≤
        (write level (array (x :: xs))).length := by
      simp only [write, newLine, List.length_append, List.length_cons, List.length_nil]
      omega
    obtain ⟨n, rfl⟩ : ∃ m, n = m + 1 := ⟨n - 1, by omega⟩
    -- The first item begins with neither a space nor the closing bracket.
    obtain ⟨c, cs, hcs, hspace, hc⟩ :=
      (hplain x (List.mem_cons_self ..)).exists_write (level + 1)
    have hitems : readItems n (write (level + 1) x ++
        (writeItems (level + 1) xs ++ (newLine level ++ ']' :: rest))) = some (x :: xs, rest) :=
      readItems_write hx hxs (by omega)
    rw [hcs, List.cons_append] at hitems
    rw [htext, hcs, readValue_bracket n _ (by
      rw [skipSpace_newLine, List.cons_append, skipSpace_cons hspace]) hc, hitems]
    rfl

/-- A member is read up to the end of its value, and what follows decides how it goes on. -/
theorem readMembers_writeString (n : Nat) (k : String) (cs : List Char) :
    readMembers (n + 1) (writeString k ++ ':' :: ' ' :: cs) =
      (readValue n cs).bind fun r =>
        match skipSpace r.2 with
        | ',' :: rest => (readMembers n rest).bind fun q => some ((some k, r.1) :: q.1, q.2)
        | '\x7d' :: rest => some ([(some k, r.1)], rest)
        | _ => none := by
  have hspace : readValue n (' ' :: cs) = readValue n cs := by
    cases n with
    | zero => rfl
    | succ n => rfl
  rw [writeString, List.cons_append, List.cons_append, List.append_assoc, List.singleton_append,
    readMembers, skipSpace_cons rfl]
  simp only [readString_flatMap, bind, Option.bind]
  rw [skipSpace_cons rfl]
  exact hspace ▸ rfl

def member (m : String × Json) : Option String × Json :=
  (some m.1, m.2)

/-- The members of an object are read back if their values are. -/
theorem readMembers_write {ms : List (String × Json)} {k : String} {v : Json} (hv : v.ReadsBack)
    (hms : ∀ m ∈ ms, m.2.ReadsBack) {level outer n : Nat} {rest : List Char}
    (hn : 2 * (write level v ++ writeMembers level (ms.map member)).length + 2 ≤ n) :
    readMembers n (writeString k ++ ':' :: ' ' :: (write level v ++
        (writeMembers level (ms.map member) ++ (newLine outer ++ '\x7d' :: rest)))) =
      some ((some k, v) :: ms.map member, rest) := by
  -- By the members behind this one, each of which costs as many steps as it is written with
  -- characters.
  induction ms generalizing k v n with
  | nil =>
    obtain ⟨n, rfl⟩ : ∃ m, n = m + 1 := ⟨n - 1, by omega⟩
    rw [List.length_append] at hn
    have hvalue := hv level n _ (endsValue_writeMembers level outer [] ('\x7d' :: rest)) (by omega)
    rw [List.map_nil, readMembers_writeString, hvalue, Option.bind_some]
    simp only
    rw [writeMembers, List.nil_append, skipSpace_newLine, skipSpace_cons rfl]
    rfl
  | cons m ms ih =>
    obtain ⟨k', v'⟩ := m
    obtain ⟨n, rfl⟩ : ∃ m, n = m + 1 := ⟨n - 1, by omega⟩
    obtain ⟨hv' : v'.ReadsBack, hms⟩ := List.forall_mem_cons.mp hms
    have hlength : 1 + (newLine level).length +
        (write level v' ++ writeMembers level (ms.map member)).length ≤
          (writeMembers level (((k', v') :: ms).map member)).length := by
      simp only [List.map_cons, member, writeMembers, List.length_append, List.length_cons]
      omega
    rw [List.length_append] at hn
    have hvalue := hv level n _
      (endsValue_writeMembers level outer (((k', v') :: ms).map member) ('\x7d' :: rest)) (by omega)
    have hrest := ih (k := k') hv' hms (n := n) (by omega)
    have hmembers : writeMembers level (((k', v') :: ms).map member) ++
        (newLine outer ++ '\x7d' :: rest) = ',' :: (newLine level ++ (writeString k' ++ ':' :: ' ' ::
          (write level v' ++ (writeMembers level (ms.map member) ++
            (newLine outer ++ '\x7d' :: rest))))) := by
      simp only [List.map_cons, member, writeMembers, Option.getD_some, List.append_assoc,
        List.cons_append, List.nil_append]
    rw [readMembers_writeString, hvalue, Option.bind_some]
    simp only
    rw [hmembers, skipSpace_cons rfl]
    simp only
    rw [readMembers_newLine, hrest]
    rfl

theorem readsBack_record {members : List (String × Json)} (h : ∀ m ∈ members, m.2.ReadsBack) :
    ReadsBack (record members) := by
  intro level n rest _ hn
  cases members with
  | nil =>
    cases n with
    | zero => cases hn
    | succ n => rfl
  | cons m ms =>
    obtain ⟨k, v⟩ := m
    obtain ⟨hv : v.ReadsBack, hms⟩ := List.forall_mem_cons.mp h
    have htext : write level (record ((k, v) :: ms)) ++ rest = '\x7b' :: (newLine (level + 1) ++
        (writeString k ++ ':' :: ' ' :: (write (level + 1) v ++
          (writeMembers (level + 1) (ms.map member) ++ (newLine level ++ '\x7d' :: rest))))) := by
      simp only [record, List.map_cons, write, Option.getD_some, List.cons_append,
        List.append_assoc, List.nil_append]
      rfl
    have hlength : (write (level + 1) v ++ writeMembers (level + 1) (ms.map member)).length + 4 ≤
        (write level (record ((k, v) :: ms))).length := by
      have htext' := congrArg List.length htext
      simp only [newLine, List.length_append, List.length_cons] at htext' ⊢
      omega
    -- One step is for the brace, and the others are enough for the members.
    obtain ⟨n, rfl⟩ : ∃ m, n = m + 1 := ⟨n - 1, by omega⟩
    have hmembers : readMembers n (writeString k ++ ':' :: ' ' :: (write (level + 1) v ++
        (writeMembers (level + 1) (ms.map member) ++ (newLine level ++ '\x7d' :: rest)))) =
          some ((some k, v) :: ms.map member, rest) :=
      readMembers_write hv hms (by omega)
    have hquote (cs : List Char) : skipSpace (newLine (level + 1) ++ (writeString k ++ cs)) =
        '"' :: (k.toList.flatMap writeChar ++ ['"'] ++ cs) := by
      rw [skipSpace_newLine, writeString, List.cons_append, List.cons_append, skipSpace_cons rfl]
    rw [htext, readValue_brace n _ (hquote _) (by decide)]
    rw [writeString, List.cons_append, List.cons_append] at hmembers
    rw [hmembers]
    rfl

/-- A plain document is read back from its text, whatever level it is written at. -/
theorem IsPlain.readsBack {j : Json} (h : j.IsPlain) : j.ReadsBack := by
  induction h with
  | null => exact readsBack_null
  | boolean b => exact readsBack_boolean b
  | natural n => exact readsBack_natural n
  | text s => exact readsBack_text s
  | array h ih => exact readsBack_array h ih
  | record _ ih => exact readsBack_record ih

/-- Reading takes back the writing of a plain document. -/
theorem IsPlain.parse_render {j : Json} (h : j.IsPlain) : parse j.render = some j := by
  have hread := h.readsBack 0 (2 * (write 0 j).length + 1) []
    (fun c hc => by cases hc) (Nat.le_succ _)
  rw [List.append_nil] at hread
  rw [parse, render, String.toList_ofList, hread]
  rfl

end Prose.Json
