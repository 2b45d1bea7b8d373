import Mathlib.Data.List.TakeDrop
import Prose.Proofs.Expr.Article
import Prose.Proofs.Expr.Tail

/-! Checks at the end of a slice. A check binds the whole slice in front of it unless that ends with
an open operand of a looser form, and then the check goes to this operand. So no operator that is
looser than the check reads the slice as well. -/
namespace Prose

open Prose.Expr Grammar

variable {f g h q : Form} {s : Slice} {i j n : Nat}

section divides

/-- A form that begins with an operand and does not end with one is a check. -/
theorem eq_openLeft (hleft : f.fixity.isOpenLeft = true) (hright : f.fixity.isOpenRight = false) :
    f.fixity = .openLeft := by
  revert hleft hright
  cases f.fixity <;> decide

theorem eq_typeCheck_or_nullCheck (hq : q.fixity = .openLeft) : q = .typeCheck ∨ q = .nullCheck := by
  cases q <;> first | exact .inl rfl | exact .inr rfl | cases hq

theorem le_level_of_check (hq : q.fixity = .openLeft) : 855 ≤ q.level := by
  rcases eq_typeCheck_or_nullCheck hq with rfl | rfl <;> decide

theorem level_le_of_check (hq : q.fixity = .openLeft) : q.level ≤ 860 := by
  rcases eq_typeCheck_or_nullCheck hq with rfl | rfl <;> decide

/-- No operator binds at a level between those of the checks. -/
theorem not_level_between_checks (hleft : f.fixity.isOpenLeft = true)
    (hright : f.fixity.isOpenRight = true) (hlow : 855 < f.level) (hhigh : f.level ≤ 860) :
    False := by
  cases f with
  | operators l =>
    revert hlow hhigh
    cases l <;> decide
  | typeCheck => cases hright
  | nullCheck => cases hright
  | _ => cases hleft

theorem isCheckWord_of_type {k : Keyword} (hk : (TypeName.ofKeyword? k).isSome = true) :
    k.isCheckWord = true := by
  revert hk
  cases k <;> decide

/-- The token at which a check begins. -/
theorem exists_token_of_divides (hq : q.fixity = .openLeft) (hn : q.Divides s n) :
    ∃ t, s.tokens[n]? = some t ∧ t.keyword ∈ q.signs := by
  rcases eq_typeCheck_or_nullCheck hq with rfl | rfl
  · obtain ⟨-, -, hmem, -⟩ := hn
    obtain ⟨t, ht, hk⟩ := Option.map_eq_some_iff.mp (getElem?_of_mem_depthZero hmem).2
    exact ⟨t, ht, by rw [hk]; decide⟩
  · obtain ⟨-, hlength, t, ht, hk⟩ := hn
    rw [Option.mem_def, List.getLast?_eq_getElem?] at ht
    have hindex : s.tokens.length - 1 = n := by
      rw [Slice.length] at hlength
      omega
    rw [hindex] at ht
    exact ⟨t, ht, hk⟩

theorem getLast?_of_divides (hq : q.fixity = .openLeft) (hn : q.Divides s n) :
    ∃ t, s.tokens.getLast? = some t ∧ t.keyword.isCheckWord = true ∧
      (q = .nullCheck ↔ t.keyword ∈ Form.nullCheck.signs) := by
  rcases eq_typeCheck_or_nullCheck hq with rfl | rfl
  · obtain ⟨-, -, -, t, ht, hk⟩ := hn
    exact ⟨t, ht, isCheckWord_of_type hk,
      iff_of_false (by decide) (not_mem_signs_of_type hk)⟩
  · obtain ⟨-, -, t, ht, hk⟩ := hn
    refine ⟨t, ht, ?_, ?_⟩
    · revert hk
      cases t.keyword <;> decide
    · simp [hk]

theorem endsInCheck_of_divides (hs : s.IsRegular) (hq : q.fixity = .openLeft)
    (hn : q.Divides s n) : s.EndsInCheck n where
  regular := hs
  lt_length := hn.lt_length
  words := by
    obtain ⟨u, hu, hk⟩ := exists_token_of_divides hq hn
    obtain ⟨v, hv, hcheck, -⟩ := getLast?_of_divides hq hn
    have hku : u.keyword.isCheckWord = true := by
      rcases eq_typeCheck_or_nullCheck hq with rfl | rfl
      · rw [List.mem_singleton.mp hk]
        rfl
      · revert hk
        cases u.keyword <;> decide
    -- There are at most two tokens from the division on: the word of the check and its last one.
    have hlength : s.length ≤ n + 2 := by
      rcases eq_typeCheck_or_nullCheck hq with rfl | rfl
      · exact Nat.le_of_eq hn.2.1.symm
      · have hend : n + 1 = s.length := hn.2.1
        omega
    intro t ht
    obtain ⟨m, hm⟩ := List.mem_iff_getElem?.mp ht
    rw [List.getElem?_drop] at hm
    have hlt := (List.getElem?_eq_some_iff.mp hm).1
    rw [Slice.length] at hlength
    rcases Nat.eq_zero_or_pos m with rfl | hpos
    · rw [Nat.add_zero, hu] at hm
      cases hm
      exact hku
    · have hindex : n + m = s.tokens.length - 1 := by omega
      rw [hindex, ← List.getLast?_eq_getElem?, hv] at hm
      cases hm
      exact hcheck

/-- A slice is not divided by two checks. -/
theorem eq_of_divides (hq : q.fixity = .openLeft) (hg : g.fixity = .openLeft) (hn : q.Divides s n)
    (hi : g.Divides s i) : g = q ∧ i = n := by
  obtain ⟨t, ht, -, hk⟩ := getLast?_of_divides hq hn
  obtain ⟨t', ht', -, hk'⟩ := getLast?_of_divides hg hi
  rw [ht] at ht'
  cases ht'
  rcases eq_typeCheck_or_nullCheck hq with rfl | rfl <;>
    rcases eq_typeCheck_or_nullCheck hg with rfl | rfl
  · have hend : n + 2 = s.length := hn.2.1
    have hend' : i + 2 = s.length := hi.2.1
    exact ⟨rfl, by omega⟩
  · exact absurd (hk.mpr (hk'.mp rfl)) (by decide)
  · exact absurd (hk'.mpr (hk.mp rfl)) (by decide)
  · have hend : n + 1 = s.length := hn.2.1
    have hend' : i + 1 = s.length := hi.2.1
    exact ⟨rfl, by omega⟩

/-- The words of a check alone are not read. -/
theorem not_reads_drop (hs : s.IsRegular) (hq : q.fixity = .openLeft) (hn : q.Divides s n) :
    ¬ f.Reads (s.drop n) := by
  obtain ⟨t, ht, hk⟩ := exists_token_of_divides hq hn
  obtain ⟨hlt, rfl⟩ := List.getElem?_eq_some_iff.mp ht
  have hts : (s.drop n).tokens = s.tokens[n] :: s.tokens.drop (n + 1) :=
    List.drop_eq_getElem_cons hlt
  have hplain := not_plain_of_mem_signs (hs _ (List.getElem_mem hlt)) hk
  have hall : ∀ q ∈ Form.all, q.fixity = .openLeft → ∀ f ∈ Form.all, f.fixity.isOpenLeft = false →
      ∀ k ∈ q.signs, k ∉ f.signs := by
    decide
  exact not_reads_of_not_leads hts hplain fun f hf => hall q q.mem_all hq f f.mem_all hf _ hk

theorem not_isOperand_drop {level : Nat} {side : Side} (hs : s.IsRegular)
    (hq : q.fixity = .openLeft) (hn : q.Divides s n) : ¬ (s.drop n).IsOperand level side := by
  rintro ⟨f, hf, -⟩
  obtain ⟨g, hg⟩ := hf.exists_reads
  exact not_reads_drop hs hq hn hg

end divides

/-- Without the check behind its first `n` tokens the slice is read by a form that takes no less, or
the cascade fails on it. -/
def Slice.LosesCheck (s : Slice) (n : Nat) : Prop :=
  ∀ g : Form, g.Fronts s → (s.take n).Fails ∨ ∃ h : Form, h.Fronts (s.take n) ∧
    (h.fixity.isOpenLeft = true → g.fixity.isOpenLeft = true ∧ h.level ≤ g.level)

/-- With the check behind its first `n` tokens the slice is read by a form that takes no less than
the check, or the cascade fails on it. -/
def Slice.GainsCheck (q : Form) (s : Slice) (n : Nat) : Prop :=
  ∀ h : Form, h.Fronts (s.take n) → s.Fails ∨ ∃ g : Form, g.Fronts s ∧
    (g.fixity.isOpenLeft = true →
      g.level ≤ q.level ∨ h.fixity.isOpenLeft = true ∧ g.level ≤ h.level)

theorem Slice.LosesCheck.isOperandOrFails {level : Nat} (hs : s.LosesCheck n)
    (h : s.IsOperand level .after) : (s.take n).IsOperandOrFails level .after := by
  obtain ⟨g, hg, hbound⟩ := h
  rcases hs g hg with hfails | ⟨h', hh', htighter⟩
  · exact .inr hfails
  · refine .inl ⟨h', hh', fun hleft => ?_⟩
    obtain ⟨hgleft, hle⟩ := htighter hleft
    exact Nat.le_trans hle (hbound hgleft)

theorem Slice.GainsCheck.isOperandOrFails {level : Nat} (hs : s.GainsCheck q n)
    (hlevel : q.level < level) (h : (s.take n).IsOperand level .after) :
    s.IsOperandOrFails level .after := by
  obtain ⟨h', hh', hbound⟩ := h
  rcases hs h' hh' with hfails | ⟨g, hg, htighter⟩
  · exact .inr hfails
  · refine .inl ⟨g, hg, fun hleft => ?_⟩
    rcases htighter hleft with hle | ⟨hleft', hle⟩
    · omega
    · exact Nat.le_trans hle (hbound hleft')

theorem isDivider_of_mem_signs {l : OperatorLevel} {k : Keyword}
    (hk : k ∈ (Form.operators l).signs) : k.IsDivider := by
  have hall : ∀ l ∈ OperatorLevel.all, ∀ k ∈ (Form.operators l).signs, k.IsDivider := by
    decide
  exact hall l (by cases l <;> decide) k hk

/-- What ends with a check does not end as a closed form does. -/
theorem not_accepts_closed (hs : s.IsRegular) (hq : q.fixity = .openLeft) (hn : q.Divides s n)
    (hf : f.fixity = .closed) : ¬ f.Accepts s := by
  intro h
  have hends := endsInCheck_of_divides hs hq hn
  rcases accepts_closed hf h with rfl | rfl | hone
  · obtain ⟨c, hc, hend⟩ :=
      Slice.matchingClose_of_enclosed (isSome_enclosed_of_not_rejects h.not_rejects)
    obtain ⟨b, hb⟩ := Slice.getElem?_of_matchingClose hc
    have hlt := hends.lt_of_getElem? (by cases b <;> rfl) hb
    have hlength := hends.lt_length
    omega
  · obtain ⟨-, i, t, hi, ht, hk⟩ := exists_as_of_accepts_cast h
    obtain ⟨hend, hlast⟩ := Slice.getLast?_of_drop ht
    obtain ⟨t', ht', -, hnull⟩ := getLast?_of_divides hq hn
    have hlt := hends.lt_of_getElem? (by decide) (Slice.getElem?_of_first hi).2
    rw [hlast] at ht'
    cases ht'
    rcases eq_typeCheck_or_nullCheck hq with rfl | rfl
    · have hlength : n + 2 = s.length := hn.2.1
      omega
    · exact not_mem_signs_of_type hk (hnull.mp rfl)
  · have hpos := hn.1
    have hlt := hends.lt_length
    omega

/-- Behind all tokens but one stands the last. -/
theorem eq_of_mem_drop {t u : Token} (hlength : n + 1 = s.length) (hu : u ∈ s.tokens.getLast?)
    (ht : t ∈ s.tokens.drop n) : t = u := by
  have hlast : n = s.tokens.length - 1 := by
    rw [Slice.length] at hlength
    omega
  have hne : s.tokens ≠ [] := List.ne_nil_of_mem (List.mem_of_mem_drop ht)
  rw [hlast, List.drop_length_sub_one hne, List.mem_singleton] at ht
  rw [ht]
  exact Option.some.inj ((List.getLast?_eq_some_getLast hne).symm.trans hu)

/-- A type check fails on a slice that goes on behind its type. -/
theorem not_rejects_typeCheck_of_take (hn : Form.nullCheck.Divides s n)
    (h : Form.typeCheck.Accepts (s.take n)) : ¬ Form.typeCheck.Rejects s := by
  obtain ⟨i, ⟨hpos, -, hmem, -⟩, -⟩ := exists_divides_of_accepts rfl h
  obtain ⟨-, hlength, u, hu, hk⟩ := hn
  have hisA : u.keyword ≠ .isA := by
    rintro hisA
    rw [hisA] at hk
    revert hk
    decide
  -- The words at the end are those of the null check, so the `is a` is found in all of the slice,
  -- too.
  have hi : i ∈ s.allOf .isA := by
    rw [← Slice.allOf_take fun t ht => eq_of_mem_drop hlength hu ht ▸ hisA]
    exact Slice.mem_allOf_iff.mpr hmem
  match hlast : (s.allOf .isA).getLast? with
  | none =>
    rw [List.getLast?_eq_none_iff] at hlast
    rw [hlast] at hi
    cases hi
  | some j =>
    have hle := Slice.le_of_getLast?_allOf hlast hi
    rw [Form.Rejects, verdict, Form.read, readTypeCheck_eq, hlast]
    simp only
    intro hreject
    -- The last `is a` is not the last token, and the last token is no type, so the check has
    -- failed.
    split at hreject
    · have hend : j = s.tokens.length - 1 := by
        rw [Slice.length] at *
        omega
      have htoken := Slice.getElem?_of_mem_allOf (List.mem_of_getLast? hlast)
      rw [hend, ← List.getLast?_eq_getElem?, hu] at htoken
      exact hisA (Option.some.inj htoken)
    · obtain ⟨m, htype, -⟩ := Inquiry.resolve_bind_eq_ok.mp hreject
      obtain ⟨t, ht, hkey⟩ := tokens_of_requiredType htype
      obtain ⟨-, ht'⟩ := Slice.getLast?_of_drop ht
      rw [hu] at ht'
      cases ht'
      exact not_mem_signs_of_type hkey hk

section words

variable {t u : Token} {ts : List Token}

theorem Expr.Form.Divides.length_take_pos (h : f.Divides s i) : 0 < (s.take i).length := by
  have hpos := h.1
  have hlt := h.lt_length
  rw [Slice.length_take]
  omega

theorem isDivider_of_isArticle (ht : t.keyword.isArticle = true) : t.keyword.IsDivider := by
  unfold Keyword.IsDivider
  revert ht
  cases t.keyword <;> decide

theorem mem_depthZero_of_isArticle (hts : s.tokens = t :: ts) (ht : t.keyword.isArticle = true) :
    (0, t.keyword) ∈ depthZero 0 0 s.tokens := by
  rw [hts, depthZero_flat (isFlat_of_isArticle ht)]
  exact List.mem_cons_self ..

theorem exists_tokens_take (hts : s.tokens = t :: u :: ts) (hlt : 1 < n) :
    ∃ us, (s.take n).tokens = t :: u :: us := by
  obtain ⟨m, rfl⟩ := Nat.exists_eq_add_of_lt hlt
  refine ⟨ts.take m, ?_⟩
  rw [Slice.tokens_take, hts, show 1 + m + 1 = m + 1 + 1 by omega, List.take_succ_cons,
    List.take_succ_cons]

/-- Behind the article that reads a slice stands an operand of every operator. -/
theorem isOperand_drop_of_fronts {level : Nat} (h : f.Fronts (s.drop 1))
    (hf : f.fixity.isOpenLeft = false) : (s.drop 1).IsOperand level .after := by
  refine ⟨f, h, fun hopen => ?_⟩
  have hleft : f.fixity.isOpenLeft = true := hopen
  rw [hf] at hleft
  cases hleft

/-- A slice stays divided where what is in front of a dividing word is cut off. -/
theorem Expr.Form.Divides.drop {k : Keyword} (h : f.Divides s n)
    (hj : (j, k) ∈ depthZero 0 0 s.tokens) (hk : k.IsDivider) (hlt : j + 1 < n) :
    f.Divides (s.drop (j + 1)) (n - (j + 1)) := by
  rw [divides_drop_iff hj hk.1 hk.2.1 (by omega), Nat.sub_add_cancel (Nat.le_of_lt hlt)]
  exact h

end words

section step

/-- The statement for what stands behind dividing words in front of the check. -/
def Slice.TailsHold (q : Form) (s : Slice) (n : Nat) : Prop :=
  ∀ j k, (j, k) ∈ depthZero 0 0 s.tokens → k.IsDivider → j + 1 < n →
    (s.drop (j + 1)).LosesCheck (n - (j + 1)) ∧ (s.drop (j + 1)).GainsCheck q (n - (j + 1))

variable (hs : s.IsRegular) (hq : q.fixity = .openLeft) (hn : q.Divides s n)
  (htails : s.TailsHold q n)

include hs hq hn

/-- An operand at the end of the slice begins in front of the check. -/
theorem lt_of_isOperand_drop {k : Keyword} {level : Nat} (hj : (j, k) ∈ depthZero 0 0 s.tokens)
    (hk : k.IsDivider) (h : (s.drop (j + 1)).IsOperand level .after) : j + 1 < n := by
  have hends := endsInCheck_of_divides hs hq hn
  have hlt := hends.lt_of_getElem? hk.2.2 (getElem?_of_mem_depthZero hj).2
  have hne : j + 1 ≠ n := by
    rintro rfl
    exact not_isOperand_drop hs hq hn h
  omega

include htails in
theorem keepsTails : f.KeepsTails s n := by
  intro j k hj hk hoperand
  have hlt := lt_of_isOperand_drop hs hq hn hj hk hoperand
  rw [Slice.drop_take]
  exact (htails j k hj hk hlt).1.isOperandOrFails hoperand

include htails in
/-- An operator that accepts a slice with a check at the end divides it without the check too. -/
theorem exists_divides_take (hg : g.Accepts s) (hleft : g.fixity.isOpenLeft = true) (hgq : g ≠ q) :
    ∃ i, g.Divides (s.take n) i ∧ ((s.take n).take i).IsOperand g.level .before ∧
      ((s.take n).drop (i + 1)).IsOperandOrFails g.level .after := by
  have hends := endsInCheck_of_divides hs hq hn
  obtain ⟨i, hi, hl, hr⟩ := exists_divides_of_accepts hleft hg
  cases g with
  | operators l =>
    obtain ⟨k, hk, hmem⟩ := hi.2.2
    have hdivider := isDivider_of_mem_signs hk
    have hlt := lt_of_isOperand_drop hs hq hn hmem hdivider (hr rfl)
    refine ⟨i, (divides_take_operators_iff (Nat.le_of_lt hends.lt_length)).mpr ⟨hi, hlt⟩, ?_, ?_⟩
    · rw [Slice.take_take s (by omega)]
      exact hl
    · rw [Slice.drop_take]
      exact (htails i k hmem hdivider hlt).1.isOperandOrFails (hr rfl)
  | typeCheck => exact absurd (eq_of_divides hq rfl hn hi).1 hgq
  | nullCheck => exact absurd (eq_of_divides hq rfl hn hi).1 hgq
  | _ => cases hleft

include htails in
/-- A form that accepts a slice with a check at the end does not reject it without. -/
theorem not_rejects_take_of_accepts (hg : g.Accepts s) (hne : g ≠ .article) (hgq : g ≠ q) :
    ¬ g.Rejects (s.take n) := by
  have hends := endsInCheck_of_divides hs hq hn
  cases hleft : g.fixity.isOpenLeft with
  | true =>
    obtain ⟨i, hi, hl, hr⟩ := exists_divides_take hs hq hn htails hg hleft hgq
    exact not_rejects_of_divides hi (.inl hl) fun _ => hr
  | false =>
    cases hright : g.fixity with
    | openRight => exact not_rejects_take hends hn.1 hright (keepsTails hs hq hn htails) hg
    | closed => exact absurd hg (not_accepts_closed hs hq hn hright)
    | transparent => exact absurd (isTransparent_iff.mp hright) hne
    | openLeft =>
      rw [hright] at hleft
      cases hleft
    | openBoth =>
      rw [hright] at hleft
      cases hleft

omit hs in
/-- A check does not reject what it divides behind an operand. -/
theorem not_rejects_check (h : (s.take n).IsOperand q.level .before) : ¬ q.Rejects s :=
  not_rejects_of_divides hn (.inl h) fun hright => by rw [hq] at hright; cases hright

include htails in
/-- A form that is looser than the check and ends with an operand does not reject with the check what
it reads without. -/
theorem not_rejects_of_reads_take (hh : h.Reads (s.take n)) (hright : h.fixity.isOpenRight = true)
    (hlevel : q.level < h.level) : ¬ h.Rejects s := by
  have hends := endsInCheck_of_divides hs hq hn
  have hle := Nat.le_of_lt hends.lt_length
  cases h with
  | ternary => exact (rejects_ternary_take_iff hends hn.1).mp hh.accepts.not_rejects
  | selection => exact (rejects_selection_take_iff hends hn.1).mp hh.accepts.not_rejects
  -- The sign that divides the slice without the check divides it with the check, too: its last
  -- operand gains the check.
  | operators l =>
    obtain ⟨i, hi, hl, hr⟩ := exists_divides_of_accepts rfl hh.accepts
    obtain ⟨hdivides, hlt⟩ := (divides_take_operators_iff hle).mp hi
    obtain ⟨k, hk, hmem⟩ := hdivides.2.2
    have hr' := hr rfl
    rw [Slice.take_take s (by omega)] at hl
    rw [Slice.drop_take] at hr'
    have hgains := (htails i k hmem (isDivider_of_mem_signs hk) hlt).2
    exact not_rejects_of_divides hdivides (.inl hl) fun _ => hgains.isOperandOrFails hlevel hr'
  | unary op =>
    obtain ⟨hstart, hr⟩ := isOperand_of_accepts_unary hh.accepts
    rw [Slice.startsWith_take hn.1] at hstart
    have hk := isDivider_unaryLead op
    have hmem := Slice.mem_depthZero_of_startsWith hstart hk
    have hlt : 0 + 1 < n := by
      have hpos := hr.length_pos
      rw [Slice.length_drop, Slice.length_take] at hpos
      omega
    rw [Slice.drop_take] at hr
    exact not_rejects_unary hstart ((htails 0 _ hmem hk hlt).2.isOperandOrFails hlevel hr)
  | phrase p =>
    have hlow : (Form.phrase p).level ≤ 855 := by cases p <;> decide
    have hhigh := le_level_of_check hq
    omega
  | slice => exact absurd (le_level_of_check hq) (Nat.not_le.mpr (Nat.lt_trans hlevel (by decide)))
  | index => exact absurd (le_level_of_check hq) (Nat.not_le.mpr (Nat.lt_trans hlevel (by decide)))
  | call => exact absurd (le_level_of_check hq) (Nat.not_le.mpr (Nat.lt_trans hlevel (by decide)))
  | list => exact absurd (le_level_of_check hq) (Nat.not_le.mpr (Nat.lt_trans hlevel (by decide)))
  | _ => cases hright

include htails in
/-- A form that begins with an operand and reads a slice without the check is no looser than the one
that reads it with the check. -/
theorem level_le_of_reads_take (hh : h.Reads (s.take n)) (hleft : h.fixity.isOpenLeft = true)
    (hg : g.Reads s) : h.level ≤ g.level := by
  have hfront := hh.fronts (not_article_of_isOpenLeft hleft)
  cases hright : h.fixity.isOpenRight with
  | true =>
    by_cases hlevel : q.level < h.level
    · exact hg.level_le (not_rejects_of_reads_take hs hq hn htails hh hright hlevel)
    · have hle := hg.level_le (not_rejects_check hq hn ⟨h, hfront, fun _ => Nat.not_lt.mp hlevel⟩)
      omega
  | false =>
    have hcheck := eq_openLeft hleft hright
    have hle := hg.level_le (not_rejects_check hq hn ⟨h, hfront, fun hopen => by
      rw [show h.fixity.faces .before = h.fixity.isOpenRight from rfl, hright] at hopen
      cases hopen⟩)
    rcases eq_typeCheck_or_nullCheck hq with rfl | rfl <;>
      rcases eq_typeCheck_or_nullCheck hcheck with rfl | rfl
    · exact hle
    · exact Nat.le_trans (by decide) hle
    · exact hg.level_le (not_rejects_typeCheck_of_take hn hh.accepts)
    · exact hle

include htails in
/-- A form that reads a slice with a check at the end leaves it to one that takes no less without. -/
theorem fails_or_fronts_take (hg : g.Reads s) (hne : g ≠ .article) :
    (s.take n).Fails ∨ ∃ h : Form, h.Fronts (s.take n) ∧
      (h.fixity.isOpenLeft = true → g.fixity.isOpenLeft = true ∧ h.level ≤ g.level) := by
  by_cases hgq : g = q
  · -- The check itself reads: what stands in front of it is its operand.
    subst hgq
    have hleft : g.fixity.isOpenLeft = true := by rw [hq]; rfl
    obtain ⟨i, hi, ⟨h, hh, -⟩, -⟩ := exists_divides_of_accepts hleft hg.accepts
    obtain ⟨-, rfl⟩ := eq_of_divides hq hq hn hi
    exact .inr ⟨h, hh, fun hopen =>
      ⟨hleft, level_le_of_reads_take hs hq hn htails (hh.reads_of_isOpenLeft hopen) hopen hg⟩⟩
  · have hnot := not_rejects_take_of_accepts hs hq hn htails hg.accepts hne hgq
    rcases fails_or_reads hn.length_take_pos hnot with hfails | ⟨h, hh, hle⟩
    · exact .inl hfails
    · obtain ⟨h', hh'⟩ := exists_fronts_of_reads hh
      refine .inr ⟨h', hh', fun hopen => ?_⟩
      have hread := hh'.reads_of_isOpenLeft hopen
      have hsame := hread.unique hh
      subst hsame
      have hle' := level_le_of_reads_take hs hq hn htails hread hopen hg
      have heq := Form.level_injective (Nat.le_antisymm hle hle')
      exact ⟨heq ▸ hopen, hle'⟩

include htails in
theorem losesCheck : s.LosesCheck n := by
  intro g hg
  rcases hg.reads_or_article with ⟨hne, hread⟩ | ⟨hread, hbehind, hclosed⟩
  · exact fails_or_fronts_take hs hq hn htails hread hne
  · obtain ⟨t, u, ts, hts, ht⟩ := article_of_not_rejects hread.accepts.not_rejects
    have hmem := mem_depthZero_of_isArticle hts ht
    have hdivider := isDivider_of_isArticle ht
    have hoperand : (s.drop 1).IsOperand 0 .after := isOperand_drop_of_fronts hbehind hclosed
    have hlt := lt_of_isOperand_drop hs hq hn hmem hdivider hoperand
    obtain ⟨us, htake⟩ := exists_tokens_take hts hlt
    have hregular : (s.take n).IsRegular := hs.of_isPartOf (s.isPartOf_take n)
    -- Behind an article stands a shorter slice with the same check, of which the statement holds.
    have hdrop : (s.take n).drop 1 = (s.drop 1).take (n - 1) := Slice.drop_take ..
    rcases (htails 0 _ hmem hdivider hlt).1 g hbehind with hfails | ⟨h, hh, hopen⟩
    · rw [Nat.zero_add, ← hdrop] at hfails
      exact .inl (fails_of_drop_fails hregular htake ht hfails)
    · rw [Nat.zero_add, ← hdrop] at hh
      have hclosed' : h.fixity.isOpenLeft = false := by
        rw [← Bool.not_eq_true]
        intro hleft
        rw [(hopen hleft).1] at hclosed
        cases hclosed
      have harticle := reads_of_accepts hregular (by decide) (accepts_article htake ht hh hclosed')
      exact .inr ⟨h, harticle.fronts_iff.mpr hh, fun hleft => by rw [hclosed'] at hleft; cases hleft⟩

include htails in
/-- A form that reads a slice without the check leaves it to the check or to one that takes no less
with it. -/
theorem fails_or_fronts (hh : h.Reads (s.take n)) (hne : h ≠ .article) :
    s.Fails ∨ ∃ g : Form, g.Fronts s ∧ (g.fixity.isOpenLeft = true →
      g.level ≤ q.level ∨ h.fixity.isOpenLeft = true ∧ g.level ≤ h.level) := by
  have hnot : ∃ f : Form, ¬ f.Rejects s := by
    by_cases hbind : h.fixity.isOpenRight = true ∧ q.level < h.level
    · exact ⟨h, not_rejects_of_reads_take hs hq hn htails hh hbind.1 hbind.2⟩
    · refine ⟨q, not_rejects_check hq hn ⟨h, hh.fronts hne, fun hopen => ?_⟩⟩
      by_contra hlt
      exact hbind ⟨hopen, Nat.not_le.mp hlt⟩
  obtain ⟨f, hf⟩ := hnot
  rcases fails_or_reads (Nat.lt_trans hn.1 hn.lt_length) hf with
    hfails | ⟨g₀, hg₀, -⟩
  · exact .inl hfails
  · obtain ⟨g, hg⟩ := exists_fronts_of_reads hg₀
    refine .inr ⟨g, hg, fun hleft => ?_⟩
    by_cases hlevel : g.level ≤ q.level
    · exact .inl hlevel
    · have hgq : g ≠ q := fun hsame => hlevel (hsame ▸ Nat.le_refl _)
      have hread := hg.reads_of_isOpenLeft hleft
      obtain ⟨i, hi, hl, hr⟩ := exists_divides_take hs hq hn htails hread.accepts hleft hgq
      have hle := hh.level_le (not_rejects_of_divides hi (.inl hl) fun _ => hr)
      refine .inr ⟨?_, hle⟩
      -- Otherwise the operator cuts the first operand of a form with a word in front.
      rw [← Bool.not_eq_false]
      intro hclosed
      have hne' : g.level ≠ h.level := by
        intro heq
        rw [← Form.level_injective heq, hleft] at hclosed
        cases hclosed
      exact not_isOperand_take (hs.of_isPartOf (s.isPartOf_take n)) hclosed hne
        hh.accepts.not_rejects hi (by omega) hl

include htails in
theorem gainsCheck : s.GainsCheck q n := by
  intro h hh
  rcases hh.reads_or_article with ⟨hne, hread⟩ | ⟨hread, hbehind, hclosed⟩
  · exact fails_or_fronts hs hq hn htails hread hne
  · obtain ⟨t, u, us, htake, ht⟩ := article_of_not_rejects hread.accepts.not_rejects
    obtain ⟨v, vs, hts⟩ : ∃ v vs, s.tokens = t :: v :: vs := by
      have happend : s.tokens = (s.take n).tokens ++ s.tokens.drop n :=
        (List.take_append_drop n _).symm
      rw [htake] at happend
      exact ⟨u, _, happend⟩
    have hlt : 1 < n := by
      have hlength := congrArg List.length htake
      rw [Slice.tokens_take, List.length_take, List.length_cons, List.length_cons] at hlength
      omega
    have hmem := mem_depthZero_of_isArticle hts ht
    -- Behind the article the statement holds, and the article changes nothing for what it says.
    rw [Slice.drop_take] at hbehind
    rcases (htails 0 _ hmem (isDivider_of_isArticle ht) hlt).2 h hbehind with
      hfails | ⟨g, hg, hopen⟩
    · exact .inl (fails_of_drop_fails hs hts ht hfails)
    · rcases (isSameBehind_of_isArticle hs hts ht).2 g hg with hg' | hfails
      · exact .inr ⟨g, hg', hopen⟩
      · exact .inl hfails

end step

/-- A check at the end of a slice is taken by its last operand, and leaves the rest as it was. -/
theorem losesCheck_and_gainsCheck (hs : s.IsRegular) (hq : q.fixity = .openLeft)
    (hn : q.Divides s n) : s.LosesCheck n ∧ s.GainsCheck q n := by
  induction hlength : s.length using Nat.strongRecOn generalizing s n with
  | _ m ih =>
    -- Behind every divider in front of the check the slice is shorter and ends with that check.
    have htails : s.TailsHold q n := by
      intro j k hj hk hlt
      have hdrop : (s.drop (j + 1)).length < m := by
        have hend := hn.lt_length
        rw [Slice.length_drop]
        omega
      exact ih _ hdrop (hs.of_isPartOf (s.isPartOf_drop _)) (hn.drop hj hk hlt) rfl
    exact ⟨losesCheck hs hq hn htails, gainsCheck hs hq hn htails⟩

theorem tailsHold (hs : s.IsRegular) (hq : q.fixity = .openLeft) (hn : q.Divides s n) :
    s.TailsHold q n :=
  fun _ _ hj hk hlt =>
    losesCheck_and_gainsCheck (hs.of_isPartOf (s.isPartOf_drop _)) hq (hn.drop hj hk hlt)

/-- What a check accepts no looser operator accepts. -/
theorem not_accepts_of_accepts_check (hs : s.IsRegular) (hq : q.fixity = .openLeft)
    (h : q.Accepts s) (hf : f.fixity.isOpenLeft = true) (hlt : q.level < f.level) :
    ¬ f.Accepts s := by
  intro h'
  obtain ⟨n, hn, ⟨g, hg, hbound⟩, -⟩ := exists_divides_of_accepts (by rw [hq]; rfl) h
  have hfq : f ≠ q := fun hsame => absurd hlt (hsame ▸ Nat.lt_irrefl _)
  have hright : f.fixity.isOpenRight = true := by
    rw [← Bool.not_eq_false]
    intro hclosed
    have hcheck := eq_openLeft hf hclosed
    obtain ⟨i, hi, -⟩ := exists_divides_of_accepts hf h'
    exact hfq (eq_of_divides hq hcheck hn hi).1
  have hregular : (s.take n).IsRegular := hs.of_isPartOf (s.isPartOf_take n)
  -- The operator divides what stands in front of the check, which another form reads already.
  obtain ⟨i, hi, hl, hr⟩ := exists_divides_take hs hq hn (tailsHold hs hq hn) h' hf hfq
  rcases hg.reads_or_article with ⟨hne, hread⟩ | ⟨hread, -⟩
  · have hle := hread.level_le (not_rejects_of_divides hi (.inl hl) fun _ => hr)
    cases hleft : g.fixity.isOpenLeft with
    | true =>
      have hgcheck : g.fixity = .openLeft := by
        cases hopen : g.fixity.isOpenRight with
        | true =>
          have hle' := hbound hopen
          omega
        | false => exact eq_openLeft hleft hopen
      have hhigh := level_le_of_check hgcheck
      have hlow := le_level_of_check hq
      exact not_level_between_checks hf hright (by omega) (by omega)
    | false =>
      have hne' : f.level ≠ g.level := by
        intro heq
        rw [← Form.level_injective heq, hf] at hleft
        cases hleft
      exact not_isOperand_take hregular hleft hne hread.accepts.not_rejects hi (by omega) hl
  · exact not_isOperand_take_of_article hregular hread.accepts hi (fun _ => hr) hl

end Prose
