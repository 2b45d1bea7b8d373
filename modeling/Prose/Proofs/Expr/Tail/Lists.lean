import Prose.Proofs.Expr.Tail.Frame

namespace Prose

open Prose.Expr Grammar

variable {s : Slice} {k : Keyword} {n : Nat}

section items

variable {origin name : String} {level : Nat} {whole : List Token} {parts : List Slice}
  {last : Slice}

theorem isOperand_of_readItems {es : List Expr} (hlast : parts.getLast? = some last)
    (h : (readItems origin name level whole parts).resolve standard.outcome = .ok (some es)) :
    last.IsOperand level .after := by
  induction parts generalizing es with
  | nil => cases hlast
  | cons part parts ih =>
    cases parts with
    | nil =>
      cases hlast
      obtain ⟨_ | e, hoperand, h⟩ := Inquiry.resolve_bind_eq_ok.mp h
      · cases h
      · exact isOperand_of_requiredOperand hoperand
    | cons part' parts =>
      obtain ⟨e, -, h⟩ := Inquiry.resolve_bind_eq_ok.mp h
      obtain ⟨_ | es', hrest, h⟩ := Inquiry.resolve_bind_eq_ok.mp h
      · cases h
      · exact ih hlast hrest

theorem readItems_ne_none (hlast : ∀ last, parts.getLast? = some last →
      last.IsOperandOrFails level .after) :
    (readItems origin name level whole parts).resolve standard.outcome ≠ .ok none := by
  induction parts with
  | nil => exact fun h => by cases h
  | cons part parts ih =>
    intro h
    cases parts with
    | nil =>
      obtain ⟨_ | e, hoperand, h⟩ := Inquiry.resolve_bind_eq_ok.mp h
      · exact requiredOperand_ne_none (hlast part rfl) hoperand
      · cases h
    | cons part' parts =>
      obtain ⟨e, -, h⟩ := Inquiry.resolve_bind_eq_ok.mp h
      obtain ⟨_ | es', hrest, h⟩ := Inquiry.resolve_bind_eq_ok.mp h
      · exact ih hlast hrest
      · cases h

namespace Slice

theorem getLast?_cutAt (s : Slice) (i : Nat) (js : List Nat) :
    (s.cutAt i js).getLast? = some (s.drop ((js.getLast?.map (· + 1)).getD i)) := by
  induction js generalizing i with
  | nil => rfl
  | cons j js ih =>
    rw [cutAt, List.getLast?_cons, ih, List.getLast?_cons]
    cases js.getLast? <;> rfl

/-- The last piece begins behind the last divider, if there is one. -/
theorem getLast?_split (hs : 0 < s.length) :
    (s.split k).getLast? = some (s.drop (((s.allOf k).getLast?.map (· + 1)).getD 0)) := by
  rw [split_eq, isEmpty_eq_false_of_pos hs, if_neg Bool.false_ne_true, getLast?_cutAt]

/-- The last item behind a dividing word begins behind a dividing word too, and begins there also
when the words of a check are cut off. -/
theorem exists_getLast?_split {d : Nat} (hd : (d, k) ∈ depthZero 0 0 s.tokens) (hk : k.IsDivider)
    (hlength : d + 1 < s.length) : ∃ j k', (j, k') ∈ depthZero 0 0 s.tokens ∧ k'.IsDivider ∧ d ≤ j ∧
      ((s.drop (d + 1)).split .comma).getLast? = some (s.drop (j + 1)) ∧
        ∀ n, s.EndsInCheck n → d + 1 < n →
          (((s.take n).drop (d + 1)).split .comma).getLast? = some ((s.take n).drop (j + 1)) := by
  have htake (n : Nat) (hn : s.EndsInCheck n) (hlt : d + 1 < n) :
      ((s.take n).drop (d + 1)).allOf .comma = (s.drop (d + 1)).allOf .comma := by
    rw [drop_take, allOf_take]
    rw [tokens_drop, List.drop_drop, Nat.add_sub_cancel' (Nat.le_of_lt hlt)]
    exact hn.keyword_ne (by decide)
  have hpos : 0 < (s.drop (d + 1)).length := by
    rw [length_drop]
    omega
  have hpos' (n : Nat) (hn : s.EndsInCheck n) (hlt : d + 1 < n) :
      0 < ((s.take n).drop (d + 1)).length := by
    have hle := hn.lt_length
    rw [length_drop, length_take]
    omega
  -- The last item stands behind the last comma, or, if there is none, behind the dividing word.
  match hlast : ((s.drop (d + 1)).allOf .comma).getLast? with
  | none =>
    refine ⟨d, k, hd, hk, Nat.le_refl d, ?_, fun n hn hlt => ?_⟩
    · rw [getLast?_split hpos, hlast]
      rfl
    · rw [getLast?_split (hpos' n hn hlt), htake n hn hlt, hlast]
      rfl
  | some c =>
    have hmem := mem_depthZero_of_mem_allOf (List.mem_of_getLast? hlast)
    have hindex : d + 1 + (c + 1) = c + (d + 1) + 1 := by omega
    refine ⟨c + (d + 1), .comma, (mem_depthZero_drop_iff hd hk.1 hk.2.1).mp hmem, by decide,
      by omega, ?_, fun n hn hlt => ?_⟩
    · rw [getLast?_split hpos, hlast, Option.map_some, Option.getD_some, drop_drop, hindex]
    · rw [getLast?_split (hpos' n hn hlt), htake n hn hlt, hlast, Option.map_some,
        Option.getD_some, drop_drop, hindex]

end Slice

end items

section list

theorem not_rejects_take_list (hs : s.EndsInCheck n) (htails : Form.list.KeepsTails s n)
    (h : Form.list.Accepts s) : ¬ Form.list.Rejects (s.take n) := by
  obtain ⟨e, he⟩ := h
  rw [verdict, Form.read, readList_eq] at he
  split at he
  · rename_i hempty
    have hpos := hs.pos (by decide) hempty.2
    have hlt := hs.lt_length
    omega
  · split at he
    · rename_i hstart
      have hpos := hs.pos (by decide) hstart.2
      have hhead := Slice.mem_depthZero_of_startsWith hstart.2 (by decide)
      obtain ⟨j, k, hj, hk, -, hlast, hlast'⟩ :=
        Slice.exists_getLast?_split hhead (by decide) (by omega)
      obtain ⟨_ | items, hitems, he⟩ := Inquiry.resolve_bind_eq_ok.mp he
      · cases he
      · -- The last item is an operand without the words of the check, too, so reading the items
        -- does not end in a rejection.
        have htail := htails j k hj hk (isOperand_of_readItems hlast hitems)
        have hlength := htail.length_pos
        rw [Slice.length_drop, Slice.length_take] at hlength
        have hstart' : 2 ≤ (s.take n).length ∧ (s.take n).startsWith .listOf = true := by
          rw [Slice.startsWith_take hpos, Slice.length_take]
          exact ⟨by omega, hstart.2⟩
        rw [Form.Rejects, verdict, Form.read, readList_eq, if_neg (fun h => by omega), if_pos hstart']
        intro hreject
        obtain ⟨_ | items', hitems', hreject⟩ := Inquiry.resolve_bind_eq_ok.mp hreject
        · refine readItems_ne_none (fun last hl => ?_) hitems'
          rw [hlast' n hs (by omega)] at hl
          cases hl
          exact htail
        · cases hreject
    · cases he

end list

section call

theorem isDivider_of_name? {t : Token} {callee : String} (ht : t.IsRegular)
    (h : t.name? = some callee) : t.keyword.IsDivider := by
  have hkind : t.kind = .identifier := by
    rw [Token.name?] at h
    split at h
    · rename_i hkind
      exact hkind.1
    · cases h
  rcases ht (by rw [hkind]; rfl) with hk | hk
  · rw [hk]
    decide
  · rw [hk]
    decide

/-- A call with arguments has its name and `with` in front of them. -/
theorem with_of_accepts_call (hs : s.IsRegular) (h : Form.call.Accepts s) :
    (∃ c f, s.tokens = [c, f] ∧ f.keyword.isCheckWord = false) ∨
      ∃ c f w ts callee, s.tokens = c :: f :: w :: ts ∧ ts ≠ [] ∧ f.name? = some callee ∧
        w.keyword = .withWord ∧ s.startsWith .call = true ∧
          ∀ last, ((s.drop 3).split .comma).getLast? = some last →
            last.IsOperand Form.call.level .after := by
  obtain ⟨e, he⟩ := h
  rw [verdict, Form.read, readCall_eq] at he
  cases hstart : s.startsWith .call with
  | false =>
    rw [hstart] at he
    cases he
  | true =>
    obtain ⟨c, ts, hts, hc⟩ := Slice.startsWith_iff.mp hstart
    rw [hstart, hts] at he
    simp only [if_true, List.drop_one, List.tail_cons] at he
    cases ts with
    | nil => cases he
    | cons f rest =>
      simp only at he
      cases hname : f.name? with
      | none =>
        rw [hname] at he
        cases he
      | some callee =>
        have hf : f.IsRegular := hs f (by rw [hts]; simp)
        rw [hname] at he
        -- Nothing follows the name, or one token does, which is no call, or `with` and the
        -- arguments.
        rcases rest with _ | ⟨w, _ | ⟨x, xs⟩⟩
        · exact .inl ⟨c, f, hts, (isDivider_of_name? hf hname).2.2⟩
        · simp only at he
          split at he
          · cases he
          · cases he
        · simp only at he
          split at he
          · rename_i hw
            refine .inr ⟨c, f, w, x :: xs, callee, hts, by simp, hname, hw, rfl, ?_⟩
            intro last hlast
            obtain ⟨_ | items, hitems, he⟩ := Inquiry.resolve_bind_eq_ok.mp he
            · cases he
            · exact isOperand_of_readItems hlast hitems
          · cases he

theorem not_rejects_call {c f w : Token} {ts : List Token} {callee : String}
    (hts : s.tokens = c :: f :: w :: ts) (hstart : s.startsWith .call = true)
    (hname : f.name? = some callee) (hw : w.keyword = .withWord)
    (hlast : ∀ last, ((s.drop 3).split .comma).getLast? = some last →
      last.IsOperandOrFails Form.call.level .after) : ¬ Form.call.Rejects s := by
  rw [Form.Rejects, verdict, Form.read, readCall_eq, hstart, hts]
  simp only [if_true, List.drop_one, List.tail_cons, hname]
  intro hreject
  cases ts with
  | nil =>
    simp only [hw, if_true] at hreject
    cases hreject
  | cons x xs =>
    simp only [hw, if_true] at hreject
    obtain ⟨_ | items, hitems, hreject⟩ := Inquiry.resolve_bind_eq_ok.mp hreject
    · exact readItems_ne_none hlast hitems
    · cases hreject

theorem not_rejects_take_call (hs : s.EndsInCheck n) (htails : Form.call.KeepsTails s n)
    (h : Form.call.Accepts s) : ¬ Form.call.Rejects (s.take n) := by
  rcases with_of_accepts_call hs.regular h with
    ⟨c, f, hts, hf⟩ | ⟨c, f, w, ts, callee, hts, hne, hname, hw, hstart, hlast⟩
  -- A call without arguments ends with a name, and no check does.
  · have hlt := hs.lt_of_getElem? (j := 1) hf (by rw [hts]; rfl)
    have hlength := hs.lt_length
    rw [Slice.length, hts] at hlength
    simp only [List.length_cons, List.length_nil] at hlength
    omega
  · have hf : f.keyword.IsDivider := isDivider_of_name? (hs.regular f (by rw [hts]; simp)) hname
    have hc : c.keyword = .call := by
      obtain ⟨c', ts', hts', hc⟩ := Slice.startsWith_iff.mp hstart
      rw [hts] at hts'
      exact (List.cons.inj hts').1 ▸ hc
    have hpos := hs.lt_of_getElem? (j := 2) (k := .withWord) (by decide) (by rw [hts]; simp [hw])
    have hwith : (2, Keyword.withWord) ∈ depthZero 0 0 s.tokens := by
      rw [hts, depthZero_flat ⟨by rw [hc]; rfl, by rw [hc]; rfl⟩, depthZero_flat ⟨hf.1, hf.2.1⟩,
        depthZero_flat ⟨by rw [hw]; rfl, by rw [hw]; rfl⟩, hw]
      simp
    have hlength : 3 < s.length := by
      have hts' := List.length_pos_iff.mpr hne
      rw [Slice.length, hts]
      simp only [List.length_cons]
      omega
    obtain ⟨j, k, hj, hk, hle, hlast₀, hlast'⟩ :=
      Slice.exists_getLast?_split hwith (by decide) hlength
    -- The check stands behind `with`, so the first three tokens stay.
    obtain ⟨m, rfl⟩ : ∃ m, n = m + 3 := ⟨n - 3, by omega⟩
    have htokens : (s.take (m + 3)).tokens = c :: f :: w :: ts.take m := by
      rw [Slice.tokens_take, hts]
      rfl
    refine not_rejects_call htokens ?_ hname hw ?_
    · rw [Slice.startsWith_take (by omega), hstart]
    · intro last hl
      have htail := htails j k hj hk (hlast _ hlast₀)
      have hlong := htail.length_pos
      rw [Slice.length_drop, Slice.length_take] at hlong
      rw [hlast' _ hs (by omega)] at hl
      cases hl
      exact htail

end call

end Prose
