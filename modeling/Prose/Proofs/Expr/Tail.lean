import Prose.Proofs.Expr.Tail.Lists
import Prose.Proofs.Expr.Tail.Phrases

namespace Prose

open Prose.Expr Grammar

variable {f g : Form} {s : Slice} {t : Token} {ts : List Token} {i n : Nat}

section closed

theorem length_eq_one_of_readToken {value : Token → Option (Query Expr)} {e : Expr}
    (h : (readToken s value).resolve standard.outcome = .ok (some e)) : s.length = 1 := by
  rw [readToken] at h
  split at h
  · rename_i t hs
    rw [Slice.length, hs]
    rfl
  · cases h

/-- A cast ends with `as a` and one type. -/
theorem exists_as_of_accepts_cast (h : Form.cast.Accepts s) : s.startsWith .cast = true ∧
    ∃ i t, s.first .asA 1 = some i ∧ s.tokens.drop (i + 1) = [t] ∧
      (TypeName.ofKeyword? t.keyword).isSome = true := by
  obtain ⟨e, he⟩ := h
  rw [verdict, Form.read, readCast_eq] at he
  cases hstart : s.startsWith .cast with
  | false =>
    rw [hstart] at he
    cases he
  | true =>
    rw [hstart] at he
    simp only [if_true] at he
    split at he
    · cases he
    · rename_i i hi
      obtain ⟨value, -, he⟩ := Inquiry.resolve_bind_eq_ok.mp he
      obtain ⟨target, htarget, he⟩ := Inquiry.resolve_bind_eq_ok.mp he
      obtain ⟨t, ht, hk⟩ := tokens_of_requiredType htarget
      exact ⟨rfl, i, t, hi, ht, hk⟩

/-- The other closed forms are one token. -/
theorem accepts_closed (hf : f.fixity = .closed) (h : f.Accepts s) :
    f = .parenthesized ∨ f = .cast ∨ s.length = 1 := by
  cases f with
  | parenthesized => exact .inl rfl
  | cast => exact .inr (.inl rfl)
  | number => exact .inr (.inr (length_eq_one_of_readToken h.choose_spec))
  | ordinal => exact .inr (.inr (length_eq_one_of_readToken h.choose_spec))
  | text => exact .inr (.inr (length_eq_one_of_readToken h.choose_spec))
  | constant => exact .inr (.inr (length_eq_one_of_readToken h.choose_spec))
  | identifier =>
    obtain ⟨e, he⟩ := h
    refine .inr (.inr ?_)
    rw [verdict, Form.read, readIdentifier_eq, Slice.name?] at he
    split at he
    · rename_i t hs
      rw [Slice.length, hs]
      rfl
    · cases he
  | _ => cases hf

/-- Without its `as a` a slice that begins with `cast` is not read. -/
theorem not_reads_of_no_as (hs : s.IsRegular) (hts : s.tokens = t :: ts) (ht : t.keyword = .cast)
    (hno : ∀ i, (i, Keyword.asA) ∉ depthZero 0 0 s.tokens) : ¬ g.Reads s := by
  induction hn : s.length using Nat.strongRecOn generalizing s ts g with
  | _ n ih =>
    intro h
    have hstart : s.startsWith .cast = true := Slice.startsWith_iff.mpr ⟨t, ts, hts, ht⟩
    have hsign : t.keyword ∈ Form.cast.signs := by rw [ht]; decide
    rcases h.accepts.eq_or_divides hs hts rfl hsign (by rw [ht]; decide) with
      rfl | ⟨i, hi, ⟨f, hf, -⟩, -⟩
    · obtain ⟨-, i, t', hi, -⟩ := exists_as_of_accepts_cast h.accepts
      have hhead := Slice.mem_depthZero_of_startsWith hstart (by decide)
      exact hno i (Slice.mem_depthZero_of_first hhead (by decide) hi)
    · obtain ⟨f', hf'⟩ := hf.exists_reads
      refine ih _ (hn ▸ hi.length_take) (hs.of_isPartOf (s.isPartOf_take i)) (hi.tokens_take hts)
        (fun j hj => ?_) rfl hf'
      have happend : s.tokens = (s.take i).tokens ++ s.tokens.drop i :=
        (List.take_append_drop i _).symm
      refine hno j ?_
      rw [happend]
      exact mem_depthZero_append_left _ hj

/-- No operator divides what a cast reads between operands of its own. -/
theorem not_isOperand_take_of_cast {level : Nat} {side : Side} (hs : s.IsRegular)
    (h : Form.cast.Accepts s) (hi : f.Divides s i) : ¬ (s.take i).IsOperand level side := by
  rintro ⟨g, hg, -⟩
  obtain ⟨g', hg'⟩ := hg.exists_reads
  obtain ⟨hstart, j, t, hj, ht, htype⟩ := exists_as_of_accepts_cast h
  obtain ⟨hend, hlast⟩ := Slice.getLast?_of_drop ht
  have hlt := Slice.lt_length_of_first hj
  -- Behind the `as` stands only the word of the type, so the division does not lie there.
  have hle : i ≤ j := by
    cases f with
    | operators l =>
      have hinside := hi.2.1
      omega
    | typeCheck =>
      have hlength := hi.2.1
      omega
    | nullCheck =>
      obtain ⟨-, -, t', ht', hk⟩ := hi
      rw [hlast] at ht'
      cases ht'
      exact absurd hk (not_mem_signs_of_type htype)
    | _ => exact hi.2.elim
  obtain ⟨u, us, hts, hu⟩ := Slice.startsWith_iff.mp hstart
  refine not_reads_of_no_as (hs.of_isPartOf (s.isPartOf_take i)) (hi.tokens_take hts) hu
    (fun m hm => ?_) hg'
  have hlt' : m < i := by
    have hlength := Slice.lt_length_of_getElem? (getElem?_of_mem_depthZero hm).2
    rw [Slice.length_take] at hlength
    exact Nat.lt_of_lt_of_le hlength (Nat.min_le_left _ _)
  -- An `as` in front of the division would be found before the first one of the slice.
  have happend : s.tokens = (s.take i).tokens ++ s.tokens.drop i := (List.take_append_drop i _).symm
  have hmem : (m, Keyword.asA) ∈ depthZero 0 0 s.tokens := by
    rw [happend]
    exact mem_depthZero_append_left _ hm
  have hflat : u.IsFlat := by
    rw [Token.IsFlat, hu]
    decide
  rw [hts, depthZero_flat hflat, hu] at hmem
  have hbehind : (m, Keyword.asA) ∈ depthZero 0 1 (s.tokens.drop 1) := by
    rw [hts]
    simpa using hmem
  have hle' := Slice.le_of_first hj hbehind
  omega

end closed

/-- A form that begins with a word and ends with an operand accepts with a check at the end only what
it does not reject without. -/
theorem not_rejects_take (hs : s.EndsInCheck n) (hpos : 0 < n) (hf : f.fixity = .openRight)
    (htails : f.KeepsTails s n) (h : f.Accepts s) : ¬ f.Rejects (s.take n) := by
  cases f with
  | ternary => exact (rejects_ternary_take_iff hs hpos).mpr h.not_rejects
  | selection => exact (rejects_selection_take_iff hs hpos).mpr h.not_rejects
  | unary op => exact not_rejects_take_unary hs htails h
  | phrase p => exact not_rejects_take_phrase hs htails h
  | slice => exact not_rejects_take_slice hs htails h
  | index => exact not_rejects_take_index hs htails h
  | call => exact not_rejects_take_call hs htails h
  | list => exact not_rejects_take_list hs htails h
  | _ => cases hf

end Prose
