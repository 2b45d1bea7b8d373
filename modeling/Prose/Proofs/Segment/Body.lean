import Prose.Proofs.Segment.Chain
import Prose.Proofs.Slice.Prefix

namespace Prose

namespace Segment

def EndsBody (ts : List Token) : Prop :=
  ∃ t ∈ ts.getLast?, t.keyword = .endOfStatement ∨ t.keyword = .blockEnd

/-- The moves of a division that has begun a segment take it through all the tokens, and it cuts
behind the last one. -/
inductive CutsBehind : Bool → Nat → List Token → Prop
  | cut {inDo depth t} (h : move inDo depth t.keyword none = .cut) : CutsBehind inDo depth [t]
  | pass {inDo depth inner t ts} (h : move inDo depth t.keyword (next ts) = .pass 0 inner inDo)
      (hrest : CutsBehind inDo inner ts) : CutsBehind inDo depth (t :: ts)
  | tail {t u ts} (ht : t.keyword = .blockEnd) (hu : u.keyword.isLoopTail = true)
      (hrest : CutsBehind false 0 ts) : CutsBehind true 1 (t :: u :: ts)

variable {strict inDo inDo' : Bool} {s : Slice} {size depth extra inner : Nat} {t u : Token}
  {ts : List Token}

section moves

theorem move_tail (hu : u.keyword.isLoopTail = true) :
    move true 1 .blockEnd (next (u :: ts)) = .pass 1 0 false := by
  rw [Keyword.isLoopTail] at hu
  simp only [move, next, List.head?_cons, Option.map_some, Bool.true_and, hu]
  rfl

/-- The depth behind a move that passes tokens. -/
theorem weight_of_pass {k : Keyword} {next : Option Keyword}
    (h : move inDo depth k next = .pass extra inner inDo') : (inner : Int) = depth + k.weight := by
  unfold move at h
  split_ifs at h with hopener hcloser hzero hend hdot
  · cases h
    rw [Keyword.weight_of_isOpener hopener]
    rfl
  · rw [Keyword.weight_of_isCloser hcloser, hend.1]
    cases next with
    | none => cases h
    | some u =>
      simp only at h
      split_ifs at h <;> cases h <;> rfl
  · cases h
    rw [Keyword.weight_of_isCloser hcloser]
    omega
  · cases h
    rw [Bool.not_eq_true] at hopener hcloser
    rw [Keyword.weight_of_flat hopener hcloser, Int.add_zero]

/-- The depth behind the token at which a segment ends. -/
theorem weight_of_cut {k : Keyword} {next : Option Keyword} (h : move inDo depth k next = .cut) :
    (0 : Int) = depth + k.weight := by
  unfold move at h
  split_ifs at h with hopener hcloser hzero hend hdot
  · rw [Keyword.weight_of_isCloser hcloser, hend.1]
    rfl
  · rw [hdot.1, hdot.2]
    rfl

theorem weight_of_isLoopTail {k : Keyword} (h : k.isLoopTail = true) : k.weight = 0 := by
  rw [Keyword.isLoopTail, Bool.or_eq_true, beq_iff_eq, beq_iff_eq] at h
  rcases h with h | h <;> rw [h] <;> rfl

theorem weight_of_tail (ht : t.keyword = .blockEnd) :
    ((0 : Nat) : Int) = ((1 : Nat) : Int) + t.keyword.weight := by
  rw [ht]
  rfl

/-- Behind a block end a statement goes on only with a word that continues it. -/
theorem continues_of_pass (h : move inDo 1 .blockEnd (next (u :: ts)) = .pass 0 inner inDo') :
    continuesStatement u.keyword = true := by
  simp only [move, next, List.head?_cons, Option.map_some, Keyword.isOpener, Keyword.isCloser,
    Bool.false_eq_true, if_false, if_true, Nat.one_ne_zero, and_self] at h
  by_contra hcontinues
  rw [if_neg hcontinues] at h
  split_ifs at h
  cases h

/-- The end of a segment does not depend on whether a `while` might follow. -/
theorem move_of_cut {k : Keyword} (h : move inDo depth k none = .cut) :
    move false depth k none = .cut := by
  unfold move at h ⊢
  split_ifs at h ⊢ <;> rfl

theorem move_of_pass {k : Keyword} {next : Option Keyword}
    (h : move inDo depth k next = .pass 0 inner inDo) :
    move false depth k next = .pass 0 inner false := by
  unfold move at h ⊢
  split_ifs at h ⊢ with hopener hcloser hzero hend hdot
  · cases h
    rfl
  · cases next with
    | none => cases h
    | some u =>
      simp only [Bool.false_and, Bool.false_eq_true, if_false] at h ⊢
      split_ifs at h ⊢ <;> cases h
      rfl
  · cases h
    rfl
  · cases h
    rfl

/-- The last token of a body is passed over only inside of brackets. -/
theorem pos_of_pass (ht : t.keyword = .endOfStatement ∨ t.keyword = .blockEnd)
    (h : move inDo depth t.keyword none = .pass extra inner inDo') : 0 < inner := by
  rcases ht with ht | ht
  · rw [ht] at h
    simp only [move, Keyword.isOpener, Keyword.isCloser, Bool.false_eq_true, if_false, true_and] at h
    split_ifs at h with hdepth
    cases h
    exact Nat.pos_of_ne_zero hdepth
  · rw [ht] at h
    simp only [move, Keyword.isOpener, Keyword.isCloser, Bool.false_eq_true, if_false, if_true,
      and_true] at h
    split_ifs at h with hzero hone
    cases h
    omega

end moves

section division

/-- The statement that is cut behind the last token is the whole slice. -/
theorem push_last (h : s.length = size) :
    push (s.take size) (divideFrom strict (s.drop size) 0 0 false []) = push s ⟨[], none⟩ := by
  have htake : s.take size = s := by
    rw [Slice.take, List.take_of_length_le (Nat.le_of_eq h)]
  have hdrop : (s.drop size).isOnlyTerminators = true := by
    rw [Slice.isOnlyTerminators, Slice.drop, List.drop_of_length_le (Nat.le_of_eq h)]
    rfl
  rw [htake, divideFrom, rest_eq, if_neg (Nat.lt_irrefl 0), hdrop, if_pos rfl]

theorem CutsBehind.ne_nil (h : CutsBehind inDo depth ts) : ts ≠ [] := by
  cases h <;> exact List.cons_ne_nil _ _

/-- A division that has begun a segment ends it behind such tokens. -/
theorem CutsBehind.divideFrom_eq (h : CutsBehind inDo depth ts) (hsize : 0 < size)
    (hlength : s.length = size + ts.length) (strict : Bool) :
    divideFrom strict s size depth inDo ts = push s ⟨[], none⟩ := by
  induction h generalizing size with
  | @cut inDo depth t h =>
    rw [divideFrom_cons, if_neg (Nat.ne_of_gt hsize), next, List.head?_nil, Option.map_none, h]
    exact push_last hlength
  | @pass inDo depth inner t ts h _ ih =>
    rw [List.length_cons] at hlength
    rw [divideFrom_cons, if_neg (Nat.ne_of_gt hsize), h]
    exact ih (Nat.succ_pos size) (by omega)
  | @tail t u ts ht hu _ ih =>
    rw [List.length_cons, List.length_cons] at hlength
    rw [divideFrom_cons, if_neg (Nat.ne_of_gt hsize), ht, move_tail hu]
    exact ih (by omega) (by omega)

theorem EndsBody.drop {n : Nat} (h : EndsBody ts) (hne : ts.drop n ≠ []) : EndsBody (ts.drop n) := by
  have hlength : ¬ts.length ≤ n := fun hle => hne (List.drop_of_length_le hle)
  rw [EndsBody, List.getLast?_drop, if_neg hlength]
  exact h

/-- A body does not end behind a token that is passed over: a bracket would still be open there. -/
theorem ne_nil_of_pass (hlast : EndsBody (t :: ts))
    (hmove : move inDo depth t.keyword (next ts) = .pass extra inner inDo')
    (h : (divideFrom strict s size inner inDo' ts).segments = [statement s]) : ts ≠ [] := by
  rintro rfl
  obtain ⟨u, hu, hk⟩ := hlast
  cases hu
  have hopen := pos_of_pass hk hmove
  rw [divideFrom, rest_eq, if_pos hopen] at h
  cases h

/-- No `while` or `until` ends a body. -/
theorem ne_nil_of_isLoopTail (hlast : EndsBody (t :: u :: ts)) (hu : u.keyword.isLoopTail = true) :
    ts ≠ [] := by
  rintro rfl
  obtain ⟨v, hv, hend⟩ := hlast
  have hlast : u = v := Option.some.inj hv
  subst hlast
  rcases hend with hend | hend <;> rw [hend] at hu <;> cases hu

/-- The segment that is cut is the whole slice only if no token stands behind it. -/
theorem eq_nil_of_push (hsize : 0 < size) (hlength : s.length = size + ts.length)
    (h : (push (s.take size) (divideFrom strict (s.drop size) 0 0 false ts)).segments =
      [statement s]) : ts = [] := by
  have hpart : ¬s.IsPartOf (s.drop size) := by
    intro hpart
    have hle := hpart.length_le
    rw [Slice.length_drop] at hle
    omega
  unfold push at h
  split at h
  · have hmem : s ∈ (divideFrom strict (s.drop size) 0 0 false ts).slices := by
      rw [Division.slices, h]
      exact List.mem_singleton.mpr rfl
    exact absurd (isPartOf_of_mem_divideFrom hmem) hpart
  · have htake : s.take size = s := statement.inj (List.cons.inj h).1
    have hsame := congrArg Slice.length htake
    rw [Slice.length_take] at hsame
    exact List.eq_nil_of_length_eq_zero (by omega)

/-- Tokens that are one segment of their own are cut behind their last token. -/
theorem cutsBehind_of_divideFrom (hlast : EndsBody ts) (hlength : s.length = size + ts.length)
    (h : (divideFrom strict s size depth inDo ts).segments = [statement s]) :
    CutsBehind (if size = 0 then ts.head?.any (·.keyword == .doWord) else inDo) depth ts := by
  induction ts using drop_induction generalizing size depth inDo with
  | nil =>
    obtain ⟨t, ht, -⟩ := hlast
    cases ht
  | cons t ts ih =>
    rw [divideFrom_cons] at h
    rw [List.head?_cons, Option.any_some]
    generalize (if size = 0 then t.keyword == .doWord else inDo) = inDo at h ⊢
    rw [List.length_cons] at hlength
    -- By what the division does with the first token: it goes on behind it, ends a segment, or
    -- finds a closer without an opener.
    match hmove : move inDo depth t.keyword (next ts) with
    | .pass extra inner inDo' =>
      rw [hmove] at h
      simp only at h
      have hrest (hne : ts.drop extra ≠ []) : CutsBehind inDo' inner (ts.drop extra) := by
        have hextra : extra < ts.length := by
          rw [ne_eq, List.drop_eq_nil_iff] at hne
          omega
        have hrest := ih extra (hlast.drop (n := extra + 1) hne) (by rw [List.length_drop]; omega) h
        rwa [if_neg (by omega)] at hrest
      -- It passes one token, or a block end together with the word behind it.
      obtain ⟨rfl, rfl⟩ | ⟨rfl, rfl, rfl, rfl, rfl, ht, k, hnext, hk⟩ := pass_cases hmove
      · exact .pass hmove (hrest (ne_nil_of_pass hlast hmove h))
      · obtain ⟨u, us, rfl⟩ : ∃ u us, ts = u :: us := by
          cases ts with
          | nil => cases hnext
          | cons u us => exact ⟨u, us, rfl⟩
        cases hnext
        exact .tail ht hk (hrest (ne_nil_of_isLoopTail hlast hk))
    | .cut =>
      rw [hmove] at h
      have hnil : ts = [] := eq_nil_of_push (Nat.succ_pos size) (by omega) h
      subst hnil
      exact .cut hmove
    | .stray =>
      rw [hmove] at h
      cases h

end division

section brackets

/-- A statement closes the brackets that it opens. -/
theorem CutsBehind.balancedFrom (h : CutsBehind inDo depth ts) : BalancedFrom depth ts := by
  induction h with
  | cut h => exact .cons (balancedFrom_nil.mpr rfl) (weight_of_cut h)
  | pass h _ ih => exact .cons ih (weight_of_pass h)
  | tail ht hu _ ih => exact .cons (.cons ih (by rw [weight_of_isLoopTail hu]; rfl)) (weight_of_tail ht)

/-- A token belongs to the lower of the levels in front of it and behind it, and behind it a search
goes on at the level there. -/
theorem depthZero_pass (hinner : (inner : Int) = depth + t.keyword.weight) (i : Nat)
    (ts : List Token) :
    depthZero depth i (t :: ts) =
      (if min depth inner = 0 then [(i, t.keyword)] else []) ++ depthZero inner (i + 1) ts := by
  -- A closer belongs to the level behind it, every other token to the one in front of it.
  by_cases hcloser : t.keyword.isCloser = true
  · rw [Keyword.weight_of_isCloser hcloser] at hinner
    rw [depthZero_closer _ i ts hcloser, if_neg (by omega)]
    by_cases hzero : inner = 0
    · rw [if_pos (by omega), if_pos (by omega), hzero]
      rfl
    · rw [if_neg (by omega), if_neg (by omega), show (depth : Int) - 1 = inner by omega]
      rfl
  · rw [Bool.not_eq_true] at hcloser
    have hstep : depthZero depth i (t :: ts) =
        if (depth : Int) = 0 then (i, t.keyword) :: depthZero inner (i + 1) ts
        else depthZero inner (i + 1) ts := by
      by_cases hopener : t.keyword.isOpener = true
      · rw [depthZero_opener _ i ts hopener hcloser, hinner, Keyword.weight_of_isOpener hopener]
      · rw [Bool.not_eq_true] at hopener
        rw [depthZero_plain _ i ts hopener hcloser, hinner, Keyword.weight_of_flat hopener hcloser,
          Int.add_zero]
    have hweight : -1 < t.keyword.weight := by
      unfold Keyword.weight
      rw [hcloser]
      split <;> decide
    rw [hstep]
    by_cases hzero : depth = 0
    · rw [if_pos (by omega), if_pos (by omega)]
      rfl
    · rw [if_neg (by omega), if_neg (by omega)]
      rfl

/-- A block end at depth zero is the first token, one level inside, or it is found behind it. -/
theorem mem_depthZero_pass (hinner : (inner : Int) = depth + t.keyword.weight) (i j : Nat)
    (ts : List Token) :
    (i + j, Keyword.blockEnd) ∈ depthZero depth i (t :: ts) ↔
      (j = 0 ∧ t.keyword = .blockEnd ∧ depth = 1) ∨
        ∃ n, j = n + 1 ∧ (i + 1 + n, Keyword.blockEnd) ∈ depthZero inner (i + 1) ts := by
  have hend (hk : t.keyword = .blockEnd) : (inner : Int) = depth + -1 := by
    rw [hinner, hk]
    rfl
  rw [depthZero_pass hinner, List.mem_append]
  apply or_congr
  · constructor
    · intro h
      split at h
      · rename_i hzero
        obtain ⟨hj, hk⟩ := Prod.mk.inj (List.mem_singleton.mp h)
        have hone := hend hk.symm
        exact ⟨by omega, hk.symm, by omega⟩
      · cases h
    · rintro ⟨rfl, hk, rfl⟩
      have hone := hend hk
      rw [if_pos (by omega), hk]
      exact List.mem_singleton.mpr rfl
  · constructor
    · intro h
      have hle := (getElem?_of_mem_depthZero h).1
      exact ⟨j - 1, by omega, by rwa [show i + 1 + (j - 1) = i + j by omega]⟩
    · rintro ⟨n, rfl, h⟩
      rwa [show i + (n + 1) = i + 1 + n by omega]

/-- A block end within a statement is followed by what goes on with the statement. -/
theorem CutsBehind.behind_blockEnd (h : CutsBehind inDo depth ts) {i j : Nat}
    (hmem : (i + j, Keyword.blockEnd) ∈ depthZero depth i ts) (hu : ts[j + 1]? = some u) :
    continuesStatement u.keyword = true ∨ inDo = true ∧ u.keyword.isLoopTail = true := by
  induction h generalizing i j with
  | cut => cases hu
  | @pass inDo depth inner t ts h hrest ih =>
    obtain ⟨rfl, ht, rfl⟩ | ⟨n, rfl, hlater⟩ :=
      (mem_depthZero_pass (weight_of_pass h) i j ts).mp hmem
    · obtain ⟨us, rfl⟩ : ∃ us, ts = u :: us := by
        cases ts with
        | nil => cases hu
        | cons v us =>
          cases hu
          exact ⟨us, rfl⟩
      rw [ht] at h
      exact .inl (continues_of_pass h)
    · exact ih hlater hu
  | @tail t v ts ht hv hrest ih =>
    obtain ⟨rfl, -, -⟩ | ⟨n, rfl, hlater⟩ :=
      (mem_depthZero_pass (weight_of_tail ht) i j (v :: ts)).mp hmem
    · cases hu
      exact .inr ⟨rfl, hv⟩
    · -- The word behind the block end is no block end itself.
      have hweight : ((0 : Nat) : Int) = ((0 : Nat) : Int) + v.keyword.weight := by
        rw [weight_of_isLoopTail hv]
        rfl
      obtain ⟨-, hk, hdepth⟩ | ⟨m, rfl, hbehind⟩ :=
        (mem_depthZero_pass hweight (i + 1) n ts).mp hlater
      · cases hdepth
      · obtain hcontinues | ⟨hfalse, -⟩ := ih hbehind hu
        · exact .inl hcontinues
        · cases hfalse

/-- Where no `while` or `until` follows a block, it does not matter whether one might. -/
theorem CutsBehind.of_not_isLoopTail (h : CutsBehind inDo depth ts) {i : Nat}
    (htail : ∀ j u, (i + j, Keyword.blockEnd) ∈ depthZero depth i ts → ts[j + 1]? = some u →
      u.keyword.isLoopTail = false) : CutsBehind false depth ts := by
  induction h generalizing i with
  | cut h => exact .cut (move_of_cut h)
  | @pass inDo depth inner t ts h hrest ih =>
    refine .pass (move_of_pass h) (ih (i := i + 1) fun j u hmem hu => ?_)
    exact htail (j + 1) u ((mem_depthZero_pass (weight_of_pass h) i _ ts).mpr (.inr ⟨j, rfl, hmem⟩))
      hu
  | @tail t u ts ht hu hrest ih =>
    have hfirst := (mem_depthZero_pass (weight_of_tail ht) i 0 (u :: ts)).mpr (.inl ⟨rfl, ht, rfl⟩)
    have hnot := htail 0 u hfirst rfl
    rw [hu] at hnot
    cases hnot

end brackets

section bodies

variable {k : Nat} {inner ls bs : List Token}

/-- The tokens begin with `do`, and a `while` or an `until` follows the end of a block. -/
def IsDoLoop (ts : List Token) : Prop :=
  (Slice.ofTokens ts).startsWith .doWord = true ∧
    ∃ i ∈ (Slice.ofTokens ts).allOf .blockEnd, ∃ u ∈ ts[i + 1]?, u.keyword.isLoopTail = true

/-- The tokens are one whole statement, other than a block in brackets. -/
structure IsPlainBody (strict : Bool) (ts : List Token) : Prop where
  alone : (divide strict (.ofTokens ts)).segments = [statement (.ofTokens ts)]
  ends : EndsBody ts
  bare : (Slice.ofTokens ts).enclosed .blockStart = none

/-- The tokens are a body with what `inner` stands for: a block in brackets around `inner`, or a
statement, which is `inner` itself. -/
inductive IsBodyOf (strict : Bool) (inner : List Token) : List Token → Prop
  | braced {ts : List Token} (h : IsBraced inner ts) : IsBodyOf strict inner ts
  | plain (h : IsPlainBody strict inner) (hloop : ¬IsDoLoop inner) : IsBodyOf strict inner inner

/-- Statements other than loops with `do` are cut in the same way behind the words of another one. -/
theorem IsPlainBody.cutsBehind (h : IsPlainBody strict ts) (hloop : ¬IsDoLoop ts) :
    CutsBehind false 0 ts := by
  have halone := h.alone
  rw [divide_eq] at halone
  have hcuts : CutsBehind ((Slice.ofTokens ts).startsWith .doWord) 0 ts :=
    cutsBehind_of_divideFrom h.ends (Nat.zero_add _).symm halone
  by_cases hdo : (Slice.ofTokens ts).startsWith .doWord = true
  · refine hcuts.of_not_isLoopTail (i := 0) fun j u hmem hu => ?_
    rw [Nat.zero_add] at hmem
    rw [← Bool.not_eq_true]
    exact fun htail => hloop ⟨hdo, j, Slice.mem_allOf_iff.mpr hmem, u, hu, htail⟩
  · rw [Bool.not_eq_true] at hdo
    rwa [hdo] at hcuts

/-- With its body, a statement is one segment. -/
theorem divide_body (ht : t.IsFlat) (hdot : t.keyword ≠ .endOfStatement)
    (hdo : t.keyword ≠ .doWord) (hls : IsInline ls) (hbs : IsBodyOf strict inner bs) :
    divide strict (.ofTokens (t :: (ls ++ bs))) =
      ⟨[statement (.ofTokens (t :: (ls ++ bs)))], none⟩ := by
  let whole : Slice := .ofTokens (t :: (ls ++ bs))
  have hsize : 0 < (t :: ls).length := Nat.succ_pos _
  have hlength : whole.length = (t :: ls).length + bs.length :=
    (List.length_append : (t :: ls ++ bs).length = _)
  have hlead : divide strict whole = divideFrom strict whole (t :: ls).length 0 false bs := by
    rw [divide_eq, ← Nat.zero_add (t :: ls).length]
    exact divideFrom_words ht hdot hdo hls bs
  have hpush : push whole ⟨[], none⟩ = ⟨[statement whole], none⟩ :=
    push_of_mem (List.mem_cons_self ..) hdot _
  refine hlead.trans (Eq.trans ?_ hpush)
  cases hbs with
  | braced h =>
    have hbehind : divideFrom strict whole (t :: ls).length 0 false (bs ++ []) = _ :=
      divideFrom_braced h hsize []
    rw [List.append_nil] at hbehind
    exact hbehind.trans (push_last hlength)
  | plain h hloop => exact (h.cutsBehind hloop).divideFrom_eq hsize hlength strict

/-- A `.` alone is no segment. -/
theorem divide_dot (ht : t.keyword = .endOfStatement) :
    divide strict (.ofTokens [t]) = ⟨[], none⟩ := by
  have honly : (Slice.ofTokens [t]).isOnlyTerminators = true := by
    simp [Slice.isOnlyTerminators, Slice.ofTokens, ht]
  have hpush : push (.ofTokens [t]) ⟨[], none⟩ = ⟨[], none⟩ := by
    rw [push, honly]
    rfl
  rw [divide_eq, Slice.ofTokens, divideFrom_cons, move_dot ht, ← hpush]
  exact push_last rfl

/-- A statement is more than its `.` -/
theorem IsPlainBody.withoutTerminator_ne_nil (h : IsPlainBody strict ts) (k : Nat) :
    (⟨k, ts⟩ : Slice).withoutTerminator.tokens ≠ [] := by
  intro hnil
  rcases Slice.eq_or_of_withoutTerminator ⟨k, ts⟩ with hsame | ⟨dot, hdot, hconcat⟩
  · rw [hsame] at hnil
    obtain ⟨t, ht, -⟩ := h.ends
    rw [show ts = [] from hnil] at ht
    cases ht
  · rw [hnil, List.nil_append] at hconcat
    have halone := h.alone
    rw [show ts = [dot] from hconcat, divide_dot hdot] at halone
    cases halone

/-- A block in brackets and a `.` behind it are no statement. -/
theorem IsPlainBody.enclosed_withoutTerminator (h : IsPlainBody strict ts) (hloop : ¬IsDoLoop ts)
    (k : Nat) : (⟨k, ts⟩ : Slice).withoutTerminator.enclosed .blockStart = none := by
  have hbare : (⟨k, ts⟩ : Slice).enclosed .blockStart = none := by
    rw [← relocate_along_ofTokens, Slice.enclosed_relocate, h.bare]
    rfl
  rcases Slice.eq_or_of_withoutTerminator ⟨k, ts⟩ with hsame | ⟨dot, hdot, hconcat⟩
  · rwa [hsame]
  · by_contra henclosed
    have hsome := Option.isSome_iff_ne_none.mpr henclosed
    obtain ⟨t, us, hus, ht⟩ := Slice.exists_cons_of_enclosed hsome
    obtain ⟨c, hclose, hc⟩ := Slice.matchingClose_of_enclosed hsome
    have hmem := Slice.mem_depthZero_of_matchingClose (b := .brace) hus ht hclose
    have hbehind : ts[c + 1]? = some dot := by
      rw [show ts = _ from hconcat, hc]
      exact List.getElem?_concat_length
    have hend : (0 + c, Keyword.blockEnd) ∈ depthZero ((0 : Nat) : Int) 0 ts := by
      rw [Nat.zero_add, show ts = _ from hconcat]
      exact mem_depthZero_append_left [dot] hmem
    -- Behind the end of a block, a statement does not go on with `.`
    obtain hgoesOn | ⟨hfalse, -⟩ := (h.cutsBehind hloop).behind_blockEnd hend hbehind
    · rw [hdot] at hgoesOn
      cases hgoesOn
    · cases hfalse

end bodies

end Segment

end Prose
