import Prose.Proofs.Expr.RoundTrip.Frame

namespace Prose.Expr

open Grammar

variable {p : Position} {e : Expr} {ts : List Token} {a : Nat}

/-- The only operator of a level in `( A ) op ( B )` stands between the two operands. -/
theorem positionsOf_binary {l r : Expr} {op : BinaryOp} {ls rs : List Token}
    (hl : IsOperand l ls) (w : Word op.role) (hr : IsOperand r rs) (a : Nat) :
    (⟨a, ls ++ w.val :: rs⟩ : Slice).positionsOf (op.operatorLevel.operators.map (·.1)) =
      [ls.length] := by
  have hflat : op.role.isOpener = false ∧ op.role.isCloser = false := by cases op <;> decide
  have hentries := hl.around.depthZero 0 (w.val :: rs)
  rw [depthZero_flat (isFlat_word w hflat), ← List.append_nil rs, hr.around.depthZero,
    List.append_nil] at hentries
  have hcount : (op.operatorLevel.operators.map (·.1)).count op.role = 1 := by
    cases op <;> decide
  have hopen : (op.operatorLevel.operators.map (·.1)).count Bracket.paren.opener = 0 := by
    cases op <;> decide
  have hclose : (op.operatorLevel.operators.map (·.1)).count Bracket.paren.closer = 0 := by
    cases op <;> decide
  simp [Slice.positionsOf, hentries, hcount, hopen, hclose, w.property.1, depthZero]

theorem verdict_binary {l r l' r' : Expr} {op : BinaryOp} {ls rs : List Token}
    (hl : IsOperand l ls) (w : Word op.role) (hr : IsOperand r rs) {a : Nat}
    (hlread : standard.outcome ⟨a, ls⟩ = .ok (some (Form.parenthesized.rule, l')))
    (hrread : standard.outcome ⟨a + (ls.length + 1), rs⟩ =
      .ok (some (Form.parenthesized.rule, r'))) :
    standard.verdict (.operators op.operatorLevel) ⟨a, ls ++ w.val :: rs⟩ =
      .ok (some (binary (Slice.position ⟨a, ls ++ w.val :: rs⟩) l' op r')) := by
  have hltwo := hl.two_le_length
  have hrtwo := hr.two_le_length
  have hlookup : op.operatorLevel.operators.lookup w.val.keyword = some op := by
    rw [w.property.1]
    cases op <;> rfl
  have htake : (⟨a, ls ++ w.val :: rs⟩ : Slice).take ls.length = ⟨a, ls⟩ := Slice.take_eq _ _ rfl rfl
  have hdrop : (⟨a, ls ++ w.val :: rs⟩ : Slice).drop (ls.length + 1) =
      ⟨a + (ls.length + 1), rs⟩ :=
    Slice.drop_eq _ _ (List.append_cons ..) (by simp)
  have hends : ¬(ls.length = 0 ∨ ls.length + 1 = (⟨a, ls ++ w.val :: rs⟩ : Slice).length) := by
    simp only [Slice.length, List.length_append, List.length_cons]
    omega
  -- The operands hide their own operators in parentheses, so only one place is tried.
  simp only [verdict, Form.read, readOperators_eq, positionsOf_binary hl w hr,
    List.reverse_singleton, ite_self, readSplit, if_neg hends]
  rw [List.getElem?_append_right (Nat.le_refl _)]
  simp only [Nat.sub_self, List.getElem?_cons_zero, Option.bind_some, hlookup, htake, hdrop,
    Inquiry.resolve_bind, resolve_operand_of_closed hlread rfl, Except.bind,
    resolve_operand_of_closed hrread rfl]
  rfl

theorem readsBack_binary {l r : Expr} {op : BinaryOp} {ls rs : List Token} (hl : IsOperand l ls)
    (w : Word op.role) (hr : IsOperand r rs) :
    ReadsBack (binary p l op r) (ls ++ w.val :: rs) := by
  have hflat : op.role.isOpener = false ∧ op.role.isCloser = false := by cases op <;> decide
  have hltwo := hl.two_le_length
  refine readsBack_of_hasOutline (.operators op.operatorLevel) [.openParen, .closeParen, op.role]
    ?_ ?_ ?_ ?_ ?_
  · exact (hl.hasOutline (by simp) (by simp)).append
      ((hr.hasOutline (by simp) (by simp)).word w hflat (by simp))
  · rw [List.length_append]
    omega
  · exact fun a => Slice.enclosed_eq_none_of_around hl.around rfl (List.cons_ne_nil _ _) _
  · cases op <;> decide
  · intro a
    obtain ⟨l', hlread, hlbare⟩ := hl.reads a
    obtain ⟨r', hrread, hrbare⟩ := hr.reads (a + (ls.length + 1))
    exact ⟨_, verdict_binary hl w hr hlread hrread, by simp only [bare, hlbare, hrbare]⟩

theorem readsBack_unary {op : UnaryOp} (w : Word (unaryLead op)) (h : IsOperand e ts) :
    ReadsBack (unary p op e) (w.val :: ts) := by
  have hflat : (unaryLead op).isOpener = false ∧ (unaryLead op).isCloser = false := by
    cases op <;> decide
  have htwo := h.two_le_length
  refine readsBack_of_hasOutline (.unary op) [.openParen, .closeParen, unaryLead op]
    ((h.hasOutline (by simp) (by simp)).word w hflat (by simp)) (Nat.le_succ_of_le htwo) ?_ ?_ ?_
  · exact fun a => enclosed_word w (by cases op <;> decide)
  · cases op <;> decide
  · intro a
    obtain ⟨e', hread, hbare⟩ := h.reads (a + 1)
    refine ⟨unary (Slice.position ⟨a, w.val :: ts⟩) op e', ?_, by simp only [bare, hbare]⟩
    have hcond : (⟨a, w.val :: ts⟩ : Slice).startsWith (unaryLead op) = true ∧
        2 ≤ (⟨a, w.val :: ts⟩ : Slice).length :=
      ⟨startsWith_word w, Nat.le_succ_of_le htwo⟩
    have hdrop : (⟨a, w.val :: ts⟩ : Slice).drop 1 = ⟨a + 1, ts⟩ := rfl
    simp only [verdict, Form.read, readUnary_eq, if_pos hcond, Inquiry.resolve_bind, hdrop,
      resolve_requiredOperand_of_closed hread rfl, Except.bind]
    rfl

theorem readsBack_nullCheck {b : Bool} (h : IsOperand e ts)
    (w : Word (if b then .isNotNull else .isNull)) :
    ReadsBack (nullCheck p e b) (ts ++ [w.val]) := by
  have hflat : (if b then Keyword.isNotNull else .isNull).isOpener = false ∧
      (if b then Keyword.isNotNull else .isNull).isCloser = false := by cases b <;> decide
  have htwo := h.two_le_length
  refine readsBack_of_hasOutline (.nullCheck) [.openParen, .closeParen, if b then .isNotNull else .isNull]
    ((h.hasOutline (by simp) (by simp)).append (hasOutline_nil.word w hflat (by simp))) ?_ ?_ ?_ ?_
  · rw [List.length_append]
    omega
  · exact fun a => Slice.enclosed_eq_none_of_around h.around rfl (List.cons_ne_nil _ _) _
  · cases b <;> decide
  · intro a
    obtain ⟨e', hread, hbare⟩ := h.reads a
    refine ⟨nullCheck (Slice.position ⟨a, ts ++ [w.val]⟩) e' b, ?_, by simp only [bare, hbare]⟩
    have hlen : (⟨a, ts ++ [w.val]⟩ : Slice).length = ts.length + 1 := by simp [Slice.length]
    have htake : (⟨a, ts ++ [w.val]⟩ : Slice).take ts.length = ⟨a, ts⟩ := Slice.take_eq _ _ rfl rfl
    have hshort : ¬ts.length + 1 ≤ 1 := by omega
    simp only [verdict, Form.read, readNullCheck_eq, List.getLast?_concat, Option.map_some,
      w.property.1, hlen, if_neg hshort, Nat.add_sub_cancel, htake]
    cases b <;>
      simp [Inquiry.resolve_bind, resolve_requiredOperand_of_closed hread rfl, Except.bind]

theorem ofKeyword?_role (n : TypeName) : TypeName.ofKeyword? n.role = some n := by
  cases n <;> rfl

theorem resolve_requiredType {n : TypeName} (u : Word n.role) (origin : String)
    (whole : List Token) (reply : Slice → Except Problem Reading) :
    (requiredType origin ⟨a, [u.val]⟩ whole).resolve reply = .ok n := by
  simp [requiredType, u.property.1, ofKeyword?_role]

theorem readsBack_typeCheck {n : TypeName} (h : IsOperand e ts) (w : Word .isA)
    (u : Word n.role) : ReadsBack (typeCheck p e n) (ts ++ [w.val, u.val]) := by
  have hflat : n.role.isOpener = false ∧ n.role.isCloser = false := by cases n <;> decide
  have htwo := h.two_le_length
  refine readsBack_of_hasOutline (.typeCheck) [.openParen, .closeParen, .isA, n.role] ?_ ?_ ?_ ?_ ?_
  · exact (h.hasOutline (by simp) (by simp)).append
      ((hasOutline_nil.word u hflat (by simp)).word w (by decide) (by simp))
  · rw [List.length_append]
    omega
  · exact fun a => Slice.enclosed_eq_none_of_around h.around rfl (List.cons_ne_nil _ _) _
  · cases n <;> decide
  · intro a
    obtain ⟨e', hread, hbare⟩ := h.reads a
    refine ⟨typeCheck (Slice.position ⟨a, ts ++ [w.val, u.val]⟩) e' n, ?_,
      by simp only [bare, hbare]⟩
    -- The operand is in parentheses, so the only `is a` of depth zero is the one behind it.
    have hall : (⟨a, ts ++ [w.val, u.val]⟩ : Slice).allOf .isA = [ts.length] := by
      have hentries := h.around.depthZero 0 [w.val, u.val]
      rw [depthZero_flat (isFlat_word w (by decide)),
        depthZero_flat (isFlat_word u hflat)] at hentries
      have hne : n.role ≠ .isA := by cases n <;> decide
      simp [Slice.allOf, hentries, w.property.1, u.property.1, depthZero, hne, Bracket.opener,
        Bracket.closer]
    have hends : ¬(ts.length = 0 ∨
        ts.length + 1 = (⟨a, ts ++ [w.val, u.val]⟩ : Slice).length) := by
      simp only [Slice.length, List.length_append, List.length_cons, List.length_nil]
      omega
    have htake : (⟨a, ts ++ [w.val, u.val]⟩ : Slice).take ts.length = ⟨a, ts⟩ :=
      Slice.take_eq _ _ rfl rfl
    have hdrop : (⟨a, ts ++ [w.val, u.val]⟩ : Slice).drop (ts.length + 1) =
        ⟨a + (ts.length + 1), [u.val]⟩ :=
      Slice.drop_eq _ _ (List.append_cons ..) (by simp)
    simp only [verdict, Form.read, readTypeCheck_eq, hall, List.getLast?_singleton, if_neg hends,
      Inquiry.resolve_bind, hdrop, resolve_requiredType, Except.bind, htake,
      resolve_requiredOperand_of_closed hread rfl]
    rfl

/-- A word behind an operand is found at the operand's end. -/
theorem first_behind {k : Keyword} {s : Slice} {i : Nat} {rest : List Token} (h : IsOperand e ts)
    (w : Word k) (hs : s.tokens.drop i = ts ++ w.val :: rest)
    (hflat : k.isOpener = false ∧ k.isCloser = false) : s.first k i = some (i + ts.length) := by
  have hparens : k ∉ [Keyword.openParen, .closeParen] := by
    intro hk
    simp only [List.mem_cons, List.not_mem_nil, or_false] at hk
    rcases hk with rfl | rfl
    · cases hflat.1
    · cases hflat.2
  exact Slice.first_eq_some (h.around.shows (by simp [Bracket.opener]) (by simp [Bracket.closer]))
    hparens (isFlat_word w hflat) w.property.1 hs

/-- `cast ( A ) as a T` -/
theorem readsBack_cast {n : TypeName} (v : Word .cast) (h : IsOperand e ts) (w : Word .asA)
    (u : Word n.role) : ReadsBack (cast p e n) (v.val :: (ts ++ [w.val, u.val])) := by
  have hflat : n.role.isOpener = false ∧ n.role.isCloser = false := by cases n <;> decide
  refine readsBack_of_hasOutline (.cast) [.openParen, .closeParen, .cast, .asA, n.role] ?_ ?_ ?_ ?_ ?_
  · exact ((h.hasOutline (by simp) (by simp)).append ((hasOutline_nil.word u hflat (by simp)).word w
      (by decide) (by simp))).word v (by decide) (by simp)
  · simp only [List.length_cons, List.length_append]
    omega
  · exact fun a => enclosed_word v (by decide)
  · cases n <;> decide
  · intro a
    obtain ⟨e', hread, hbare⟩ := h.reads (a + 1)
    refine ⟨cast v.val.position e' n, ?_, by simp only [bare, hbare]⟩
    generalize hs : (⟨a, v.val :: (ts ++ [w.val, u.val])⟩ : Slice) = s
    have hstart : s.startsWith .cast = true := hs ▸ startsWith_word v
    have hfirst : s.first .asA 1 = some (1 + ts.length) :=
      first_behind h w (by rw [← hs]; rfl) (by decide)
    have hpart : s.extract 1 (1 + ts.length) = ⟨a + 1, ts⟩ := by
      rw [Slice.extract_eq [v.val] ts [w.val, u.val] (by rw [← hs]; rfl) (by rfl) (by rfl), ← hs]
    have htype : s.drop (1 + ts.length + 1) = ⟨a + (1 + ts.length + 1), [u.val]⟩ := by
      rw [Slice.drop_eq (v.val :: (ts ++ [w.val])) [u.val] (by simp [← hs])
        (by simp; omega), ← hs]
    have hplace : s.position = v.val.position := hs ▸ rfl
    simp only [verdict, Form.read, readCast_eq, hstart, if_true, hfirst, Inquiry.resolve_bind, hpart,
      resolve_required hread, Except.bind, htype, resolve_requiredType, hplace]
    rfl

theorem hasOutline_index {c i : Expr} {cs is : List Token} (v : Word .item) (hi : IsOperand i is)
    (w : Word .of) (hc : IsOperand c cs) :
    HasOutline [.openParen, .closeParen, .item, .of] (v.val :: (is ++ w.val :: cs)) :=
  ((hi.hasOutline (by simp) (by simp)).append ((hc.hasOutline (by simp) (by simp)).word w
    (by decide) (by simp))).word v (by decide) (by simp)

/-- `item ( I ) of ( C )` -/
theorem outcome_index {c i : Expr} {cs is : List Token} (v : Word .item) (hi : IsOperand i is)
    (w : Word .of) (hc : IsOperand c cs) (a : Nat) :
    ∃ c' i', standard.outcome ⟨a, v.val :: (is ++ w.val :: cs)⟩ =
        .ok (some (Form.index.rule, index v.val.position c' i')) ∧
      c'.bare = c.bare ∧ i'.bare = i.bare := by
  obtain ⟨i', hiread, hibare⟩ := hi.reads (a + 1)
  obtain ⟨c', hcread, hcbare⟩ := hc.reads (a + (1 + is.length + 1))
  have houtline := hasOutline_index v hi w hc
  refine ⟨c', i', outcome_of_shows (f := .index) ?_ houtline.shows houtline.last
    (enclosed_word v (by decide)) (by decide) ?_, hcbare, hibare⟩
  · simp only [Slice.length, List.length_cons, List.length_append]
    omega
  · generalize hs : (⟨a, v.val :: (is ++ w.val :: cs)⟩ : Slice) = s
    have hstart : s.startsWith .item = true := hs ▸ startsWith_word v
    have hfirst : s.first .of 1 = some (1 + is.length) :=
      first_behind hi w (by rw [← hs]; rfl) (by decide)
    have hpart : s.extract 1 (1 + is.length) = ⟨a + 1, is⟩ := by
      rw [Slice.extract_eq [v.val] is (w.val :: cs) (by rw [← hs]; rfl) (by rfl) (by rfl), ← hs]
    have hrest : s.drop (1 + is.length + 1) = ⟨a + (1 + is.length + 1), cs⟩ := by
      rw [Slice.drop_eq (v.val :: (is ++ [w.val])) cs (by simp [← hs])
        (by simp; omega), ← hs]
    have hplace : s.position = v.val.position := hs ▸ rfl
    simp only [verdict, Form.read, readIndex_eq, hstart, true_or, if_true, hfirst,
      Inquiry.resolve_bind, hpart, resolve_required hiread, Except.bind, hrest, readCollection,
      resolve_requiredOperand_of_closed hcread rfl, hplace]
    rfl

theorem readsBack_index {c i : Expr} {cs is : List Token} (v : Word .item) (hi : IsOperand i is)
    (w : Word .of) (hc : IsOperand c cs) :
    ReadsBack (index p c i) (v.val :: (is ++ w.val :: cs)) := by
  refine ⟨(hasOutline_index v hi w hc).nested, fun a => ?_⟩
  obtain ⟨c', i', houtcome, hcbare, hibare⟩ := outcome_index v hi w hc a
  exact ⟨_, _, houtcome, by simp only [bare, hcbare, hibare]⟩

/-- `slice ( C ) from ( F ) to ( T )` -/
theorem readsBack_slice {c f t : Expr} {cs fs ts : List Token} (u : Word .slice)
    (hc : IsOperand c cs) (v : Word .fromWord) (hf : IsOperand f fs) (w : Word .to)
    (ht : IsOperand t ts) :
    ReadsBack (slice p c f t) (u.val :: (cs ++ v.val :: (fs ++ w.val :: ts))) := by
  refine readsBack_of_hasOutline (.slice) [.openParen, .closeParen, .slice, .fromWord, .to] ?_ ?_ ?_ ?_ ?_
  · exact ((hc.hasOutline (by simp) (by simp)).append (((hf.hasOutline (by simp) (by simp)).append
      ((ht.hasOutline (by simp) (by simp)).word w (by decide) (by simp))).word v (by decide)
      (by simp))).word u (by decide) (by simp)
  · simp only [List.length_cons, List.length_append]
    omega
  · exact fun a => enclosed_word u (by decide)
  · decide
  · intro a
    obtain ⟨c', hcread, hcbare⟩ := hc.reads (a + 1)
    obtain ⟨f', hfread, hfbare⟩ := hf.reads (a + (1 + cs.length + 1))
    obtain ⟨t', htread, htbare⟩ := ht.reads (a + (1 + cs.length + 1 + fs.length + 1))
    refine ⟨slice u.val.position c' f' t', ?_, by simp only [bare, hcbare, hfbare, htbare]⟩
    generalize hs : (⟨a, u.val :: (cs ++ v.val :: (fs ++ w.val :: ts))⟩ : Slice) = s
    have hstart : s.startsWith .slice = true := hs ▸ startsWith_word u
    -- Behind the collection stands `from`, and behind its beginning `to`.
    have hfrom : s.first .fromWord 1 = some (1 + cs.length) :=
      first_behind hc v (by rw [← hs]; rfl) (by decide)
    have hto : s.first .to (1 + cs.length + 1) = some (1 + cs.length + 1 + fs.length) :=
      first_behind hf w (Slice.drop_tokens_eq (u.val :: (cs ++ [v.val])) (fs ++ w.val :: ts)
        (by simp [← hs]) (by simp; omega)) (by decide)
    -- The three parts are cut out at these words.
    have hcollection : s.extract 1 (1 + cs.length) = ⟨a + 1, cs⟩ := by
      rw [Slice.extract_eq [u.val] cs (v.val :: (fs ++ w.val :: ts)) (by rw [← hs]; rfl) (by rfl)
        (by rfl), ← hs]
    have hbegin : s.extract (1 + cs.length + 1) (1 + cs.length + 1 + fs.length) =
        ⟨a + (1 + cs.length + 1), fs⟩ := by
      rw [Slice.extract_eq (u.val :: (cs ++ [v.val])) fs (w.val :: ts)
        (by simp [← hs]) (by simp; omega) (by simp; omega), ← hs]
    have hend : s.drop (1 + cs.length + 1 + fs.length + 1) =
        ⟨a + (1 + cs.length + 1 + fs.length + 1), ts⟩ := by
      rw [Slice.drop_eq (u.val :: (cs ++ v.val :: (fs ++ [w.val]))) ts
        (by simp [← hs]) (by simp; omega), ← hs]
    have hplace : s.position = u.val.position := hs ▸ rfl
    simp only [verdict, Form.read, readSlice_eq, hstart, if_true, hfrom, hto, Inquiry.resolve_bind,
      hcollection, resolve_required hcread, Except.bind, hbegin, resolve_required hfread, hend,
      resolve_requiredOperand_of_closed htread rfl, hplace]
    rfl

/-- `if ( C ) then ( A ) otherwise ( B )` -/
theorem readsBack_ternary {c x y : Expr} {cs xs ys : List Token} (u : Word .ifWord)
    (hc : IsOperand c cs) (v : Word .thenWord) (hx : IsOperand x xs) (w : Word .otherwise)
    (hy : IsOperand y ys) :
    ReadsBack (ternary p c x y) (u.val :: (cs ++ v.val :: (xs ++ w.val :: ys))) := by
  refine readsBack_of_hasOutline .ternary
    [.openParen, .closeParen, .ifWord, .thenWord, .otherwise] ?_ ?_ ?_ ?_ ?_
  · exact ((hc.hasOutline (by simp) (by simp)).append (((hx.hasOutline (by simp) (by simp)).append
      ((hy.hasOutline (by simp) (by simp)).word w (by decide) (by simp))).word v (by decide)
      (by simp))).word u (by decide) (by simp)
  · simp only [List.length_cons, List.length_append]
    omega
  · exact fun a => enclosed_word u (by decide)
  · decide
  · intro a
    obtain ⟨c', hcread, hcbare⟩ := hc.reads (a + 1)
    obtain ⟨x', hxread, hxbare⟩ := hx.reads (a + (1 + cs.length + 1))
    obtain ⟨y', hyread, hybare⟩ := hy.reads (a + (1 + cs.length + 1 + xs.length + 1))
    refine ⟨ternary u.val.position c' x' y', ?_, by simp only [bare, hcbare, hxbare, hybare]⟩
    generalize hs : (⟨a, u.val :: (cs ++ v.val :: (xs ++ w.val :: ys))⟩ : Slice) = s
    have hstart : s.startsWith .ifWord = true := by
      rw [← hs]
      exact startsWith_word u
    have hlen : s.length = (cs ++ v.val :: (xs ++ w.val :: ys)).length + 1 := by
      rw [← hs]
      rfl
    -- Behind the condition stands `then`, and behind its value `otherwise`.
    have hthen : s.first .thenWord 1 = some (1 + cs.length) :=
      first_behind hc v (by rw [← hs]; rfl) (by decide)
    have hbehind : s.drop (1 + cs.length + 1) = ⟨a + (1 + cs.length + 1), xs ++ w.val :: ys⟩ := by
      rw [Slice.drop_eq (u.val :: (cs ++ [v.val])) (xs ++ w.val :: ys) (by simp [← hs])
        (by simp; omega), ← hs]
    have hotherwise : (⟨a + (1 + cs.length + 1), xs ++ w.val :: ys⟩ : Slice).firstOf
        [.otherwise, .otherwiseIf] = some (xs.length, .otherwise) := by
      rw [Slice.firstOf, hx.around.depthZero, depthZero_flat (isFlat_word w (by decide)),
        w.property.1]
      simp [Bracket.opener, Bracket.closer]
    -- The three parts are cut out at these words.
    have hcondition : s.extract 1 (1 + cs.length) = ⟨a + 1, cs⟩ := by
      rw [Slice.extract_eq [u.val] cs (v.val :: (xs ++ w.val :: ys)) (by rw [← hs]; rfl) (by rfl)
        (by rfl), ← hs]
    have hvalue : s.extract (1 + cs.length + 1) (1 + cs.length + 1 + xs.length) =
        ⟨a + (1 + cs.length + 1), xs⟩ := by
      rw [Slice.extract_eq (u.val :: (cs ++ [v.val])) xs (w.val :: ys)
        (by simp [← hs]) (by simp; omega) (by simp; omega), ← hs]
    have helse : s.drop (1 + cs.length + 1 + xs.length + 1) =
        ⟨a + (1 + cs.length + 1 + xs.length + 1), ys⟩ := by
      rw [Slice.drop_eq (u.val :: (cs ++ v.val :: (xs ++ [w.val]))) ys
        (by simp [← hs]) (by simp; omega), ← hs]
    have hplace : s.position = u.val.position := by
      rw [← hs]
      rfl
    simp only [verdict, Form.read, readTernary, hstart, if_true, hlen, readTernaryFrom_succ, hthen,
      hbehind, hotherwise, Inquiry.resolve_bind, hcondition, resolve_required hcread, Except.bind,
      hvalue, resolve_required hxread, helse, hplace]
    rw [if_neg (by decide), Inquiry.resolve_bind, resolve_required hyread]
    rfl

/-- `call $f` -/
theorem readsBack_call {f : String} {t : Token} (w : Word .call) (h : t.Names f) :
    ReadsBack (call p f []) [w.val, t] := by
  have ht : t.IsFlat := ⟨by rw [h.1]; rfl, by rw [h.1]; rfl⟩
  refine readsBack_of_hasOutline .call [.call, .unknown] ?_ (Nat.le_refl 2) ?_ (by decide) ?_
  · exact (hasOutline_nil.cons ht (by simp [h.1])).word w (by decide) (by simp)
  · exact fun a => enclosed_word w (by decide)
  · intro a
    refine ⟨call w.val.position f [], ?_, by simp only [bare]⟩
    simp only [verdict, Form.read, readCall_eq, startsWith_word w, if_true, List.drop_succ_cons,
      List.drop_zero, h.2]
    rfl

end Prose.Expr
