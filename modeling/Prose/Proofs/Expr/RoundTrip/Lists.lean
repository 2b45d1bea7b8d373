import Mathlib.Data.List.Defs
import Prose.Proofs.Expr.RoundTrip.Operands

namespace Prose.Expr

open Grammar

variable {p : Position} {e : Expr} {ts : List Token} {a : Nat}

inductive AreOperands : List Expr → List Token → Prop
  | last {e : Expr} {ts : List Token} (h : IsOperand e ts) : AreOperands [e] ts
  | more {e : Expr} {es : List Expr} {ts us : List Token} (h : IsOperand e ts) (w : Word .comma)
      (hes : AreOperands es us) :
      AreOperands (e :: es) (ts ++ w.val :: us)

section split

def commas (i : Nat) (ts : List Token) : List Nat :=
  ((depthZero 0 i ts).filter (·.2 == .comma)).map (·.1)

theorem split_comma {s : Slice} (h : 0 < s.length) :
    s.split .comma = s.cutAt 0 (commas 0 s.tokens) := by
  rw [Slice.split_eq, isEmpty_eq_false_of_pos h]
  rfl

/-- Tokens without a comma are passed over. -/
theorem commas_append {ks : List Keyword} (h : Shows ks ts) (hk : .comma ∉ ks) (i : Nat)
    (us : List Token) : commas i (ts ++ us) = commas (i + ts.length) us :=
  indicesFrom_append h hk i us

theorem commas_cons {us : List Token} (w : Word .comma) (i : Nat) :
    commas i (w.val :: us) = i :: commas (i + 1) us :=
  indicesFrom_cons (isFlat_word w (by decide)) w.property.1 i us

/-- The first piece reaches to the first comma. -/
theorem cutAt_more {s : Slice} {ks : List Keyword} {pre us : List Token} (h : Shows ks ts)
    (hk : .comma ∉ ks) (w : Word .comma) (hs : s.tokens = pre ++ (ts ++ w.val :: us)) :
    s.cutAt pre.length (commas pre.length (ts ++ w.val :: us)) =
      ⟨s.start + pre.length, ts⟩ ::
        s.cutAt (pre ++ ts ++ [w.val]).length (commas (pre ++ ts ++ [w.val]).length us) := by
  have hlen : (pre ++ ts ++ [w.val]).length = pre.length + ts.length + 1 := by
    simp only [List.length_append, List.length_singleton]
  rw [commas_append h hk, commas_cons, Slice.cutAt, hlen,
    Slice.extract_eq pre ts (w.val :: us) hs rfl rfl]

/-- The last piece reaches to the end. -/
theorem cutAt_last {s : Slice} {ks : List Keyword} {pre : List Token} (h : Shows ks ts)
    (hk : .comma ∉ ks) (hs : s.tokens = pre ++ ts) :
    s.cutAt pre.length (commas pre.length ts) = [⟨s.start + pre.length, ts⟩] := by
  have hnone : commas pre.length ts = [] := indicesFrom_of_shows h hk pre.length
  rw [hnone, Slice.cutAt, Slice.drop_eq pre ts hs rfl]

end split

section items

theorem AreOperands.hasOutline {es : List Expr} {ks : List Keyword} (h : AreOperands es ts)
    (ho : .openParen ∈ ks) (hc : .closeParen ∈ ks) (hcomma : .comma ∈ ks) : HasOutline ks ts := by
  induction h with
  | last h => exact h.hasOutline ho hc
  | more h w _ ih => exact (h.hasOutline ho hc).append (ih.word w (by decide) hcomma)

theorem AreOperands.two_le_length {es : List Expr} (h : AreOperands es ts) : 2 ≤ ts.length := by
  cases h with
  | last h => exact h.two_le_length
  | more h w _ =>
    have htwo := h.two_le_length
    rw [List.length_append]
    omega

theorem IsOperand.shows (h : IsOperand e ts) : Shows [.openParen, .closeParen] ts :=
  (h.hasOutline (by simp) (by simp)).shows

/-- Between the commas stand the operands. -/
theorem AreOperands.pieces {es : List Expr} {us : List Token} (h : AreOperands es us) (s : Slice)
    (pre : List Token) (hs : s.tokens = pre ++ us) :
    List.Forall₂ (fun e (piece : Slice) => IsOperand e piece.tokens) es
      (s.cutAt pre.length (commas pre.length us)) := by
  induction h generalizing pre with
  | last h =>
    rw [cutAt_last h.shows (by decide) hs]
    exact .cons h .nil
  | more h w _ ih =>
    rw [cutAt_more h.shows (by decide) w hs]
    exact .cons h (ih _ (by rw [hs]; simp))

theorem AreOperands.split {es : List Expr} (h : AreOperands es ts) (a : Nat) :
    List.Forall₂ (fun e (piece : Slice) => IsOperand e piece.tokens) es
      ((⟨a, ts⟩ : Slice).split .comma) := by
  have hpos : 0 < (⟨a, ts⟩ : Slice).length := Nat.lt_of_lt_of_le Nat.two_pos h.two_le_length
  rw [split_comma hpos]
  exact h.pieces ⟨a, ts⟩ [] rfl

/-- Operands are read as items, one by one. -/
theorem resolve_readItems (origin name : String) (level : Nat) (whole : List Token)
    {es : List Expr} {pieces : List Slice}
    (h : List.Forall₂ (fun e (piece : Slice) => IsOperand e piece.tokens) es pieces) :
    ∃ es', (readItems origin name level whole pieces).resolve standard.outcome = .ok (some es') ∧
      bareList es' = bareList es := by
  induction h with
  | nil => exact ⟨[], rfl, rfl⟩
  | @cons e piece es pieces h hrest ih =>
    obtain ⟨e', hread, hbare⟩ := h.reads piece.start
    obtain ⟨es', hreads, hbares⟩ := ih
    cases pieces with
    -- Only the last item is bound by the level of the form.
    | nil =>
      cases hrest
      refine ⟨[e'], ?_, by simp only [bareList, hbare]⟩
      rw [readItems, Inquiry.resolve_bind, resolve_requiredOperand_of_closed hread rfl]
      rfl
    | cons q qs =>
      refine ⟨e' :: es', ?_, by simp only [bareList, hbare, hbares]⟩
      rw [readItems, Inquiry.resolve_bind, resolve_required hread]
      · simp only [Except.bind, Inquiry.resolve_bind, hreads]
        rfl
      · exact List.cons_ne_nil _ _

/-- `call $f with ( A ) , ( B )` -/
theorem readsBack_callWith {f : String} {args : List Expr} {t : Token} (w : Word .call)
    (h : t.Names f) (v : Word .withWord) (hargs : AreOperands args ts) :
    ReadsBack (call p f args) (w.val :: t :: v.val :: ts) := by
  have ht : t.IsFlat := ⟨by rw [h.1]; rfl, by rw [h.1]; rfl⟩
  refine readsBack_of_hasOutline .call
    [.openParen, .closeParen, .comma, .call, .unknown, .withWord] ?_ ?_ ?_ (by decide) ?_
  · exact (((hargs.hasOutline (by simp) (by simp) (by simp)).word v (by decide) (by simp)).cons ht
      (by simp [h.1])).word w (by decide) (by simp)
  · simp only [List.length_cons]
    omega
  · exact fun a => enclosed_word w (by decide)
  · intro a
    obtain ⟨args', hreads, hbare⟩ := resolve_readItems "parse_call" "an argument"
      Form.call.level (w.val :: t :: v.val :: ts) (hargs.split (a + 3))
    refine ⟨call w.val.position f args', ?_, by simp only [bare, hbare]⟩
    have htwo := hargs.two_le_length
    obtain ⟨u, us, rfl⟩ := List.exists_cons_of_length_pos (Nat.lt_of_lt_of_le Nat.two_pos htwo)
    simp only [verdict, Form.read, readCall_eq, startsWith_word w, if_true, List.drop_succ_cons,
      List.drop_zero, h.2, v.property.1, Inquiry.resolve_bind]
    rw [show (⟨a, w.val :: t :: v.val :: u :: us⟩ : Slice).drop 3 = ⟨a + 3, u :: us⟩ from rfl,
      hreads]
    rfl

/-- `a list of ( A ) , ( B )` -/
theorem readsBack_list {es : List Expr} (w : Word .listOf) (h : AreOperands es ts) :
    ReadsBack (list p es) (w.val :: ts) := by
  have htwo := h.two_le_length
  refine readsBack_of_hasOutline .list [.openParen, .closeParen, .comma, .listOf] ?_ ?_ ?_
    (by decide) ?_
  · exact (h.hasOutline (by simp) (by simp) (by simp)).word w (by decide) (by simp)
  · exact Nat.le_succ_of_le htwo
  · exact fun a => enclosed_word w (by decide)
  · intro a
    obtain ⟨es', hreads, hbare⟩ := resolve_readItems "parse_list_literal" "a list item"
      Form.list.level (w.val :: ts) (h.split (a + 1))
    refine ⟨list w.val.position es', ?_, by simp only [bare, hbare]⟩
    have hone : ¬((⟨a, w.val :: ts⟩ : Slice).length = 1 ∧
        (⟨a, w.val :: ts⟩ : Slice).startsWith .emptyList = true) := by
      simp only [Slice.length, List.length_cons]
      omega
    have hlead : 2 ≤ (⟨a, w.val :: ts⟩ : Slice).length ∧
        (⟨a, w.val :: ts⟩ : Slice).startsWith .listOf = true :=
      ⟨Nat.le_succ_of_le htwo, startsWith_word w⟩
    simp only [verdict, Form.read, readList_eq, if_neg hone, if_pos hlead, Inquiry.resolve_bind]
    rw [show (⟨a, w.val :: ts⟩ : Slice).drop 1 = ⟨a + 1, ts⟩ from rfl, hreads]
    rfl

end items

section arms

inductive AreArms : List (Expr × Expr) → Option Expr → List Token → Prop
  | last {x y : Expr} {xs ys : List Token} (hx : IsOperand x xs) (w : Word .gives)
      (hy : IsOperand y ys) : AreArms [(x, y)] none (xs ++ w.val :: ys)
  | fallback {d : Expr} {ds : List Token} (v : Word .otherwise) (w : Word .gives)
      (hd : IsOperand d ds) : AreArms [] (some d) (v.val :: w.val :: ds)
  | more {x y : Expr} {arms : List (Expr × Expr)} {d : Option Expr} {xs ys us : List Token}
      (hx : IsOperand x xs) (v : Word .gives) (hy : IsOperand y ys) (w : Word .comma)
      (harms : AreArms arms d us) :
      AreArms ((x, y) :: arms) d (xs ++ v.val :: (ys ++ w.val :: us))

inductive ArePieces : List (Expr × Expr) → Option Expr → List Slice → Prop
  | nil : ArePieces [] none []
  | fallback {d : Expr} {piece : Slice} {ds : List Token} (v : Word .otherwise) (w : Word .gives)
      (hd : IsOperand d ds) (hpiece : piece.tokens = v.val :: w.val :: ds) :
      ArePieces [] (some d) [piece]
  | arm {x y : Expr} {arms : List (Expr × Expr)} {d : Option Expr} {piece : Slice}
      {pieces : List Slice} {xs ys : List Token} (hx : IsOperand x xs) (w : Word .gives)
      (hy : IsOperand y ys) (hpiece : piece.tokens = xs ++ w.val :: ys)
      (hpieces : ArePieces arms d pieces) : ArePieces ((x, y) :: arms) d (piece :: pieces)

variable {arms : List (Expr × Expr)} {d : Option Expr}

/-- An arm shows no comma. -/
theorem hasOutline_arm {x y : Expr} {xs ys : List Token} {ks : List Keyword} (hx : IsOperand x xs)
    (w : Word .gives) (hy : IsOperand y ys) (ho : .openParen ∈ ks) (hc : .closeParen ∈ ks)
    (hg : .gives ∈ ks) : HasOutline ks (xs ++ w.val :: ys) :=
  (hx.hasOutline ho hc).append ((hy.hasOutline ho hc).word w (by decide) hg)

theorem hasOutline_fallback {e : Expr} {ds : List Token} {ks : List Keyword}
    (v : Word .otherwise) (w : Word .gives) (hd : IsOperand e ds) (ho : .openParen ∈ ks)
    (hc : .closeParen ∈ ks) (hg : .gives ∈ ks) (hv : .otherwise ∈ ks) :
    HasOutline ks (v.val :: w.val :: ds) :=
  ((hd.hasOutline ho hc).word w (by decide) hg).word v (by decide) hv

theorem AreArms.hasOutline {ks : List Keyword} (h : AreArms arms d ts) (ho : .openParen ∈ ks)
    (hc : .closeParen ∈ ks) (hg : .gives ∈ ks) (hv : .otherwise ∈ ks) (hcomma : .comma ∈ ks) :
    HasOutline ks ts := by
  induction h with
  | last hx w hy => exact hasOutline_arm hx w hy ho hc hg
  | fallback v w hd => exact hasOutline_fallback v w hd ho hc hg hv
  | more hx v hy w _ ih =>
    have harm := (hasOutline_arm hx v hy ho hc hg).append (ih.word w (by decide) hcomma)
    rwa [List.append_assoc, List.cons_append] at harm

theorem AreArms.ne_nil (h : AreArms arms d ts) : ts ≠ [] := by
  cases h <;> simp

theorem AreArms.pieces {us : List Token} (h : AreArms arms d us) (s : Slice) (pre : List Token)
    (hs : s.tokens = pre ++ us) :
    ArePieces arms d (s.cutAt pre.length (commas pre.length us)) := by
  induction h generalizing pre with
  | last hx w hy =>
    have hshows : Shows [.openParen, .closeParen, .gives] _ :=
      (hasOutline_arm hx w hy (by simp) (by simp) (by simp)).shows
    rw [cutAt_last hshows (by decide) hs]
    exact .arm hx w hy rfl .nil
  | fallback v w hd =>
    have hshows : Shows [.openParen, .closeParen, .gives, .otherwise] _ :=
      (hasOutline_fallback v w hd (by simp) (by simp) (by simp) (by simp)).shows
    rw [cutAt_last hshows (by decide) hs]
    exact .fallback v w hd rfl
  | @more x y arms d xs ys us hx v hy w _ ih =>
    have hshows : Shows [.openParen, .closeParen, .gives] _ :=
      (hasOutline_arm hx v hy (by simp) (by simp) (by simp)).shows
    -- The arm is the piece in front of the first comma.
    have hassoc : xs ++ v.val :: (ys ++ w.val :: us) = (xs ++ v.val :: ys) ++ w.val :: us := by
      simp
    rw [hassoc] at hs ⊢
    rw [cutAt_more hshows (by decide) w hs]
    exact .arm hx v hy rfl (ih _ (by rw [hs]; simp))

/-- The arms of a match are read one by one, the fallback last. -/
theorem resolve_readArms (whole : List Token) {pieces : List Slice} (h : ArePieces arms d pieces) :
    ∃ arms' d', (readArms whole pieces).resolve standard.outcome = .ok (arms', d') ∧
      bareArms arms' = bareArms arms ∧ d'.map bare = d.map bare := by
  induction h with
  | nil => exact ⟨[], none, rfl, rfl, rfl⟩
  | @fallback d piece ds v w hd hpiece =>
    obtain ⟨d', hread, hbare⟩ := hd.reads (piece.start + 2)
    refine ⟨[], some d', ?_, rfl, by simp [hbare]⟩
    have hshows : Shows [.otherwise] [v.val] :=
      shows_singleton (isFlat_word v (by decide)) (by simp [v.property.1])
    have hgives : piece.first .gives 0 = some 1 :=
      Slice.first_eq_some hshows (by decide) (isFlat_word w (by decide)) w.property.1 hpiece
    have hlead : piece.startsWith .otherwise = true := by
      simp [Slice.startsWith, hpiece, v.property.1]
    have hresult : piece.drop 2 = ⟨piece.start + 2, ds⟩ :=
      Slice.drop_eq [v.val, w.val] ds hpiece rfl
    simp only [readArms_cons, hgives, Inquiry.resolve_bind, hresult, resolve_required hread,
      Except.bind, hlead, and_self, if_true, List.isEmpty_nil]
    rfl
  | @arm x y arms d piece pieces xs ys hx w hy hpiece _ ih =>
    obtain ⟨x', hxread, hxbare⟩ := hx.reads piece.start
    obtain ⟨y', hyread, hybare⟩ := hy.reads (piece.start + (xs.length + 1))
    obtain ⟨arms', d', hreads, hbares, hd⟩ := ih
    refine ⟨(x', y') :: arms', d', ?_, by simp only [bareArms, hxbare, hybare, hbares], hd⟩
    have hgives : piece.first .gives 0 = some xs.length := by
      simpa using first_behind hx w (i := 0) hpiece (by decide)
    have htwo := hx.two_le_length
    -- A pattern in parentheses is no lone `otherwise`.
    have hone : ¬(xs.length = 1 ∧ piece.startsWith .otherwise = true) := by omega
    have hpattern : piece.take xs.length = ⟨piece.start, xs⟩ := Slice.take_eq xs _ hpiece rfl
    have hresult : piece.drop (xs.length + 1) = ⟨piece.start + (xs.length + 1), ys⟩ :=
      Slice.drop_eq (xs ++ [w.val]) ys (by rw [hpiece]; simp) (by simp)
    simp only [readArms_cons, hgives, Inquiry.resolve_bind, hresult, resolve_required hyread,
      Except.bind, if_neg hone, hpattern, resolve_required hxread, hreads]
    rfl

/-- `match ( S ) with ( P ) gives ( R ) , otherwise gives ( D )` -/
theorem readsBack_selection {x : Expr} {xs : List Token} (v : Word .matchWord)
    (hx : IsOperand x xs) (w : Word .withWord) (h : AreArms arms d ts) :
    ReadsBack (selection p x arms d) (v.val :: (xs ++ w.val :: ts)) := by
  refine readsBack_of_hasOutline .selection
    [.openParen, .closeParen, .comma, .gives, .otherwise, .matchWord, .withWord] ?_ ?_ ?_
    (by decide) ?_
  · exact ((hx.hasOutline (by simp) (by simp)).append ((h.hasOutline (by simp) (by simp) (by simp)
      (by simp) (by simp)).word w (by decide) (by simp))).word v (by decide) (by simp)
  · simp only [List.length_cons, List.length_append]
    omega
  · exact fun a => enclosed_word v (by decide)
  · intro a
    obtain ⟨x', hread, hbare⟩ := hx.reads (a + 1)
    generalize hs : (⟨a, v.val :: (xs ++ w.val :: ts)⟩ : Slice) = s
    have hpos : 0 < (⟨a + (1 + xs.length + 1), ts⟩ : Slice).length :=
      List.length_pos_iff.mpr h.ne_nil
    -- Behind `with` the slice is split at the commas, and the pieces are the arms.
    have hpieces := h.pieces ⟨a + (1 + xs.length + 1), ts⟩ [] rfl
    rw [List.length_nil, ← split_comma hpos] at hpieces
    obtain ⟨arms', d', hreads, harms, hd⟩ := resolve_readArms s.tokens hpieces
    refine ⟨selection v.val.position x' arms' d', ?_, ?_⟩
    · have hstart : s.startsWith .matchWord = true := by
        rw [← hs]
        exact startsWith_word v
      have hwith : s.first .withWord 1 = some (1 + xs.length) :=
        first_behind hx w (by rw [← hs]; rfl) (by decide)
      have hsubject : s.extract 1 (1 + xs.length) = ⟨a + 1, xs⟩ := by
        rw [Slice.extract_eq [v.val] xs (w.val :: ts) (by rw [← hs]; rfl) (by rfl) (by rfl), ← hs]
      have hrest : s.drop (1 + xs.length + 1) = ⟨a + (1 + xs.length + 1), ts⟩ := by
        rw [Slice.drop_eq (v.val :: (xs ++ [w.val])) ts (by simp [← hs]) (by simp; omega), ← hs]
      have hplace : s.position = v.val.position := by
        rw [← hs]
        rfl
      simp only [verdict, Form.read, readSelection_eq, hstart, if_true, hwith, Inquiry.resolve_bind,
        hsubject, resolve_required hread, Except.bind, hrest, isEmpty_eq_false_of_pos hpos,
        Bool.false_eq_true, if_false, hreads, hplace]
      rfl
    · cases d' <;> cases d <;> simp_all [bare]

end arms

end Prose.Expr
