import Prose.Proofs.Expr.OperatorChain
import Prose.Proofs.Expr.Split

namespace Prose.Expr

open Grammar

/-- The tokens are a tree of so many arithmetic phrases over closed operands. A phrase is its lead,
its left part, `and` and its right part. -/
inductive IsPhraseTree : Nat → Expr → List Token → Prop
  | operand {e ts} (h : IsClosed e ts) : IsPhraseTree 0 e ts
  | phrase {p : ArithmeticPhrase} {k l left right ls rs} {lead conj : Token}
      (hlead : lead.keyword = p.lead) (hconj : conj.keyword = .andWord)
      (hleft : IsPhraseTree k left ls) (hright : IsPhraseTree l right rs) :
      IsPhraseTree (k + l + 1) (binary lead.position left p.op right) (lead :: (ls ++ conj :: rs))

inductive IsLed : Nat → List Token → Prop
  | operand {e ts} (h : IsClosed e ts) : IsLed 0 ts
  | lead {p : ArithmeticPhrase} {m ts} {t : Token} (ht : t.keyword = p.lead) (h : IsLed m ts) :
      IsLed (m + 1) (t :: ts)

/-- Closed operands with `and` between them, and with so many leads in front of each. -/
inductive IsRow : Nat → List Nat → List Token → Prop
  | operand {m ts} (h : IsLed m ts) : IsRow m [] ts
  | more {m m' ms ts us} {t : Token} (h : IsLed m ts) (ht : t.keyword = .andWord)
      (h' : IsRow m' ms us) : IsRow m (m' :: ms) (ts ++ t :: us)

variable {p : ArithmeticPhrase} {f : Form} {s : Slice} {e left right : Expr} {t u : Token}
  {ts us vs : List Token} {m m' k : Nat} {ms ms' : List Nat}

section outlines

theorem isFlat_lead (h : t.keyword = p.lead) : t.IsFlat := by
  unfold Token.IsFlat
  rw [h]
  cases p <;> decide

theorem isFlat_and (h : t.keyword = .andWord) : t.IsFlat := by
  unfold Token.IsFlat
  rw [h]
  decide

def ledKeywords : List Keyword :=
  .closeParen :: heads ++ ArithmeticPhrase.all.map (·.lead)

theorem lead_mem_ledKeywords (p : ArithmeticPhrase) : p.lead ∈ ledKeywords := by
  cases p <;> decide

theorem IsLed.hasOutline (h : IsLed m ts) (hts : ∀ t ∈ ts, t.IsRegular) :
    HasOutline ledKeywords ts := by
  induction h with
  | operand h => exact h.hasOutline hts (List.subset_append_left _ _)
  | @lead p m ts t ht _ ih =>
    rw [List.forall_mem_cons] at hts
    exact (ih hts.2).cons (isFlat_lead ht) (by rw [ht]; exact lead_mem_ledKeywords p)

theorem IsRow.hasOutline (h : IsRow m ms ts) (hts : ∀ t ∈ ts, t.IsRegular) :
    HasOutline (.andWord :: ledKeywords) ts := by
  induction h with
  | operand h => exact (h.hasOutline hts).mono (List.subset_cons_self _ _)
  | more h ht _ ih =>
    rw [List.forall_mem_append, List.forall_mem_cons] at hts
    have hfirst := (h.hasOutline hts.1).mono (List.subset_cons_self .andWord _)
    refine hfirst.append ((ih hts.2.2).cons (isFlat_and ht) ?_)
    rw [ht]
    exact List.mem_cons_self ..

/-- Behind the lead of a phrase every other form rejects tokens without a sign of its own. -/
theorem verdict_of_lead {ks : List Keyword} (h : HasOutline ks (t :: us)) (ht : t.keyword = p.lead)
    (hregular : t.IsRegular) (hf : f ≠ .phrase p)
    (hks : f.fixity.isOpenLeft = true → ∀ k ∈ ks, k ∉ f.signs) (a : Nat) :
    standard.verdict f ⟨a, t :: us⟩ = .ok none := by
  refine verdict_of_read_eq ?_
  -- A form that begins with an operand goes by its signs, any other form by the first token.
  cases hleft : f.fixity.isOpenLeft with
  | true =>
    exact read_eq_of_unsigned hleft (fun i k _ hmem => hks hleft k (h.shows.of_mem hmem))
      fun _ u hu => hks hleft _ (h.last u hu)
  | false =>
    refine read_eq_of_unled hleft fun u vs hs => ?_
    cases hs
    constructor
    · have hall : ∀ f ∈ Form.all, f ≠ .phrase p → p.lead ∉ f.signs := by
        cases p <;> decide
      rw [ht]
      exact hall f f.mem_all hf
    · intro _ hk
      rcases hregular (isPlain_of_mem_kinds hk) with hplain | hplain
      · rw [ht] at hplain
        cases p <;> cases hplain
      · rw [ht] at hplain
        cases p <;> cases hplain

theorem not_mem_signs_of_isOpenLeft {k : Keyword} (hk : k ∈ ledKeywords)
    (hf : f.fixity.isOpenLeft = true) : k ∉ f.signs := by
  have hall : ∀ f ∈ Form.all, f.fixity.isOpenLeft = true → ∀ k ∈ ledKeywords, k ∉ f.signs := by
    decide
  exact hall f f.mem_all hf k hk

/-- Behind the lead of a phrase a row is rejected by all forms but that phrase and `and`. -/
theorem IsRow.verdict_of_lead (h : IsRow m ms (t :: us)) (ht : t.keyword = p.lead)
    (hts : ∀ u ∈ t :: us, u.IsRegular) (hf : f ≠ .phrase p) (hf' : f ≠ .operators .conjunction)
    (a : Nat) : standard.verdict f ⟨a, t :: us⟩ = .ok none := by
  refine Expr.verdict_of_lead (h.hasOutline hts) ht (hts t (List.mem_cons_self ..)) hf
    (fun hleft => ?_) a
  have hand : ∀ f ∈ Form.all, f ≠ .operators .conjunction → Keyword.andWord ∉ f.signs := by decide
  rw [List.forall_mem_cons]
  exact ⟨hand f f.mem_all hf', fun k hk => not_mem_signs_of_isOpenLeft hk hleft⟩

end outlines

section indices

theorem andWord_not_mem_ledKeywords : Keyword.andWord ∉ ledKeywords := by
  decide

/-- The first `and` of a row stands behind its first operand. -/
theorem IsLed.allOf_andWord (h : IsLed m ts) (hts : ∀ t ∈ ts, t.IsRegular)
    (ht : t.keyword = .andWord) (a : Nat) :
    (⟨a, ts ++ t :: us⟩ : Slice).allOf .andWord =
      ts.length :: indicesFrom .andWord (ts.length + 1) us := by
  change indicesFrom .andWord 0 (ts ++ t :: us) = _
  rw [indicesFrom_append (h.hasOutline hts).shows andWord_not_mem_ledKeywords,
    indicesFrom_cons (isFlat_and ht) ht, Nat.zero_add]

theorem IsLed.allOf_andWord_of_isLed (h : IsLed m ts) (ht : t.keyword = .andWord)
    (h' : IsLed m' us) (hts : ∀ u ∈ ts ++ t :: us, u.IsRegular) (a : Nat) :
    (⟨a, ts ++ t :: us⟩ : Slice).allOf .andWord = [ts.length] := by
  rw [List.forall_mem_append, List.forall_mem_cons] at hts
  rw [h.allOf_andWord hts.1 ht,
    indicesFrom_of_shows (h'.hasOutline hts.2.2).shows andWord_not_mem_ledKeywords]

end indices

section readings

/-- Leads without an `and` behind them are not read. -/
theorem IsLed.outcome_eq_none (h : IsLed (m + 1) ts) (hts : ∀ t ∈ ts, t.IsRegular) (a : Nat) :
    standard.outcome ⟨a, ts⟩ = .ok none := by
  have houtline := h.hasOutline hts
  cases h with
  | @lead p _ us t ht hus =>
    rw [List.forall_mem_cons] at hts
    have hpos : 0 < (⟨a, t :: us⟩ : Slice).length := Nat.succ_pos _
    refine (outcome_standard_eq_none_iff hpos).mpr fun f => ?_
    -- The phrase of the lead looks for an `and`; no other form finds anything of its own.
    by_cases hf : f = .phrase p
    · subst hf
      have hands : ((⟨a, t :: us⟩ : Slice).drop 1).allOf .andWord = [] :=
        indicesFrom_of_shows (hus.hasOutline hts.2).shows andWord_not_mem_ledKeywords 0
      refine verdict_of_read_eq ?_
      simp only [Form.read, readPhrase_eq, hands, ite_self, List.isEmpty_nil, if_true]
    · exact verdict_of_lead houtline ht hts.1 hf
        (fun hleft k hk => not_mem_signs_of_isOpenLeft hk hleft) a

theorem IsLed.length_pos (h : IsLed m ts) : 0 < ts.length := by
  cases h with
  | operand h => exact h.length_pos
  | lead => exact Nat.succ_pos _

def phraseProblem (p : ArithmeticPhrase) (s : Slice) : Problem :=
  (invalidPart p.origin "operands" s.tokens).withHelp (phraseHint s)

/-- A phrase with one `and` is divided there. -/
theorem verdict_phrase_eq (ht : t.keyword = p.lead) (hus : IsLed m us) (hu : u.keyword = .andWord)
    (hvs : IsLed m' vs) (hts : ∀ w ∈ us ++ u :: vs, w.IsRegular) (a : Nat) :
    standard.verdict (.phrase p) ⟨a, t :: (us ++ u :: vs)⟩ =
      match standard.outcome ⟨a + 1, us⟩ with
      | .error q => .error q
      | .ok none => .error (phraseProblem p ⟨a, t :: (us ++ u :: vs)⟩)
      | .ok (some (_, left)) =>
        match (operand p.level .after ⟨a + 1 + (us.length + 1), vs⟩).resolve standard.outcome with
        | .error q => .error q
        | .ok (.bound right) => .ok (some (binary t.position left p.op right))
        | .ok .looser => .ok none
        | .ok .unread => .error (phraseProblem p ⟨a, t :: (us ++ u :: vs)⟩) := by
  have hstart : (⟨a, t :: (us ++ u :: vs)⟩ : Slice).startsWith p.lead = true := by
    simp [Slice.startsWith, ht]
  have hdrop : (⟨a, t :: (us ++ u :: vs)⟩ : Slice).drop 1 = ⟨a + 1, us ++ u :: vs⟩ := rfl
  -- Neither side shows an `and`, so the one between them is the only candidate.
  have hands := hus.allOf_andWord_of_isLed hu hvs hts (a + 1)
  have hinner : 0 < us.length ∧ us.length + 1 < (⟨a + 1, us ++ u :: vs⟩ : Slice).length := by
    have hpos := hvs.length_pos
    simp only [Slice.length, List.length_append, List.length_cons]
    exact ⟨hus.length_pos, by omega⟩
  have htake : (⟨a + 1, us ++ u :: vs⟩ : Slice).take us.length = ⟨a + 1, us⟩ :=
    Slice.take_eq _ _ rfl rfl
  have hdrop' : (⟨a + 1, us ++ u :: vs⟩ : Slice).drop (us.length + 1) =
      ⟨a + 1 + (us.length + 1), vs⟩ :=
    Slice.drop_eq _ _ (List.append_cons ..) (by simp)
  have hread : Form.read (.phrase p) ⟨a, t :: (us ++ u :: vs)⟩ =
      readPhraseSplit p ⟨a, t :: (us ++ u :: vs)⟩ ⟨a + 1, us ++ u :: vs⟩ false [us.length] := by
    simp only [Form.read, readPhrase_eq, hstart, if_true, hdrop, hands, List.filter_cons, hinner,
      List.filter_nil]
    rfl
  rw [verdict, hread, readPhraseSplit, htake, hdrop', Inquiry.resolve_bind, Expr.read,
    Inquiry.resolve_question]
  rcases standard.outcome ⟨a + 1, us⟩ with q | _ | ⟨rule, left⟩
  · rfl
  · rfl
  · simp only [Except.bind, Inquiry.resolve_bind]
    rcases (operand p.level .after ⟨a + 1 + (us.length + 1), vs⟩).resolve standard.outcome with
      q | right | _ | _ <;> rfl

/-- The only `and` of a row of two operands divides nothing if a lead stands before it. -/
theorem IsLed.verdict_conjunction (hus : IsLed (m + 1) us) (hu : u.keyword = .andWord)
    (hvs : IsLed m' vs) (hts : ∀ w ∈ us ++ u :: vs, w.IsRegular) (a : Nat) :
    standard.verdict (.operators .conjunction) ⟨a, us ++ u :: vs⟩ = .ok none := by
  refine verdict_operators_of_unread fun i hi => ?_
  obtain ⟨-, -, k, hk, hmem⟩ := hi
  rw [List.mem_singleton.mp hk] at hmem
  have hall := Slice.mem_allOf_iff.mpr hmem
  rw [hus.allOf_andWord_of_isLed hu hvs hts, List.mem_singleton] at hall
  have htake : (⟨a, us ++ u :: vs⟩ : Slice).take us.length = ⟨a, us⟩ := Slice.take_eq _ _ rfl rfl
  rw [hall, htake]
  exact hus.outcome_eq_none (List.forall_mem_append.mp hts).1 a

/-- A phrase with one `and` fails if there is a lead behind its own. -/
theorem IsLed.outcome_eq_error (ht : t.keyword = p.lead) (hus : IsLed m us)
    (hu : u.keyword = .andWord) (hvs : IsLed m' vs) (hm : 0 < m + m')
    (hts : ∀ w ∈ t :: (us ++ u :: vs), w.IsRegular) (a : Nat) :
    standard.outcome ⟨a, t :: (us ++ u :: vs)⟩ =
      .error (phraseProblem p ⟨a, t :: (us ++ u :: vs)⟩) := by
  have hrow : IsRow (m + 1) [m'] (t :: (us ++ u :: vs)) := .more (.lead ht hus) hu (.operand hvs)
  refine outcome_standard_eq_error_iff.mpr ⟨.phrase p, Nat.succ_pos _, ?_, fun f hlt => ?_⟩
  · rw [List.forall_mem_cons] at hts
    have hsides := hts.2
    rw [List.forall_mem_append, List.forall_mem_cons] at hsides
    rw [verdict_phrase_eq ht hus hu hvs hts.2]
    cases hus with
    | lead ht' hus' => rw [(IsLed.lead ht' hus').outcome_eq_none hsides.1]
    | operand hclosed =>
      -- The left part is closed, so it is the right one that begins with a lead.
      obtain ⟨f, hread, -⟩ := hclosed.fits hsides.1 (a + 1)
      obtain ⟨m', rfl⟩ := Nat.exists_eq_add_one_of_ne_zero (n := m') (by omega)
      rw [hread, resolve_operand, view_of_outcome_none (hvs.outcome_eq_none hsides.2.2 _)]
      rfl
  -- Of the looser forms only `and` has a sign in the row, and it has nothing to divide.
  · have hne : f ≠ .phrase p := by
      rintro rfl
      exact Nat.lt_irrefl _ hlt
    by_cases hand : f = .operators .conjunction
    · subst hand
      exact (IsLed.lead ht hus).verdict_conjunction hu hvs hts a
    · exact hrow.verdict_of_lead ht hts hne hand a

/-- The left side of the last `and` is tried before all other parts of a row. -/
theorem verdict_conjunction_eq_error {q : Problem} (hus : HasOutline (.andWord :: ledKeywords) us)
    (hpos : 0 < us.length) (hu : u.keyword = .andWord) (hvs : IsLed m vs)
    (hts : ∀ w ∈ vs, w.IsRegular) {a : Nat} (hq : standard.outcome ⟨a, us⟩ = .error q) :
    standard.verdict (.operators .conjunction) ⟨a, us ++ u :: vs⟩ = .error q := by
  have hnot : ∀ k ∈ ledKeywords, k ∉ (Form.operators BinaryOp.conjunction.operatorLevel).signs := by
    decide
  have hrole : u.keyword = BinaryOp.conjunction.role := hu
  obtain ⟨is, hread⟩ := exists_tried_first a hus.nested hrole (hvs.hasOutline hts).shows hnot
  -- The last `and` stands inside, so it is tried, and its left side is asked for first.
  have hlength : us.length + 1 ≠ (⟨a, us ++ u :: vs⟩ : Slice).length := by
    have hpos' := hvs.length_pos
    simp only [Slice.length, List.length_append, List.length_cons]
    omega
  have hop : operatorAt? ⟨a, us ++ u :: vs⟩ .conjunction us.length = some .conjunction := by
    rw [operatorAt?, if_neg (not_or.mpr ⟨Nat.ne_of_gt hpos, hlength⟩),
      List.getElem?_append_right (Nat.le_refl _), Nat.sub_self, List.getElem?_cons_zero,
      Option.bind_some, hu]
    rfl
  have htake : (⟨a, us ++ u :: vs⟩ : Slice).take us.length = ⟨a, us⟩ := Slice.take_eq _ _ rfl rfl
  have hread' : Form.read (.operators .conjunction) ⟨a, us ++ u :: vs⟩ =
      readSplit ⟨a, us ++ u :: vs⟩ .conjunction (us.length :: is) := hread
  rw [verdict, hread', readSplit_cons hop, htake, Inquiry.resolve_bind, resolve_operand,
    view_of_outcome_error hq]
  rfl

end readings

section rows

theorem IsRow.length_pos (h : IsRow m ms ts) : 0 < ts.length := by
  cases h with
  | operand h => exact h.length_pos
  | more h =>
    rw [List.length_append]
    exact Nat.add_pos_left h.length_pos _

/-- One row behind another. -/
theorem IsRow.append (h : IsRow m ms ts) (ht : t.keyword = .andWord) (h' : IsRow m' ms' us) :
    IsRow m (ms ++ m' :: ms') (ts ++ t :: us) := by
  induction h with
  | operand h => exact .more h ht h'
  | more h hu _ ih =>
    rw [List.append_assoc, List.cons_append, List.cons_append]
    exact .more h hu ih

theorem IsRow.lead (ht : t.keyword = p.lead) (h : IsRow m ms ts) : IsRow (m + 1) ms (t :: ts) := by
  cases h with
  | operand h => exact .operand (.lead ht h)
  | more h hu h' => exact .more (.lead ht h) hu h'

theorem IsRow.exists_lead (h : IsRow (m + 1) ms ts) :
    ∃ (p : ArithmeticPhrase) (t : Token) (us : List Token), ts = t :: us ∧ t.keyword = p.lead := by
  cases h with
  | operand h =>
    cases h with
    | lead ht => exact ⟨_, _, _, rfl, ht⟩
  | more h =>
    cases h with
    | lead ht => exact ⟨_, _, _, rfl, ht⟩

/-- A row falls into its last operand and the row before it. -/
theorem IsRow.split (ms : List Nat) (h : IsRow m (ms ++ [m']) ts) :
    ∃ us t vs, ts = us ++ t :: vs ∧ IsRow m ms us ∧ t.keyword = .andWord ∧ IsLed m' vs := by
  induction ms generalizing m ts with
  | nil =>
    cases h with
    | more h ht h' =>
      cases h' with
      | operand h' => exact ⟨_, _, _, rfl, .operand h, ht, h'⟩
  | cons k ms ih =>
    cases h with
    | @more _ _ _ us _ t h ht h' =>
      obtain ⟨vs, u, ws, rfl, hvs, hu, hws⟩ := ih h'
      exact ⟨us ++ t :: vs, u, ws, by simp, .more h ht hvs, hu, hws⟩

/-- A row of two operands with a lead in front. -/
theorem IsRow.exists_pair (h : IsRow (m + 1) [m'] ts) :
    ∃ (p : ArithmeticPhrase) (t : Token) (us : List Token) (u : Token) (vs : List Token),
      ts = t :: (us ++ u :: vs) ∧ t.keyword = p.lead ∧ IsLed m us ∧ u.keyword = .andWord ∧
        IsLed m' vs := by
  obtain ⟨_, u, vs, rfl, hfirst, hu, hvs⟩ := h.split []
  cases hfirst with
  | operand hfirst =>
    cases hfirst with
    | lead ht hus => exact ⟨_, _, _, u, vs, rfl, ht, hus, hu, hvs⟩

/-- A row fails as its first two operands do. By induction on the number of operands behind: the row
before the last `and` is tried as the left side of this `and`, and it is shorter. -/
theorem IsRow.outcome_eq_error (h : IsRow (m + 1) (m' :: ms) (t :: us)) (ht : t.keyword = p.lead)
    (hm : 0 < m + m') (hts : ∀ u ∈ t :: us, u.IsRegular) :
    ∃ part, IsRow (m + 1) [m'] part ∧
      (ms = [] ∧ part = t :: us ∨ ∃ u vs, u.keyword = .andWord ∧ t :: us = part ++ u :: vs) ∧
      ∀ a, standard.outcome ⟨a, t :: us⟩ = .error (phraseProblem p ⟨a, part⟩) := by
  induction ms using List.reverseRecOn generalizing us with
  | nil =>
    refine ⟨t :: us, h, .inl ⟨rfl, rfl⟩, fun a => ?_⟩
    obtain ⟨q, v, ws, u, xs, hsplit, hv, hws, hu, hxs⟩ := h.exists_pair
    cases hsplit
    exact hws.outcome_eq_error ht hu hxs hm hts a
  | append_singleton ms k ih =>
    obtain ⟨vs, u, ws, hsplit, hvs, hu, hws⟩ := h.split (m' :: ms)
    obtain ⟨v, vs, rfl⟩ := List.exists_cons_of_length_pos hvs.length_pos
    obtain ⟨rfl, rfl⟩ := List.cons.inj hsplit
    have hsides := hts
    rw [List.append_eq, ← List.cons_append, List.forall_mem_append] at hsides
    obtain ⟨hvsts, hbehind⟩ := hsides
    have hwsts := (List.forall_mem_cons.mp hbehind).2
    -- What fails in the shorter row fails in this one, with more behind it.
    obtain ⟨part, hpart, hrest, hfails⟩ := ih hvs hvsts
    refine ⟨part, hpart, .inr ?_, fun a => ?_⟩
    · rcases hrest with ⟨-, rfl⟩ | ⟨w, xs, hw, hxs⟩
      · exact ⟨u, ws, hu, rfl⟩
      · refine ⟨w, xs ++ u :: ws, hw, ?_⟩
        rw [List.append_eq, ← List.cons_append, hxs, List.append_assoc, List.cons_append]
    · have hverdict := verdict_conjunction_eq_error (hvs.hasOutline hvsts) hvs.length_pos hu hws
        hwsts (hfails a)
      refine outcome_standard_eq_error_iff.mpr ⟨_, Nat.succ_pos _, hverdict, fun f hlt => ?_⟩
      -- Only forms looser than `and` are left to pass, and a phrase is none of them.
      have hlevel : (Form.phrase p).level < (Form.operators .conjunction).level := by
        cases p <;> decide
      refine h.verdict_of_lead ht hts ?_ ?_ a
      · rintro rfl
        exact Nat.lt_asymm hlt hlevel
      · rintro rfl
        exact Nat.lt_irrefl _ hlt

end rows

section trees

/-- A tree of phrases is a row with one `and` for each phrase. With a phrase it begins with a lead,
and with more there is a second lead in front of its first two operands. -/
theorem IsPhraseTree.exists_isRow (h : IsPhraseTree k e ts) : ∃ m ms, IsRow m ms ts ∧
    ms.length = k ∧ (0 < k → 0 < m) ∧ (1 < k → ∃ m' ms', ms = m' :: ms' ∧ 1 < m + m') := by
  induction h with
  | operand h => exact ⟨0, [], .operand (.operand h), rfl, by simp, by simp⟩
  | @phrase p k l _ _ _ _ _ _ hlead hconj _ _ ihleft ihright =>
    obtain ⟨m, ms, hleft, hms, hm, -⟩ := ihleft
    obtain ⟨m', ms', hright, hms', hm', -⟩ := ihright
    refine ⟨m + 1, ms ++ m' :: ms', (hleft.append hconj hright).lead hlead, ?_, by simp, ?_⟩
    · rw [List.length_append, List.length_cons, hms, hms', Nat.add_assoc]
    · intro hk
      cases ms with
      -- The left part is an operand, so the right one is a phrase and begins with a lead.
      | nil =>
        have hk0 : k = 0 := hms.symm
        exact ⟨m', ms', rfl, by have := hm' (by omega); omega⟩
      | cons j ms =>
        have hkpos : 0 < k := hms ▸ Nat.succ_pos _
        exact ⟨j, ms ++ m' :: ms', rfl, by have := hm hkpos; omega⟩

theorem IsPhraseTree.isClosed (h : IsPhraseTree 0 e ts) : IsClosed e ts := by
  cases h with
  | operand h => exact h

/-- A tree with no more than one phrase is read. -/
theorem IsPhraseTree.exists_outcome (h : IsPhraseTree k e ts) (hk : k ≤ 1)
    (hts : ∀ t ∈ ts, t.IsRegular) (a : Nat) :
    ∃ f : Form, standard.outcome ⟨a, ts⟩ = .ok (some (f.rule, e)) := by
  cases h with
  | operand h =>
    obtain ⟨f, hread, -⟩ := h.fits hts a
    exact ⟨f, hread⟩
  | @phrase p k l left right ls rs lead conj hlead hconj hleft hright =>
    obtain ⟨rfl, rfl⟩ : k = 0 ∧ l = 0 := by omega
    have hls := IsLed.operand hleft.isClosed
    have hrs := IsLed.operand hright.isClosed
    have hrow : IsRow 1 [0] (lead :: (ls ++ conj :: rs)) :=
      .more (.lead hlead hls) hconj (.operand hrs)
    have hsides := (List.forall_mem_cons.mp hts).2
    rw [List.forall_mem_append, List.forall_mem_cons] at hsides
    have hlevel : Form.list.level ≤ p.level := by cases p <;> decide
    obtain ⟨f, hread, -⟩ := hleft.isClosed.fits hsides.1 (a + 1)
    have hbound := ((hright.isClosed.fits_list hsides.2.2 (a + 1 + (ls.length + 1))).mono
      hlevel).resolve_operand .after
    refine ⟨.phrase p, outcome_standard_eq_some_iff.mpr
      ⟨_, rfl, Nat.succ_pos _, ?_, fun f' hlt => ?_⟩⟩
    · -- The phrase itself accepts: its left side is the operand up to the only `and`.
      rw [verdict_phrase_eq hlead hls hconj hrs (List.forall_mem_cons.mp hts).2, hread]
      simp only [hbound]
    · -- Of the looser forms only the conjunction is divided by this `and`, and it rejects, too.
      by_cases hand : f' = .operators .conjunction
      · subst hand
        exact (IsLed.lead hlead hls).verdict_conjunction hconj hrs hts a
      · refine hrow.verdict_of_lead hlead hts ?_ hand a
        rintro rfl
        exact Nat.lt_irrefl _ hlt

/-- The second `and` of a row of three operands or more stands behind the first two. -/
theorem IsRow.allOf_andWord {part : List Token} (h : IsRow m [m'] part) (hu : u.keyword = .andWord)
    (hs : s.tokens = part ++ u :: vs) (hts : ∀ t ∈ part, t.IsRegular) :
    (s.allOf .andWord)[1]? = some part.length := by
  obtain ⟨us, t, ws, rfl, hfirst, ht, hws⟩ := h.split []
  cases hfirst with
  | operand hus =>
    rw [List.forall_mem_append, List.forall_mem_cons] at hts
    have hands : s.allOf .andWord = indicesFrom .andWord 0 s.tokens := rfl
    rw [hands, hs, List.append_assoc, List.cons_append,
      indicesFrom_append (hus.hasOutline hts.1).shows andWord_not_mem_ledKeywords,
      indicesFrom_cons (isFlat_and ht) ht,
      indicesFrom_append (hws.hasOutline hts.2.2).shows andWord_not_mem_ledKeywords,
      indicesFrom_cons (isFlat_and hu) hu, List.getElem?_cons_succ, List.getElem?_cons_zero,
      List.length_append, List.length_cons]
    congr 1
    omega

/-- A tree with more than one phrase fails. -/
theorem IsPhraseTree.exists_error (h : IsPhraseTree k e s.tokens) (hk : 1 < k)
    (hs : s.IsRegular) : ∃ (p : ArithmeticPhrase) (i : Nat), s.startsWith p.lead = true ∧
      (s.allOf .andWord)[1]? = some i ∧
        standard.outcome s = .error (phraseProblem p (s.take i)) := by
  obtain ⟨m, ms, hrow, hms, hlead, hleads⟩ := h.exists_isRow
  obtain ⟨m', ms, rfl, hm⟩ := hleads hk
  obtain ⟨m, rfl⟩ := Nat.exists_eq_add_one_of_ne_zero (Nat.ne_of_gt (hlead (by omega)))
  obtain ⟨p, t, us, hstart, ht⟩ := hrow.exists_lead
  rw [hstart] at hrow
  have hts : ∀ u ∈ t :: us, u.IsRegular := hstart ▸ hs
  obtain ⟨part, hpart, hrest, hfails⟩ := hrow.outcome_eq_error ht (by omega) hts
  -- Two phrases have three operands, so that there is something behind the first two.
  have hmore : ms ≠ [] := by
    rintro rfl
    rw [List.length_singleton] at hms
    omega
  obtain ⟨u, vs, hu, hsplit⟩ := hrest.resolve_left fun hall => hmore hall.1
  rw [hsplit] at hstart hts
  have htake : s.take part.length = ⟨s.start, part⟩ := Slice.take_eq _ _ hstart rfl
  refine ⟨p, part.length, ?_, hpart.allOf_andWord hu hstart (List.forall_mem_append.mp hts).1, ?_⟩
  · rw [Slice.startsWith, hstart, ← hsplit]
    simp [ht]
  · rw [htake, ← hfails s.start, hsplit, ← hstart]

/-- A tree of phrases over closed operands is accepted, as what it is, exactly if there is no more
than one phrase in it. Otherwise the whole fails, with the tokens before the second `and` for the
operands of the first phrase. -/
theorem selection_of_isPhraseTree (s : Slice) (o : Options) (n : Nat) (hs : s.IsRegular)
    (h : IsPhraseTree k e s.tokens) (hroom : s.length < o.maxNestingDepth) :
    ((∃ rule, s.selection o n = .ok (some (rule, e))) ↔ k ≤ 1) ∧
      (1 < k → ∃ (p : ArithmeticPhrase) (i : Nat), s.startsWith p.lead = true ∧
        (s.allOf .andWord)[1]? = some i ∧
          s.selection o n = .error (phraseProblem p (s.take i))) := by
  rw [selection_eq_outcome (Nat.le_of_lt hroom)]
  have hfails (hk : 1 < k) := h.exists_error hk hs
  refine ⟨⟨fun ⟨rule, hread⟩ => ?_, fun hk => ?_⟩, hfails⟩
  · by_contra hk
    obtain ⟨p, i, -, -, herror⟩ := hfails (Nat.lt_of_not_le hk)
    rw [hread] at herror
    cases herror
  · obtain ⟨f, hread⟩ := h.exists_outcome hk hs s.start
    exact ⟨f.rule, hread⟩

def leftSum : Slice :=
  .ofSource "the sum of the sum of $a and $b and $c" "t"

/-- Sums do not nest on the left. -/
theorem selection_leftSum :
    leftSum.IsCondensed ∧ leftSum.length < ({} : Options).maxNestingDepth ∧
      (∃ e, IsPhraseTree 2 e leftSum.tokens) ∧ ∃ p, leftSum.selection {} 0 = .error p := by
  have hfails : ∃ p, leftSum.selection {} 0 = .error p := exists_eq_error (by decide +kernel)
  refine ⟨Slice.isCondensed_ofSource _ _, by decide +kernel, ?_, hfails⟩
  -- The tokens one by one, of which the tree is put together.
  let w (i : Nat) : Token := leftSum.tokens.getD i default
  obtain ⟨l, l', x, c, y, d, z, htokens, hl, hl', hc, hd, hx, hy, hz⟩ : ∃ l l' x c y d z : Token,
      leftSum.tokens = [l, l', x, c, y, d, z] ∧ l.keyword = ArithmeticPhrase.sum.lead ∧
        l'.keyword = ArithmeticPhrase.sum.lead ∧ c.keyword = .andWord ∧ d.keyword = .andWord ∧
          x.name? = some "$a" ∧ y.name? = some "$b" ∧ z.name? = some "$c" :=
    ⟨w 0, w 1, w 2, w 3, w 4, w 5, w 6, by decide +kernel⟩
  have hinner := IsPhraseTree.phrase hl' hc (.operand (.name hx)) (.operand (.name hy))
  rw [htokens]
  exact ⟨_, IsPhraseTree.phrase hl hd hinner (.operand (.name hz))⟩

def rightSum : Slice :=
  .ofSource "the sum of $a and the sum of $b and $c" "t"

/-- Nor do they nest on the right: the tokens before the second `and` are blamed. -/
theorem selection_rightSum :
    rightSum.IsRegular ∧ rightSum.length < ({} : Options).maxNestingDepth ∧
      ∃ e, IsPhraseTree 2 e rightSum.tokens ∧
        (¬ ∃ rule, rightSum.selection {} 0 = .ok (some (rule, e))) ∧
          rightSum.selection {} 0 = .error (phraseProblem .sum (rightSum.take 5)) := by
  let w (i : Nat) : Token := rightSum.tokens.getD i default
  -- Only the roles of the seven tokens and the names are computed.
  obtain ⟨l, x, c, l', y, d, z, htokens, hl, hl', hc, hd, hx, hy, hz⟩ : ∃ l x c l' y d z : Token,
      rightSum.tokens = [l, x, c, l', y, d, z] ∧ l.keyword = ArithmeticPhrase.sum.lead ∧
        l'.keyword = ArithmeticPhrase.sum.lead ∧ c.keyword = .andWord ∧ d.keyword = .andWord ∧
          x.name? = some "$a" ∧ y.name? = some "$b" ∧ z.name? = some "$c" :=
    ⟨w 0, w 1, w 2, w 3, w 4, w 5, w 6, by decide +kernel⟩
  have hinner := IsPhraseTree.phrase hl' hd (.operand (.name hy)) (.operand (.name hz))
  have htree : ∃ e, IsPhraseTree 2 e rightSum.tokens := by
    rw [htokens]
    exact ⟨_, IsPhraseTree.phrase hl hc (.operand (.name hx)) hinner⟩
  obtain ⟨e, htree⟩ := htree
  have hregular : rightSum.IsRegular := (Slice.isCondensed_ofSource _ _).isRegular
  have hroom : rightSum.length < ({} : Options).maxNestingDepth := by decide +kernel
  have hselection := selection_of_isPhraseTree rightSum {} 0 hregular htree hroom
  refine ⟨hregular, hroom, e, htree, fun hread => ?_, ?_⟩
  · exact absurd (hselection.1.mp hread) (by decide)
  · obtain ⟨p, i, hstart, hi, hfails⟩ := hselection.2 (by decide)
    have hp : p = .sum := by
      rw [Slice.startsWith, htokens, List.head?_cons, Option.any_some, beq_iff_eq, hl] at hstart
      revert hstart
      cases p <;> decide
    have hsecond : (rightSum.allOf .andWord)[1]? = some 5 := by decide +kernel
    rw [hsecond] at hi
    cases hi
    rw [hfails, hp]

end trees

end Prose.Expr
