import Prose.Proofs.Segment.Partition
import Prose.Proofs.Segment.Sentences
import Prose.Proofs.Stmt.Clauses
import Prose.Proofs.Stmt.Indices

namespace Prose

inductive IsSentence : List Token → Prop
  | mk {ts : List Token} {dot : Token} (hts : ts ≠ []) (hflat : ∀ t ∈ ts, t.IsFlat)
      (hdots : ∀ t ∈ ts, t.keyword ≠ .endOfStatement) (hdot : dot.keyword = .endOfStatement) :
      IsSentence (ts ++ [dot])

inductive IsClauseBody (inner : List Token) : List Token → Prop
  | braced {ts : List Token} (h : IsBraced inner ts) : IsClauseBody inner ts
  | sentence (h : IsSentence inner) : IsClauseBody inner inner

inductive IsClauseText (k : Keyword) : List Token → Prop
  | mk {lead : Token} {ls inner bs : List Token} (hlead : lead.keyword = k) (hls : IsInline ls)
      (hb : IsClauseBody inner bs) : IsClauseText k (lead :: (ls ++ bs))

/-- Clauses of one conditional, the first of which begins with `k`: the others begin with
`otherwise if`, but for the last one, which may begin with `otherwise`. -/
inductive IsChainText : Keyword → List (List Token) → Prop
  | last {k : Keyword} {ts : List Token} (h : IsClauseText k ts) : IsChainText k [ts]
  | cons {k next : Keyword} {ts : List Token} {tss : List (List Token)} (h : IsClauseText k ts)
      (hk : k ≠ .otherwise) (hnext : next = .otherwiseIf ∨ next = .otherwise)
      (hrest : IsChainText next tss) : IsChainText k (ts :: tss)

def Keyword.isClauseLead (k : Keyword) : Bool :=
  k == ifWord || k == otherwiseIf || k == otherwise

variable {k : Keyword} {lead t : Token} {ts ls inner bs rest : List Token} {strict inDo : Bool}
  {s : Slice} {size depth : Nat}

theorem Keyword.isClauseLead_spec (h : k.isClauseLead = true) :
    k.isOpener = false ∧ k.isCloser = false ∧ k.isInline = true ∧ k ≠ .endOfStatement ∧
      k ≠ .doWord := by
  cases k <;> first | decide | cases h

theorem IsClauseBody.length_le (h : IsClauseBody inner ts) : inner.length ≤ ts.length := by
  cases h with
  | braced h =>
    rw [h.length_eq]
    exact Nat.le_add_right _ 2
  | sentence h => exact Nat.le_refl _

theorem IsClauseText.exists_cons (h : IsClauseText k ts) :
    ∃ lead us, ts = lead :: us ∧ lead.keyword = k := by
  cases h with
  | mk hlead _ _ => exact ⟨_, _, rfl, hlead⟩

theorem IsChainText.exists_cons {tss : List (List Token)} (h : IsChainText k tss) :
    ∃ lead us, tss.flatten = lead :: us ∧ lead.keyword = k := by
  cases h with
  | last h | cons h =>
    obtain ⟨lead, us, rfl, hlead⟩ := h.exists_cons
    exact ⟨lead, _, rfl, hlead⟩

/-- The words in front of a body are within one statement, too. -/
theorem isInline_lead (hk : k.isClauseLead = true) (hlead : lead.keyword = k) (hls : IsInline ls) :
    IsInline (lead :: ls) := by
  rw [← hlead] at hk
  obtain ⟨hopener, hcloser, hinline, -, -⟩ := Keyword.isClauseLead_spec hk
  exact (IsInline.word ⟨hopener, hcloser⟩ hinline).append hls

namespace Segment

section pass

/-- Tokens within one statement are passed over. -/
theorem divideFrom_inline (h : IsInline ts) (hsize : 0 < size) (rest : List Token) :
    divideFrom strict s size 0 inDo (ts ++ rest) =
      divideFrom strict s (size + ts.length) 0 inDo rest := by
  obtain ⟨hnested, hinline⟩ := h
  induction hnested generalizing size with
  | nil => rfl
  | @flat t ts ht _ ih =>
    rw [List.forall_mem_cons] at hinline
    have hdot : t.keyword ≠ .endOfStatement := by
      intro hk
      rw [hk] at hinline
      cases hinline.1
    rw [List.cons_append, divideFrom_flat ht (.inl hdot), if_neg (Nat.ne_of_gt hsize),
      ih (Nat.succ_pos size) hinline.2, Nat.succ_eq_add_one, List.length_cons, Nat.add_assoc,
      Nat.add_comm 1]
  | @bracket b o c inner ts ho hc hinner _ _ ih =>
    rw [List.forall_mem_cons, List.forall_mem_append, List.forall_mem_cons] at hinline
    obtain ⟨hstart, -, -, hlater⟩ := hinline
    have hassoc : o :: (inner ++ c :: ts) = (o :: (inner ++ [c])) ++ ts := by
      rw [List.cons_append, List.append_assoc, List.singleton_append]
    -- Parentheses are the only brackets within a statement.
    cases b with
    | brace =>
      rw [ho] at hstart
      cases hstart
    | paren =>
      have hparen : Bracket.paren.Around (o :: (inner ++ [c])) := ⟨o, inner, c, rfl, ho, hc, hinner⟩
      rw [hassoc, List.append_assoc, divideFrom_paren hparen, if_neg (Nat.ne_of_gt hsize),
        ih (Nat.lt_of_lt_of_le hsize (Nat.le_add_right _ _)) hlater, List.length_append,
        Nat.add_assoc]

/-- Words, the first of which is not `do`, are passed over. -/
theorem divideFrom_words (ht : lead.IsFlat) (hdot : lead.keyword ≠ .endOfStatement)
    (hdo : lead.keyword ≠ .doWord) (hls : IsInline ls) (rest : List Token) :
    divideFrom strict s size 0 false (lead :: (ls ++ rest)) =
      divideFrom strict s (size + (lead :: ls).length) 0 false rest := by
  have hnotDo : (if size = 0 then lead.keyword == Keyword.doWord else false) = false := by
    split
    · exact beq_false_of_ne hdo
    · rfl
  rw [divideFrom_flat ht (.inl hdot), hnotDo, divideFrom_inline hls (Nat.succ_pos size),
    Nat.succ_eq_add_one, List.length_cons, Nat.add_assoc, Nat.add_comm 1]

/-- The words and the condition in front of a body are passed over. -/
theorem divideFrom_lead (hlead : lead.keyword.isClauseLead = true) (hls : IsInline ls)
    (rest : List Token) :
    divideFrom strict s size 0 false (lead :: (ls ++ rest)) =
      divideFrom strict s (size + (lead :: ls).length) 0 false rest := by
  obtain ⟨hopener, hcloser, -, hdot, hdo⟩ := Keyword.isClauseLead_spec hlead
  exact divideFrom_words ⟨hopener, hcloser⟩ hdot hdo hls rest

/-- One level inside a bracket, balanced tokens are passed over, and the division is at that level
again behind them. -/
theorem divideFrom_balanced (h : BalancedFrom depth ts) (hsize : 0 < size) (rest : List Token) :
    divideFrom strict s size (depth + 1) inDo (ts ++ rest) =
      divideFrom strict s (size + ts.length) 1 inDo rest := by
  induction ts generalizing size depth with
  | nil =>
    rw [balancedFrom_nil.mp h]
    rfl
  | cons t ts ih =>
    have hlength : size + (t :: ts).length = size + 1 + ts.length := by
      rw [List.length_cons, Nat.add_right_comm, Nat.add_assoc]
    rw [List.cons_append, divideFrom_cons, if_neg (Nat.ne_of_gt hsize), hlength, move.eq_def]
    by_cases hopener : t.keyword.isOpener = true
    · rw [if_pos hopener]
      exact ih (h.opener hopener) (Nat.succ_pos size)
    by_cases hcloser : t.keyword.isCloser = true
    · obtain ⟨hpos, hts⟩ := h.closer hcloser
      have hinside : ¬(depth + 1 = 1 ∧ t.keyword = .blockEnd) := by omega
      obtain ⟨outer, rfl⟩ := Nat.exists_eq_add_one_of_ne_zero (Nat.ne_of_gt hpos)
      rw [if_neg hopener, if_pos hcloser, if_neg (Nat.succ_ne_zero _), if_neg hinside]
      exact ih hts (Nat.succ_pos size)
    · have hgoesOn : ¬(t.keyword = .endOfStatement ∧ depth + 1 = 0) := by omega
      rw [if_neg hopener, if_neg hcloser, if_neg hgoesOn]
      rw [Bool.not_eq_true] at hopener hcloser
      exact ih (h.flat ⟨hopener, hcloser⟩) (Nat.succ_pos size)

end pass

section bodies

/-- Behind a block in brackets the division does what it does at its block end. -/
theorem divideFrom_braced (h : IsBraced inner ts) (hsize : 0 < size) (rest : List Token) :
    divideFrom strict s size 0 false (ts ++ rest) =
      match next rest with
      | some u =>
        if continuesStatement u then divideFrom strict s (size + ts.length) 0 false rest
        else push (s.take (size + ts.length))
          (divideFrom strict (s.drop (size + ts.length)) 0 0 false rest)
      | none => push (s.take (size + ts.length))
          (divideFrom strict (s.drop (size + ts.length)) 0 0 false rest) := by
  have hlength := h.length_eq
  cases h with
  | @mk o c ho hc hinner =>
    have hpass : divideFrom strict s (size + 1) 1 false (inner ++ c :: rest) =
        divideFrom strict s (size + 1 + inner.length) 1 false (c :: rest) :=
      divideFrom_balanced hinner (Nat.succ_pos size) (c :: rest)
    have hend : size + 1 + inner.length + 1 = size + (o :: (inner ++ [c])).length := by omega
    have hne : ¬size + 1 + inner.length = 0 := by omega
    rw [List.cons_append, List.append_assoc, List.singleton_append,
      divideFrom_opener (b := .brace) ho, if_neg (Nat.ne_of_gt hsize), hpass, divideFrom_cons,
      if_neg hne, hend, move.eq_def, hc]
    cases next rest with
    | none => rfl
    | some u =>
      cases hu : continuesStatement u
      · simp [Keyword.isOpener, Keyword.isCloser, hu]
      · simp [Keyword.isOpener, Keyword.isCloser, hu]

/-- A block in brackets goes on with what continues the statement. -/
theorem divideFrom_braced_continues (h : IsBraced inner ts) (hsize : 0 < size)
    (ht : continuesStatement t.keyword = true) (rest : List Token) :
    divideFrom strict s size 0 false (ts ++ t :: rest) =
      divideFrom strict s (size + ts.length) 0 false (t :: rest) := by
  rw [divideFrom_braced h hsize, next, List.head?_cons, Option.map_some]
  simp only [if_pos ht]

/-- A sentence ends its slice, whatever follows. -/
theorem divideFrom_sentence (h : IsSentence ts) (hsize : 0 < size) (rest : List Token) :
    divideFrom strict s size 0 false (ts ++ rest) =
      push (s.take (size + ts.length))
        (divideFrom strict (s.drop (size + ts.length)) 0 0 false rest) := by
  cases h with
  | @mk ts dot hts hflat hdots hdot =>
    have hne : ¬size + ts.length = 0 := by omega
    rw [List.append_assoc, divideFrom_inline (.of_isFlat hflat hdots) hsize, List.singleton_append,
      divideFrom_cons, if_neg hne, move_dot hdot, List.length_append, List.length_singleton,
      Nat.add_assoc]

/-- A body at the end of the tokens ends its slice, and so does a sentence anywhere. -/
theorem divideFrom_body (h : IsClauseBody inner ts) (hend : rest = [] ∨ IsSentence ts)
    (hsize : 0 < size) :
    divideFrom strict s size 0 false (ts ++ rest) =
      push (s.take (size + ts.length))
        (divideFrom strict (s.drop (size + ts.length)) 0 0 false rest) := by
  cases h with
  | sentence h => exact divideFrom_sentence h hsize rest
  | braced h =>
    rcases hend with rfl | hts
    · exact divideFrom_braced h hsize []
    · exact divideFrom_sentence hts hsize rest

/-- A statement that is more than `.` is a segment of its own. -/
theorem push_of_mem (ht : t ∈ s.tokens) (hdot : t.keyword ≠ .endOfStatement) (d : Division) :
    push s d = { d with segments := statement s :: d.segments } := by
  have honly : s.isOnlyTerminators = false := by
    rw [← Bool.not_eq_true, Slice.isOnlyTerminators_iff]
    exact fun h => hdot (h t ht)
  rw [push, honly]
  rfl

/-- A clause whose body ends the slice is a segment of its own, with what stands in front of it. -/
theorem divideFrom_clause {pre : List Token} (strict : Bool) (hlead : lead.keyword.isClauseLead = true)
    (hls : IsInline ls) (hb : IsClauseBody inner bs) (hend : rest = [] ∨ IsSentence bs)
    (hs : s.tokens = pre ++ (lead :: (ls ++ bs) ++ rest)) :
    divideFrom strict s pre.length 0 false (lead :: (ls ++ bs) ++ rest) =
      let later := divideFrom strict ⟨s.start + (pre.length + (lead :: (ls ++ bs)).length), rest⟩
        0 0 false rest
      { later with segments := statement ⟨s.start, pre ++ lead :: (ls ++ bs)⟩ :: later.segments } := by
  have hpos : 0 < pre.length + (lead :: ls).length := by
    rw [List.length_cons]
    omega
  have hlen : pre.length + (lead :: ls).length + bs.length = (pre ++ lead :: (ls ++ bs)).length := by
    simp only [List.length_append, List.length_cons]
    omega
  have hcut : s.tokens = (pre ++ lead :: (ls ++ bs)) ++ rest := by
    rw [hs, List.append_assoc]
  -- The lead keeps the part from being a dot alone, which would be dropped.
  have hmem : lead ∈ (⟨s.start, pre ++ lead :: (ls ++ bs)⟩ : Slice).tokens :=
    List.mem_append_right pre (List.mem_cons_self ..)
  obtain ⟨-, -, -, hdot, -⟩ := Keyword.isClauseLead_spec hlead
  calc
    divideFrom strict s pre.length 0 false (lead :: (ls ++ bs) ++ rest)
      = divideFrom strict s (pre.length + (lead :: ls).length) 0 false (bs ++ rest) := by
        rw [List.cons_append, List.append_assoc, divideFrom_lead hlead hls]
    _ = push (s.take (pre.length + (lead :: ls).length + bs.length))
          (divideFrom strict (s.drop (pre.length + (lead :: ls).length + bs.length)) 0 0 false
            rest) :=
        divideFrom_body hb hend hpos
    _ = push ⟨s.start, pre ++ lead :: (ls ++ bs)⟩
          (divideFrom strict ⟨s.start + (pre.length + (lead :: (ls ++ bs)).length), rest⟩ 0 0 false
            rest) := by
        rw [Slice.take_eq _ rest hcut hlen, Slice.drop_eq _ rest hcut hlen, hlen,
          List.length_append]
    _ = _ := push_of_mem hmem hdot _

end bodies

section chains

variable {i : Nat} {pre us : List Token} {slices : List Slice} {tss : List (List Token)}

/-- Cut into clauses, a slice with the tokens `us` behind others, the first of which is the word `k`,
and further slices, which a conditional takes up, are the clauses `tss`. -/
structure AreCutInto (k : Keyword) (i : Nat) (pre us : List Token) (slices : List Slice)
    (tss : List (List Token)) : Prop where
  head : ∃ t vs, us = t :: vs ∧ t.keyword = k
  clauses : Stmt.clausesFrom ⟨i, pre ++ us⟩ pre.length (Stmt.blockEnds pre.length us) ++
    slices.flatMap Stmt.clauses = slicesFrom (i + pre.length) tss
  taken : Sentence.clauses slices = slices
  last : k = .otherwise → slices = []

/-- The last clause in a slice reaches to its end. -/
theorem clausesFrom_clause (hk : k.isClauseLead = true) (h : IsClauseText k ts) (i : Nat)
    (pre : List Token) :
    Stmt.clausesFrom ⟨i, pre ++ ts⟩ pre.length (Stmt.blockEnds pre.length ts) =
      [⟨i + pre.length, ts⟩] := by
  cases h with
  | @mk lead ls inner bs hlead hls hb =>
    have hinline := isInline_lead hk hlead hls
    cases hb with
    | braced hb =>
      exact Stmt.clausesFrom_last hinline.nested.shows hinline.not_mem_depthZero hb rfl
    | sentence hb =>
      cases hb with
      | @mk ts dot hts hflat hdots hdot =>
        obtain ⟨ks, hshows, hks⟩ := (hinline.append (.of_isFlat hflat hdots)).exists_shows_dot hdot
        rw [List.append_assoc] at hshows
        exact Stmt.clausesFrom_shows hshows hks rfl

theorem AreCutInto.one (hk : k.isClauseLead = true) (h : IsClauseText k ts) (i : Nat)
    (pre : List Token) : AreCutInto k i pre ts [] [ts] where
  head := h.exists_cons
  clauses := by
    rw [clausesFrom_clause hk h, List.flatMap_nil, List.append_nil]
    rfl
  taken := rfl
  last := fun _ => rfl

/-- A clause that ends its slice stands in front of the slices of the next clauses. -/
theorem AreCutInto.cons {next : Keyword} (hk : k.isClauseLead = true) (hne : k ≠ .otherwise)
    (hnext : next = .otherwiseIf ∨ next = .otherwise) (hts : IsClauseText k ts)
    (h : AreCutInto next (i + (pre.length + ts.length)) [] us slices tss) :
    AreCutInto k i pre ts (⟨i + (pre.length + ts.length), us⟩ :: slices) (ts :: tss) where
  head := hts.exists_cons
  clauses := by
    have hrest := h.clauses
    rw [List.nil_append, List.length_nil, Nat.add_zero] at hrest
    rw [clausesFrom_clause hk hts, List.flatMap_cons, Stmt.clauses_eq, hrest, slicesFrom,
      Nat.add_assoc]
    rfl
  taken := by
    obtain ⟨t, vs, rfl, ht⟩ := h.head
    rw [Sentence.clauses_cons, h.taken]
    rcases hnext with rfl | rfl
    · simp [Slice.startsWith, ht]
    · simp [Slice.startsWith, ht, h.last rfl]
  last := fun hk => absurd hk hne

/-- A clause whose body is a block in brackets stands in front of the next clauses in its slice. -/
theorem AreCutInto.append {next : Keyword} (hne : k ≠ .otherwise)
    (hnext : next = .otherwiseIf ∨ next = .otherwise) (hts : IsClauseText k (ls ++ bs))
    (hls : IsInline ls) (hb : IsBraced inner bs)
    (h : AreCutInto next i (pre ++ (ls ++ bs)) us slices tss) :
    AreCutInto k i pre ((ls ++ bs) ++ us) slices ((ls ++ bs) :: tss) where
  head := by
    obtain ⟨lead, vs, hvs, hlead⟩ := hts.exists_cons
    exact ⟨lead, vs ++ us, by rw [hvs, List.cons_append], hlead⟩
  clauses := by
    obtain ⟨t, vs, rfl, ht⟩ := h.head
    have hrest := h.clauses
    have hmore := Stmt.clausesFrom_more (s := ⟨i, pre ++ ((ls ++ bs) ++ t :: vs)⟩)
      hls.nested.shows hls.not_mem_depthZero hb (ht ▸ hnext) rfl
    rw [← List.append_assoc ls] at hmore
    rw [List.append_assoc] at hrest
    rw [hmore, List.cons_append, hrest, List.length_append, ← Nat.add_assoc]
    rfl
  taken := h.taken
  last := fun hk => absurd hk hne

/-- Clauses behind the tokens `pre` of a slice are divided so that the clauses are found again, however
their bodies are written. -/
theorem exists_divideFrom_chain (strict : Bool) (h : IsChainText k tss) (hk : k.isClauseLead = true)
    (hs : s.tokens = pre ++ tss.flatten) :
    ∃ us slices, AreCutInto k s.start pre us slices tss ∧
      divideFrom strict s pre.length 0 false tss.flatten =
        ⟨((⟨s.start, pre ++ us⟩ : Slice) :: slices).map statement, none⟩ := by
  induction h generalizing s pre with
  | @last k ts h =>
    refine ⟨ts, [], .one hk h s.start pre, ?_⟩
    rw [List.flatten_singleton] at hs ⊢
    cases h with
    | @mk lead ls inner bs hlead hls hb =>
      rw [← hlead] at hk
      have hs' : s.tokens = pre ++ (lead :: (ls ++ bs) ++ []) := by
        rw [hs, List.append_nil]
      have hclause := divideFrom_clause strict hk hls hb (.inl rfl) hs'
      rwa [List.append_nil] at hclause
  | @cons k next ts tss h hne hnext hrest ih =>
    have hlater : next.isClauseLead = true := by
      rcases hnext with rfl | rfl <;> rfl
    obtain ⟨t, vs, hvs, ht⟩ := hrest.exists_cons
    rw [List.flatten_cons] at hs ⊢
    cases h with
    | @mk lead ls inner bs hlead hls hb =>
      have hlead' : lead.keyword.isClauseLead = true := hlead ▸ hk
      cases hb with
      | braced hb =>
        -- The next clause goes on in the same slice.
        have hgoesOn : continuesStatement t.keyword = true := by
          rw [ht]
          rcases hnext with rfl | rfl <;> rfl
        have hpos : 0 < pre.length + (lead :: ls).length := by
          rw [List.length_cons]
          omega
        have hlen : pre.length + (lead :: ls).length + bs.length =
            (pre ++ (lead :: ls ++ bs)).length := by
          simp only [List.length_append]
          omega
        have hs' : s.tokens = (pre ++ (lead :: ls ++ bs)) ++ tss.flatten := by
          rw [hs, List.append_assoc]
          rfl
        obtain ⟨us, slices, hcut, hdivide⟩ := ih hlater hs'
        refine ⟨(lead :: ls ++ bs) ++ us, slices, ?_, ?_⟩
        · exact hcut.append hne hnext (.mk hlead hls (.braced hb)) (isInline_lead hk hlead hls) hb
        · calc
            divideFrom strict s pre.length 0 false (lead :: (ls ++ bs) ++ tss.flatten)
              = divideFrom strict s (pre.length + (lead :: ls).length) 0 false
                  (bs ++ tss.flatten) := by
                rw [List.cons_append, List.append_assoc, divideFrom_lead hlead' hls]
            _ = divideFrom strict s (pre ++ (lead :: ls ++ bs)).length 0 false tss.flatten := by
                rw [← hlen, hvs, divideFrom_braced_continues hb hpos hgoesOn]
            _ = ⟨((⟨s.start, pre ++ (lead :: ls ++ bs ++ us)⟩ : Slice) :: slices).map statement,
                  none⟩ := by
                rw [hdivide, List.append_assoc]
      | sentence hb =>
        -- The next clause begins a slice.
        have hs' : (⟨s.start + (pre.length + (lead :: (ls ++ inner)).length), tss.flatten⟩ :
            Slice).tokens = [] ++ tss.flatten := rfl
        obtain ⟨us, slices, hcut, hdivide⟩ := ih hlater hs'
        rw [List.length_nil] at hdivide
        refine ⟨lead :: (ls ++ inner), _, .cons hk hne hnext (.mk hlead hls (.sentence hb)) hcut, ?_⟩
        rw [divideFrom_clause strict hlead' hls (.sentence hb) (.inr hb) hs, hdivide]
        rfl

end chains

end Segment

namespace Sentence

/-- A conditional is one sentence, and its slices are cut into its clauses. -/
theorem ofBlock_chain {tss : List (List Token)} (strict : Bool) (h : IsChainText .ifWord tss) :
    ∃ slices, ofBlock strict (.ofTokens tss.flatten) = [chain slices] ∧
      slices.flatMap Stmt.clauses = Segment.slicesFrom 0 tss := by
  have hs : (Slice.ofTokens tss.flatten).tokens = [] ++ tss.flatten := rfl
  obtain ⟨us, slices, hcut, hdivide⟩ := Segment.exists_divideFrom_chain strict h rfl hs
  obtain ⟨t, vs, rfl, ht⟩ := hcut.head
  have hclauses : ((⟨0, t :: vs⟩ : Slice) :: slices).flatMap Stmt.clauses =
      Segment.slicesFrom 0 tss := by
    rw [List.flatMap_cons, Stmt.clauses_eq_clausesFrom]
    exact hcut.clauses
  have hstart : (⟨0, t :: vs⟩ : Slice).startsWith .ifWord = true := by
    simp [Slice.startsWith, ht]
  have hblock : Segment.divide strict (.ofTokens tss.flatten) =
      ⟨((⟨0, t :: vs⟩ : Slice) :: slices).map Segment.statement, none⟩ := by
    rw [Segment.divide_eq]
    exact hdivide
  refine ⟨⟨0, t :: vs⟩ :: slices, ?_, hclauses⟩
  rw [ofBlock, hblock, ofSegments_statements, List.nil_append, List.length_cons,
    ofSlices, if_pos hstart, hcut.taken, List.drop_length]
  cases slices <;> rfl

end Sentence

end Prose
