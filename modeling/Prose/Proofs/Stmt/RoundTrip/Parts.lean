import Prose.Proofs.Expr.RoundTrip
import Prose.Proofs.Stmt.RoundTrip.Frame
import Prose.Proofs.Stmt.Writing

namespace Prose.Stmt

open Grammar Inquiry

variable {stream : Slice} {n room : Nat} {ts : List Token}

/-- The tokens are read as these statements, up to groupings and places, wherever they stand. -/
structure ReadsBackAll (body : List Stmt) (ts : List Token) : Prop where
  nested : WellNested ts
  reads (stream : Slice) (n a : Nat) : (⟨a, ts⟩ : Slice).IsPartOf stream → ts.length ≤ n →
    ∃ body', bareAll body' = bareAll body ∧ ReadsBlock stream n ⟨a, ts⟩ body'

structure ReadsBack (st : Stmt) (ts : List Token) : Prop where
  unit : Segment.IsUnit ts
  nested : WellNested ts
  reads (stream : Slice) (n a : Nat) : (⟨a, ts⟩ : Slice).IsPartOf stream → ts.length ≤ n + 1 →
    ∃ st', st'.bare = st.bare ∧ ReadsSentence stream n ⟨a, ts⟩ st'

def IsBody (body : List Stmt) (ts : List Token) : Prop :=
  ∃ (o : Word .blockStart) (inner : List Token) (c : Word .blockEnd),
    ts = o.val :: (inner ++ [c.val]) ∧ ReadsBackAll body inner

/-- The parts behind the first token of a slice are parts of the stream and not too long to be read.
-/
structure HasRoom (stream : Slice) (n room : Nat) (s : Slice) : Prop where
  part : s.IsPartOf stream
  room : s.length ≤ room + 1
  size : s.length ≤ n + 1

section rooms

variable {s q : Slice}

theorem HasRoom.of_isPartOf (h : HasRoom stream n room s) (hq : q.IsPartOf s) :
    HasRoom stream n room q :=
  ⟨hq.trans h.part, Nat.le_trans hq.length_le h.room, Nat.le_trans hq.length_le h.size⟩

theorem HasRoom.length_le {i : Nat} (h : HasRoom stream n room s) (hi : 0 < i)
    (hq : s.tokens.drop i = ts) : ts.length ≤ room ∧ ts.length ≤ n := by
  have hlen := congrArg List.length hq
  rw [List.length_drop] at hlen
  have hroom := h.room
  have hsize := h.size
  simp only [Slice.length] at hroom hsize
  omega

end rooms

section blocks

variable {s q : Slice} {body : List Stmt} {i : Nat}

/-- The statements of a block are read in a session with room for them. -/
theorem ReadsBackAll.reaches_readBlock (h : ReadsBackAll body ts) (hq : q.tokens = ts)
    (hpart : q.IsPartOf stream) (hroom : ts.length + 1 ≤ room) (hn : ts.length ≤ n) :
    ∃ body', bareAll body' = bareAll body ∧ ∀ (origin : String) (whole : List Token),
      Reaches (Answers stream n room) (readBlock origin whole q) body' := by
  obtain ⟨a, _⟩ := q
  cases hq
  obtain ⟨body', hbare, hreads⟩ := h.reads stream n a hpart hn
  exact ⟨body', hbare, fun origin whole => reaches_question ⟨hroom, hreads⟩⟩

theorem IsBody.around (h : IsBody body ts) : Bracket.brace.Around ts := by
  obtain ⟨o, inner, c, rfl, hinner⟩ := h
  exact ⟨o.val, inner, c.val, rfl, o.property.1, c.property.1, hinner.nested⟩

theorem IsBody.two_le_length (h : IsBody body ts) : 2 ≤ ts.length :=
  h.around.two_le_length

theorem IsBody.shows (h : IsBody body ts) : Shows [.blockStart, .blockEnd] ts :=
  h.around.shows (by simp [Bracket.opener]) (by simp [Bracket.closer])

/-- The statements between the braces are read. -/
theorem IsBody.reaches_enclosed (h : IsBody body ts) (room : Nat) (hq : q.tokens = ts)
    (hpart : q.IsPartOf stream) (hroom : ts.length ≤ room + 1) (hn : ts.length ≤ n + 2) :
    ∃ body' inner, bareAll body' = bareAll body ∧ q.enclosed .blockStart = some inner ∧
      ∀ (origin : String) (whole : List Token),
        Reaches (Answers stream n room) (readBlock origin whole inner) body' := by
  obtain ⟨o, inner, c, rfl, hinner⟩ := h
  have hlen : (o.val :: (inner ++ [c.val])).length = inner.length + 2 := by simp
  have hmid : (⟨q.start + 1, inner⟩ : Slice).IsPartOf stream :=
    Slice.IsPartOf.trans ⟨1, rfl, by rw [hq]; exact List.prefix_append _ _⟩ hpart
  obtain ⟨body', hbare, hreads⟩ := hinner.reaches_readBlock (n := n) rfl hmid
    (show inner.length + 1 ≤ room by omega) (by omega)
  exact ⟨body', _, hbare,
    Slice.enclosed_of_around (b := .brace) o.property.1 c.property.1 hinner.nested hq, hreads⟩

/-- A block end is not taken for a closing `.`. -/
theorem IsBody.withoutTerminator_append (pre : List Token) (h : IsBody body ts)
    (hs : s.tokens = pre ++ ts) : s.withoutTerminator = s := by
  obtain ⟨o, inner, c, rfl, -⟩ := h
  have hlast : s.tokens.getLast? = some c.val := by
    rw [hs, ← List.cons_append, ← List.append_assoc, List.getLast?_concat]
  simp [Slice.withoutTerminator, hlast, c.property.1]

theorem IsBody.withoutTerminator (h : IsBody body ts) (hs : s.tokens = ts) :
    s.withoutTerminator = s :=
  h.withoutTerminator_append [] hs

theorem isEmpty_eq_false_of_tokens {t : Token} (hq : q.tokens = t :: ts) : q.isEmpty = false := by
  rw [Slice.isEmpty, hq]
  rfl

theorem IsBody.isEmpty_eq_false (h : IsBody body ts) (hq : q.tokens = ts) : q.isEmpty = false := by
  obtain ⟨o, inner, c, rfl, -⟩ := h
  exact isEmpty_eq_false_of_tokens hq

/-- The body at the end of a slice is read as the statements in its braces. -/
theorem IsBody.reaches_requiredBody (h : IsBody body ts) (hs : s.tokens.drop i = ts) (hi : 0 < i)
    (hroom : HasRoom stream n room s) :
    ∃ body', bareAll body' = bareAll body ∧ ∀ (origin : String) (whole : List Token),
      Reaches (Answers stream n room) (requiredBody origin (s.drop i) whole) body' := by
  have hlen := hroom.length_le hi hs
  obtain ⟨body', inner, hbare, henclosed, hreads⟩ := h.reaches_enclosed (n := n)
    (q := s.drop i) room hs ((Slice.isPartOf_drop s i).trans hroom.part) (Nat.le_succ_of_le hlen.1)
    (by omega)
  refine ⟨body', hbare, fun origin whole => ?_⟩
  rw [requiredBody, h.withoutTerminator hs, h.isEmpty_eq_false hs, henclosed]
  exact hreads origin whole

/-- A block with a word behind it, or at the end, is read as the statements in its braces. -/
theorem IsBody.reaches_requiredBlock (h : IsBody body ts) (room : Nat) (hq : q.tokens = ts)
    (hpart : q.IsPartOf stream) (hroom : ts.length ≤ room + 1) (hn : ts.length ≤ n + 2) :
    ∃ body', bareAll body' = bareAll body ∧ ∀ (origin : String) (whole : List Token),
      Reaches (Answers stream n room) (requiredBlock origin q whole) body' := by
  obtain ⟨body', inner, hbare, henclosed, hreads⟩ := h.reaches_enclosed room hq hpart hroom hn
  refine ⟨body', hbare, fun origin whole => ?_⟩
  rw [requiredBlock, h.isEmpty_eq_false hq, henclosed]
  exact hreads origin q.tokens

end blocks

section expressions

variable {s : Slice} {e : Expr} {rule : Expr.Rule} {i : Nat}

/-- A required expression is what the cascade reads it as. -/
theorem reaches_requiredOr {part : Slice} (hpart : part.IsPartOf stream)
    (h : standard.outcome part = .ok (some (rule, e))) (hroom : part.length ≤ room)
    (missing invalid : Problem) :
    Reaches (Answers stream n room) (ofExpr (Expr.requiredOr missing invalid part)) e := by
  refine reaches_translate (A := fun q r => part = q ∧ standard.outcome q = .ok r) ?_ ?_
  · rintro q r ⟨rfl, hq⟩
    exact reaches_question ⟨hpart, hroom, hq⟩
  · exact reaches_of_resolve (Expr.asks_requiredOr missing invalid fun _ => rfl)
      (resolve_requiredOr h)

/-- An operand that stands for a part of a statement is read as its expression. -/
theorem reaches_operandOr {part : Slice} (h : Expr.IsOperand e ts) (ht : part.tokens = ts)
    (hpart : part.IsPartOf stream) (hroom : ts.length ≤ room) :
    ∃ e', e'.bare = e.bare ∧ ∀ missing invalid : Problem,
      Reaches (Answers stream n room) (ofExpr (Expr.requiredOr missing invalid part)) e' := by
  obtain ⟨a, _⟩ := part
  cases ht
  obtain ⟨e', hread, hbare⟩ := h.reads a
  exact ⟨e', hbare, reaches_requiredOr hpart hread hroom⟩

/-- An operand with a word behind it is found and read. -/
theorem reaches_until {k : Keyword} {rest : List Token} (h : Expr.IsOperand e ts) (w : Word k)
    (hflat : k.isOpener = false ∧ k.isCloser = false)
    (hs : s.tokens.drop i = ts ++ w.val :: rest) (hi : 0 < i) (hroom : HasRoom stream n room s) :
    s.first k i = some (i + ts.length) ∧ ∃ e', e'.bare = e.bare ∧ ∀ missing invalid : Problem,
      Reaches (Answers stream n room)
        (ofExpr (Expr.requiredOr missing invalid (s.extract i (i + ts.length)))) e' := by
  refine ⟨Expr.first_behind h w hs hflat, ?_⟩
  have hlen := (hroom.length_le hi hs).1
  rw [List.length_append] at hlen
  exact reaches_operandOr h (Slice.extract_tokens_of_drop ts _ hs)
    ((Slice.isPartOf_extract s _ _).trans hroom.part) (by omega)

/-- An operand at the end of a slice is read. -/
theorem reaches_rest (h : Expr.IsOperand e ts) (hs : s.tokens.drop i = ts) (hi : 0 < i)
    (hroom : HasRoom stream n room s) :
    ∃ e', e'.bare = e.bare ∧ ∀ missing invalid : Problem,
      Reaches (Answers stream n room) (ofExpr (Expr.requiredOr missing invalid (s.drop i))) e' :=
  reaches_operandOr h hs ((Slice.isPartOf_drop s i).trans hroom.part) (hroom.length_le hi hs).1

end expressions

section names

variable {s q : Slice} {t : Token} {m : String} {i : Nat}

theorem requiredName_eq (h : t.Names m) (hq : q.tokens = [t]) (origin what : String)
    (whole : List Token) : requiredName origin what q whole = .ok m := by
  rw [requiredName, isEmpty_eq_false_of_tokens hq]
  simp [Slice.name?, hq, h.2]

theorem isFlat_of_names (h : t.Names m) : t.IsFlat :=
  ⟨by rw [h.1]; rfl, by rw [h.1]; rfl⟩

/-- A name with a word behind it is found and read. -/
theorem name_until {k : Keyword} {rest : List Token} (h : t.Names m) (w : Word k)
    (hk : k ≠ .unknown) (hflat : k.isOpener = false ∧ k.isCloser = false)
    (hs : s.tokens.drop i = t :: w.val :: rest) :
    s.first k i = some (i + 1) ∧ ∀ (origin what : String) (whole : List Token),
      requiredName origin what (s.extract i (i + 1)) whole = .ok m := by
  have hshows : Shows [.unknown] [t] := shows_singleton (isFlat_of_names h) (by simp [h.1])
  exact ⟨Slice.first_eq_some hshows (by simpa using hk) (Expr.isFlat_word w hflat) w.property.1 hs,
    requiredName_eq h (Slice.extract_tokens_of_drop [t] _ hs)⟩

end names

section sentences

variable {st : Stmt} {t : Token} {f : Form} {s : Slice}

/-- A statement that begins with the word of a form is read by that form. -/
theorem readsSentence_of_lead (hs : s.tokens = t :: ts) (hk : t.keyword ∈ f.leads)
    (hf : f ≠ .conditional) (h : Reaches (Answers stream n ts.length) (f.read s) (some st)) :
    ReadsSentence stream n s st := by
  have hlen : s.length - 1 = ts.length := by
    rw [Slice.length, hs, List.length_cons, Nat.add_sub_cancel]
  have hif : ¬s.startsWith .ifWord = true := by
    simp only [Slice.startsWith, hs, List.head?_cons, Option.any_some, beq_iff_eq]
    intro hkey
    exact not_mem_leads hk (Ne.symm hf) (by rw [hkey]; decide)
  rw [ReadsSentence, if_neg hif]
  refine ⟨f, fun f' hne hexpr => read_eq_of_unled hexpr fun k hk' => ?_, hlen ▸ h⟩
  simp only [Slice.startsWith, hs, List.head?_cons, Option.any_some, beq_eq_false_iff_ne]
  rintro rfl
  exact not_mem_leads hk hne hk'

/-- A statement that begins with a parenthesis is an expression. -/
theorem readsSentence_of_paren (hs : s.tokens = t :: ts) (hk : t.keyword = .openParen)
    (h : Reaches (Answers stream n ts.length) (Form.expression.read s) (some st)) :
    ReadsSentence stream n s st := by
  have hlen : s.length - 1 = ts.length := by
    rw [Slice.length, hs, List.length_cons, Nat.add_sub_cancel]
  have hif : ¬s.startsWith .ifWord = true := by
    simp [Slice.startsWith, hs, hk]
  have hall : ∀ f ∈ Form.all, .openParen ∉ f.leads := by decide
  rw [ReadsSentence, if_neg hif]
  refine ⟨.expression, fun f' hne _ => read_eq_of_unled hne fun k hk' => ?_, hlen ▸ h⟩
  simp only [Slice.startsWith, hs, List.head?_cons, Option.any_some, beq_eq_false_iff_ne, hk]
  rintro rfl
  exact hall f' (by cases f' <;> decide) hk'

/-- A slice that ends in a `.` without it. -/
theorem withoutTerminator_concat (dot : Word .endOfStatement) (hs : s.tokens = ts ++ [dot.val]) :
    s.withoutTerminator = ⟨s.start, ts⟩ :=
  Slice.withoutTerminator_of_concat ts dot.property.1 hs

/-- A word that begins statements is no bracket, unless it begins blocks, and it neither goes on
with a statement nor ends one. -/
theorem lead_spec {k : Keyword} (hk : k ∈ f.leads) (hf : f ≠ .block) :
    (k.isOpener = false ∧ k.isCloser = false) ∧ Segment.continuesStatement k = false ∧
      k ≠ .endOfStatement ∧ (f ≠ .doLoop → k ≠ .doWord) := by
  have hall : ∀ f ∈ Form.all, f ≠ .block → ∀ k ∈ f.leads,
      (k.isOpener = false ∧ k.isCloser = false) ∧ Segment.continuesStatement k = false ∧
        k ≠ .endOfStatement ∧ (f ≠ .doLoop → k ≠ .doWord) := by
    decide
  exact hall f (by cases f <;> decide) hf k hk

/-- A statement that ends in a body is read back if the form of its first word reads it. -/
theorem readsBack_of_lead {k : Keyword} (hk : k ∈ f.leads)
    (hf : f ≠ .block ∧ f ≠ .conditional ∧ f ≠ .doLoop) (u : Word k) (hc : Segment.Completes ts)
    (hn : WellNested ts)
    (h : ∀ (stream : Slice) (n : Nat) (s : Slice), s.tokens = u.val :: ts →
      HasRoom stream n ts.length s → ∃ st', st'.bare = st.bare ∧
        Reaches (Answers stream n ts.length) (f.read s) (some st')) :
    ReadsBack st (u.val :: ts) := by
  obtain ⟨hflat, hcont, hdot, hdo⟩ := lead_spec hk hf.1
  have hu : u.val.IsFlat := Expr.isFlat_word u hflat
  refine ⟨Segment.isUnit_of_completes hc hu ?_ ?_ ?_, .flat hu hn, fun stream n a hpart hlen => ?_⟩
  · rwa [u.property.1]
  · rwa [u.property.1]
  · rw [u.property.1]
    exact hdo hf.2.2
  · obtain ⟨st', hbare, hreads⟩ := h stream n ⟨a, u.val :: ts⟩ rfl ⟨hpart, Nat.le_refl _, hlen⟩
    exact ⟨st', hbare, readsSentence_of_lead rfl (by rwa [u.property.1]) hf.2.1 hreads⟩

/-- A statement that ends in a `.` is read back if the form of its first word reads what stands
before the `.`. -/
theorem readsBack_of_command {k : Keyword} (st : Stmt) (f : Form) (ts : List Token) (hk : k ∈ f.leads)
    (hf : f ≠ .block ∧ f ≠ .conditional ∧ f ≠ .doLoop) (u : Word k)
    (dot : Word .endOfStatement) (hc : Segment.Completes (ts ++ [dot.val])) (hn : WellNested ts)
    (h : ∀ (stream : Slice) (n room : Nat) (s : Slice), s.withoutTerminator.tokens = u.val :: ts →
      HasRoom stream n room s.withoutTerminator → ∃ st', st'.bare = st.bare ∧
        Reaches (Answers stream n room) (f.read s) (some st')) :
    ReadsBack st (u.val :: (ts ++ [dot.val])) := by
  have hdot : dot.val.IsFlat := Expr.isFlat_word dot (by decide)
  refine readsBack_of_lead hk hf u hc (hn.append (wellNested_singleton hdot))
    fun stream n s hs hroom => ?_
  have htrim : s.withoutTerminator = ⟨s.start, u.val :: ts⟩ := withoutTerminator_concat dot hs
  have hpart : s.withoutTerminator.IsPartOf s := by
    rw [htrim]
    exact ⟨0, rfl, by rw [hs]; exact List.prefix_append (u.val :: ts) [dot.val]⟩
  exact h stream n _ s (by rw [htrim]) (hroom.of_isPartOf hpart)

end sentences

end Prose.Stmt
