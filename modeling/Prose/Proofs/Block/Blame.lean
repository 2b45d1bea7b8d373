import Prose.Proofs.Block.Units
import Prose.Proofs.Session.Raised
import Prose.Proofs.Stmt.Blame

namespace Prose

open Inquiry

namespace Segment

variable {strict inDo : Bool} {s r : Slice} {p : Problem} {size depth : Nat} {ts : List Token}

/-- The problem of a broken segment concerns it. -/
theorem concerns_of_broken_mem_divideFrom (hs : s.tokens.drop size = ts)
    (hopen : 0 < depth → 0 < s.length)
    (h : broken r p ∈ (divideFrom strict s size depth inDo ts).segments) : p.Concerns r := by
  induction ts using drop_induction generalizing s size depth inDo with
  | nil =>
    rw [divideFrom] at h
    rw [rest_eq] at h
    split at h
    · cases List.mem_singleton.mp h
      exact (Slice.cites_self (hopen ‹_›)).concerns rfl
    · split at h
      · cases h
      · rename_i hdots
        split at h
        · cases List.mem_singleton.mp h
          refine (Slice.cites_of_isEmpty fun hempty => hdots ?_).concerns rfl
          rw [Slice.isOnlyTerminators, List.isEmpty_iff.mp hempty]
          rfl
        · cases List.mem_singleton.mp h
  | cons t ts ih =>
    have hlength : size < s.length := by
      refine Nat.lt_of_not_le fun hle => ?_
      rw [List.drop_eq_nil_of_le hle] at hs
      cases hs
    have hafter : s.tokens.drop (size + 1) = ts := by
      rw [← List.drop_drop, hs]
      rfl
    have hlater (h : broken r p ∈
        (divideFrom strict (s.drop (size + 1)) 0 0 false ts).segments) : p.Concerns r := by
      have hstart : (s.drop (size + 1)).tokens.drop 0 = ts := hafter
      refine ih 0 hstart ?_ h
      intro hpos
      exact absurd hpos (Nat.lt_irrefl 0)
    rw [divideFrom_cons] at h
    split at h
    · rename_i extra _ _ _
      refine ih extra ?_ (fun _ => Nat.zero_lt_of_lt hlength) h
      rw [← List.drop_drop, hafter]
    · unfold push at h
      split at h
      · exact hlater h
      · rcases List.mem_cons.mp h with h | h
        · cases h
        · exact hlater h
    -- The closer without an opener is the last token of its segment.
    · rcases List.mem_cons.mp h with h | h
      · cases h
        refine (Slice.cites_of_mem ?_).concerns rfl
        rw [Slice.tokens_take, List.take_add_one]
        apply List.mem_append_right
        rw [← List.head?_drop, hs]
        exact List.mem_singleton_self t
      · exact hlater h

theorem concerns_of_broken_mem_divide (h : broken r p ∈ (divide strict s).segments) :
    p.Concerns r := by
  rw [divide_eq] at h
  exact concerns_of_broken_mem_divideFrom (List.drop_zero ..)
    (fun hpos => absurd hpos (Nat.lt_irrefl 0)) h

/-- No segment of a block is empty. -/
theorem length_pos_of_mem_divide {segment : Segment} (h : segment ∈ (divide strict s).segments) :
    0 < segment.slice.length := by
  cases segment with
  | statement r =>
    obtain ⟨u, us, hr, -⟩ := exists_of_statement_mem_divide h
    rw [slice, Slice.length, hr]
    exact Nat.succ_pos _
  | broken r p => exact (concerns_of_broken_mem_divide h).shown.length_pos

end Segment

namespace Sentence

structure IsFilled (x : Sentence) : Prop where
  ne_nil : x.slices ≠ []
  length_pos : ∀ part ∈ x.slices, 0 < part.length
  concerns : ∀ s p, x = .broken s p → p.Concerns s

/-- A broken segment among the units is one among the segments. -/
theorem Units.mem_of_broken_mem {segments : List Segment} {units : List Sentence} {s : Slice}
    {p : Problem} (h : Units segments units) (hmem : .broken s p ∈ units) :
    .broken s p ∈ segments := by
  induction h with
  | nil => cases hmem
  | chain _ htaken _ ih =>
    rcases List.mem_cons.mp hmem with heq | hlater
    · cases heq
    · exact List.mem_cons_of_mem _ (htaken.subset (ih hlater))
  | orphan _ _ ih | plain _ _ _ ih =>
    rcases List.mem_cons.mp hmem with heq | hlater
    · cases heq
    · exact List.mem_cons_of_mem _ (ih hlater)
  | broken _ ih =>
    rcases List.mem_cons.mp hmem with heq | hlater
    · cases heq
      exact List.mem_cons_self ..
    · exact List.mem_cons_of_mem _ (ih hlater)

theorem isFilled_of_mem_ofBlock {strict : Bool} {s : Slice} {x : Sentence}
    (hx : x ∈ ofBlock strict s) : x.IsFilled where
  ne_nil := by
    rcases (units_ofBlock strict s).exists_of_mem hx with ⟨r, p, rfl⟩ | ⟨r, hr, -⟩
    · exact List.cons_ne_nil r []
    · exact List.ne_nil_of_mem (List.mem_of_head? hr)
  length_pos := by
    intro part hpart
    have hmem : part ∈ (ofBlock strict s).flatMap slices := List.mem_flatMap.mpr ⟨x, hx, hpart⟩
    rw [ofBlock, flatMap_ofSegments, List.nil_append] at hmem
    obtain ⟨segment, hsegment, rfl⟩ := List.mem_map.mp hmem
    exact Segment.length_pos_of_mem_divide hsegment
  concerns := by
    rintro r p rfl
    exact Segment.concerns_of_broken_mem_divide ((units_ofBlock strict s).mem_of_broken_mem hx)

end Sentence

namespace Parse

open Session Slice

variable {g : Grammar} {block : Slice → StateM Session (List Stmt)} {slices : List Slice}
  {s : Slice} {x : Sentence} {α : Type}

def BlocksPoint (slices : List Slice) (block : Slice → StateM Session (List Stmt)) : Prop :=
  ∀ s ∈ slices, ∀ inner : Slice, inner.IsStrictPartOf s → ∀ σ : Session,
    σ.Reports (fun p => inner.Cites p.tokens) ((block inner).run σ).2

theorem BlocksPoint.of_mem (h : BlocksPoint slices block) (hs : s ∈ slices) :
    BlocksPoint [s] block := by
  intro r hr
  rw [List.mem_singleton.mp hr]
  exact h s hs

section sentence

variable (hblock : BlocksPoint slices block)
include hblock

theorem raises_reply {q : Stmt.Question} (hcited : ∃ s ∈ slices, q.IsCitedIn s)
    (hwithin : ∃ s ∈ slices, q.IsWithin s) :
    Raises (fun p => CitedBy slices p.tokens) (reply g block q) := by
  obtain ⟨s, hs, hq⟩ := hwithin
  cases q with
  | reading part =>
    exact (raises_readWithin part.length part).mono fun p hp => ⟨s, hs, hp.of_isPartOf hq⟩
  | block origin whole inner =>
    refine raises_nested (fun _ => hcited) (raises_lift fun σ => ?_)
    exact (hblock s hs inner hq σ).mono fun p hp => ⟨s, hs, hp.of_isPartOf hq.1⟩
  | unusedValue e shown =>
    refine .bind raises_get fun σ => ?_
    split
    · exact raises_modify fun _ => rfl
    · exact raises_pure _

theorem raises_query {x : Stmt.Query α} (hx : Stmt.PointsIntoOne slices x)
    (hasks : x.Asks fun q => ∃ s ∈ slices, q.IsWithin s) :
    Raises (fun p => CitedBy slices p.tokens) (x.run (reply g block)) :=
  raises_run (fun _ hq => raises_reply hblock hq.1 hq.2)
    ((hx.of_asks hasks).mono (fun _ hq => hq) fun _ ⟨s, hs, hp⟩ => ⟨s, hs, hp.shown⟩)

end sentence

section statement

variable (hblock : BlocksPoint [s] block)
include hblock

theorem raises_firstStatement (hs : 0 < s.length) (rules : List Stmt.Rule) :
    Raises (fun p => CitedBy [s] p.tokens) (firstStatement (reply g block) s rules) := by
  induction rules with
  | nil => exact raises_pure none
  | cons rule rules ih =>
    have hmem : s ∈ [s] := List.mem_singleton_self s
    have hform := Stmt.pointsIntoOne hmem (Stmt.pointsInto_form s hs rule.form)
    have hasks := (Stmt.asks_form s rule.form).mono fun q hq =>
      (⟨s, hmem, hq⟩ : ∃ r ∈ [s], q.IsWithin r)
    refine .bind (raises_query hblock hform hasks) fun r => ?_
    cases r with
    | none => exact ih
    | some st => exact .bind (raises_modify fun _ => rfl) fun _ => raises_pure _

theorem raises_statementWith :
    Raises (fun p => CitedBy [s] p.tokens) (statementWith g (reply g block) s) := by
  unfold statementWith
  split
  · exact raises_pure none
  · have hcited : s.Cites s.tokens := cites_of_isEmpty ‹_›
    refine raises_nested (fun _ => ⟨s, List.mem_singleton_self s, hcited⟩) ?_
    exact raises_firstStatement hblock hcited.length_pos _

end statement

/-- What is raised while a unit is read points into one of its slices. -/
theorem raises_sentence (hx : x.IsFilled) (hblock : BlocksPoint x.slices block) :
    Raises (fun p => CitedBy x.slices p.tokens) (sentence g (reply g block) x) := by
  cases x with
  | chain slices =>
    exact raises_query hblock (Stmt.pointsIntoOne_readConditional hx.ne_nil hx.length_pos)
      (Stmt.asks_readConditional slices)
  | orphan s =>
    have hs := List.mem_singleton_self s
    exact raises_throw ⟨s, hs, cites_self (hx.length_pos s hs)⟩
  | plain s =>
    have hs := List.mem_singleton_self s
    refine .bind (raises_statementWith hblock) fun r => ?_
    split
    · exact raises_pure _
    · exact raises_throw ⟨s, hs, cites_self (hx.length_pos s hs)⟩
  | broken s p => exact raises_throw ⟨s, List.mem_singleton_self s, (hx.concerns s p rfl).shown⟩

/-- The problems of some sentences of a slice point into it. -/
theorem reports_sentences {xs : List Sentence} (hfilled : ∀ x ∈ xs, x.IsFilled)
    (hparts : ∀ x ∈ xs, ∀ part ∈ x.slices, part.IsPartOf s) (hblock : BlocksPoint [s] block)
    (σ : Session) : σ.Reports (fun p => s.Cites p.tokens)
      ((sentences g (reply g block) xs).run σ).2 := by
  induction xs generalizing σ with
  | nil => exact reports_of_errors_eq rfl
  | cons x xs ih =>
    have hrest := ih (fun y hy => hfilled y (List.mem_cons_of_mem x hy))
      fun y hy => hparts y (List.mem_cons_of_mem x hy)
    have hx := hparts x (List.mem_cons_self ..)
    have hblocks : BlocksPoint x.slices block := fun part hpart inner hinner =>
      hblock s (List.mem_singleton_self s) inner (hinner.trans_isPartOf (hx part hpart))
    have hfirst := (raises_sentence (g := g) (hfilled x (List.mem_cons_self ..)) hblocks).mono
      (fun p ⟨part, hpart, hp⟩ => Cites.of_isPartOf hp (hx part hpart)) σ
    rw [sentences_cons_run]
    generalize (sentence g (reply g block) x).run.run σ = first at hfirst
    obtain ⟨p | st, τ⟩ := first
    · exact (hfirst.1.trans (reports_report τ (hfirst.2 p rfl))).trans (hrest _)
    · exact hfirst.1.trans (hrest τ)

/-- The problems that a block reports point into it. -/
theorem reports_blockWithin (n : Nat) (s : Slice) (σ : Session) :
    σ.Reports (fun p => s.Cites p.tokens) ((blockWithin g n s).run σ).2 := by
  induction n generalizing s σ with
  | zero => exact reports_of_errors_eq rfl
  | succ n ih =>
    have hrun : (blockWithin g (n + 1) s).run σ =
        (sentences g (reply g (blockWithin g n))
          (Sentence.ofBlock σ.options.requireTerminators s)).run ((divide s).run σ).2 := by
      rw [← run_divide]
      rfl
    rw [hrun, divide_run]
    have hopened := reports_of_errors_eq (E := fun p => s.Cites p.tokens)
      (errors_opened σ (Segment.divide σ.options.requireTerminators s))
    refine hopened.trans ?_
    refine reports_sentences (fun x hx => Sentence.isFilled_of_mem_ofBlock hx)
      (fun x hx part hpart => Sentence.isPartOf_of_mem_ofBlock hx hpart) ?_ _
    exact fun _ _ inner _ => ih inner

theorem blocksPoint_block (g : Grammar) (slices : List Slice) :
    BlocksPoint slices (Parse.block g) :=
  fun _ _ inner _ σ => reports_blockWithin inner.length inner σ

/-- Whatever comes of a unit of a block, its problems point into it. -/
theorem Yields.cites {options : Options} {depth : Nat} {o : Outcome}
    (h : Yields g options depth x o) (hx : x.IsFilled) :
    ∀ p ∈ o.problems, CitedBy x.slices p.tokens := by
  obtain ⟨σ, τ, -, -, hrun, herrors⟩ := h.read
  obtain ⟨hreports, hfails⟩ := raises_sentence (g := g) hx (blocksPoint_block g x.slices) σ
  rw [hrun] at hreports hfails
  intro p hp
  rcases List.mem_append.mp hp with hp | hp
  · exact hreports.forall_of_eq herrors p hp
  · obtain ⟨inner, result⟩ := o
    cases result with
    | ok st => cases hp
    | error q =>
      cases List.mem_singleton.mp hp
      exact hfails _ rfl

end Parse

end Prose
