import Mathlib.Algebra.BigOperators.Intervals
import Mathlib.Data.Finset.Card
import Prose.Proofs.Session.Calls

namespace Prose

def TraceRecord.completed? : TraceRecord → Option (Nat × Nat)
  | .reading key .. => some key
  | _ => none

namespace Session

def completed (σ : Session) : List (Nat × Nat) :=
  σ.trace.toList.filterMap TraceRecord.completed?

/-- Between the two states readings are completed, each one of a slice with the property that is not
remembered in the first state and is remembered in the second, and none twice. What the first state
remembers the second one does, too. -/
structure Completes (P : Slice → Prop) (σ τ : Session) : Prop where
  traced : ∃ slices : List Slice, τ.completed = σ.completed ++ slices.map Memo.key ∧
    (slices.map Memo.key).Nodup ∧
      ∀ s ∈ slices, P s ∧ σ.memo.find? s = none ∧ (τ.memo.find? s).isSome = true
  kept : ∀ s, (σ.memo.find? s).isSome = true → (τ.memo.find? s).isSome = true

variable {P Q : Slice → Prop} {σ τ υ : Session} {s q : Slice}

theorem completed_record (σ : Session) (r : TraceRecord) :
    (σ.record r).completed = σ.completed ++ r.completed?.toList := by
  rw [completed, record, Array.toList_push, List.filterMap_append]
  cases h : r.completed? <;> simp [h, completed]

theorem find?_eq_of_key (m : Memo) (h : Memo.key s = Memo.key q) : m.find? s = m.find? q := by
  rw [Memo.find?, Memo.find?, h]

theorem isSome_find?_remember (σ : Session) (s : Slice) (r : Reading) :
    ((σ.remember s r).memo.find? q).isSome = true ↔
      Memo.key s = Memo.key q ∨ (σ.memo.find? q).isSome = true := by
  simp only [remember, Memo.find?_insert]
  split
  · rename_i hkey
    exact iff_of_true rfl (.inl hkey)
  · rename_i hkey
    exact (or_iff_right hkey).symm

theorem isSome_find?_remember_of_isSome (s : Slice) (r : Reading)
    (h : (σ.memo.find? q).isSome = true) : ((σ.remember s r).memo.find? q).isSome = true :=
  (isSome_find?_remember σ s r).mpr (.inr h)

theorem Completes.refl (σ : Session) : Completes P σ σ :=
  ⟨⟨[], by simp⟩, fun _ h => h⟩

/-- What is completed later has not been remembered before, and so it has not been completed before. -/
theorem Completes.trans (h : Completes P σ τ) (h' : Completes P τ υ) : Completes P σ υ := by
  obtain ⟨⟨slices, htraced, hnodup, hslices⟩, hkept⟩ := h
  obtain ⟨⟨slices', htraced', hnodup', hslices'⟩, hkept'⟩ := h'
  refine ⟨⟨slices ++ slices', ?_, ?_, ?_⟩, fun s hs => hkept' s (hkept s hs)⟩
  · rw [htraced', htraced, List.map_append, List.append_assoc]
  · rw [List.map_append, List.nodup_append]
    refine ⟨hnodup, hnodup', ?_⟩
    intro key hkey key' hkey' heq
    obtain ⟨s, hs, rfl⟩ := List.mem_map.mp hkey
    obtain ⟨s', hs', rfl⟩ := List.mem_map.mp hkey'
    have hsome := (hslices s hs).2.2
    rw [find?_eq_of_key τ.memo heq, (hslices' s' hs').2.1] at hsome
    cases hsome
  · intro s hs
    rcases List.mem_append.mp hs with hs | hs
    · obtain ⟨hp, hnone, hsome⟩ := hslices s hs
      exact ⟨hp, hnone, hkept' s hsome⟩
    · obtain ⟨hp, hnone, hsome⟩ := hslices' s hs
      refine ⟨hp, ?_, hsome⟩
      by_contra hbefore
      have hafter := hkept s (Option.isSome_iff_ne_none.mpr hbefore)
      rw [hnone] at hafter
      cases hafter

theorem Completes.mono (h : Completes P σ τ) (hPQ : ∀ s, P s → Q s) : Completes Q σ τ := by
  obtain ⟨⟨slices, htraced, hnodup, hslices⟩, hkept⟩ := h
  exact ⟨⟨slices, htraced, hnodup, fun s hs => (hslices s hs).imp_left (hPQ s)⟩, hkept⟩

/-- Whatever leaves the trace and what is remembered completes nothing. -/
theorem completes_of_eq (hcompleted : τ.completed = σ.completed) (hmemo : τ.memo = σ.memo) :
    Completes P σ τ :=
  ⟨⟨[], by simp [hcompleted]⟩, fun s hs => by rwa [hmemo]⟩

theorem completes_record {r : TraceRecord} (hr : r.completed? = none) (σ : Session) :
    Completes P σ (σ.record r) := by
  refine completes_of_eq ?_ rfl
  rw [completed_record, hr]
  exact List.append_nil _

theorem isLasting_completes (P : Slice → Prop) : IsLasting (Completes P) where
  refl := .refl
  trans := .trans
  record σ _ _ := completes_record rfl σ
  log σ _ _ := (completes_record rfl σ).trans (completes_of_eq rfl rfl)
  report σ _ := (completes_record rfl σ).trans (completes_of_eq rfl rfl)
  atDepth _ h := ⟨h.traced, h.kept⟩
  leave h := ⟨h.traced, h.kept⟩

/-- A reading may be remembered again. -/
theorem Completes.remember (h : Completes P σ τ) (s : Slice) (r : Reading) :
    Completes P σ (τ.remember s r) := by
  obtain ⟨⟨slices, htraced, hnodup, hslices⟩, hkept⟩ := h
  refine ⟨⟨slices, htraced, hnodup, fun q hq => ?_⟩, fun q hq => ?_⟩
  · obtain ⟨hp, hnone, hsome⟩ := hslices q hq
    exact ⟨hp, hnone, isSome_find?_remember_of_isSome s r hsome⟩
  · exact isSome_find?_remember_of_isSome s r (hkept q hq)

/-- A slice is completed and remembered behind shorter ones. -/
theorem Completes.record_remember (h : Completes P σ τ) (hnone : σ.memo.find? s = none)
    (hlt : ∀ q, P q → q.length < s.length) (hPQ : ∀ q, P q → Q q) (hs : Q s) (form : Expr.Form)
    (e : Expr) (r : Reading) :
    Completes Q σ ((τ.record (.reading (Memo.key s) form e)).remember s r) := by
  obtain ⟨⟨slices, htraced, hnodup, hslices⟩, hkept⟩ := h
  refine ⟨⟨slices ++ [s], ?_, ?_, ?_⟩, fun q hq => isSome_find?_remember_of_isSome s r (hkept q hq)⟩
  · have hcompleted := completed_record τ (.reading (Memo.key s) form e)
    rw [htraced, List.append_assoc] at hcompleted
    rw [List.map_append]
    exact hcompleted
  · rw [List.map_append, List.nodup_append]
    refine ⟨hnodup, List.nodup_singleton _, ?_⟩
    intro key hkey key' hkey' heq
    obtain ⟨q, hq, rfl⟩ := List.mem_map.mp hkey
    rw [List.mem_singleton.mp hkey'] at heq
    have hlength : q.length = s.length := congrArg Prod.snd heq
    exact absurd hlength (Nat.ne_of_lt (hlt q (hslices q hq).1))
  · intro q hq
    rcases List.mem_append.mp hq with hq | hq
    · obtain ⟨hp, hq, hsome⟩ := hslices q hq
      exact ⟨hPQ q hp, hq, isSome_find?_remember_of_isSome s r hsome⟩
    · rw [List.mem_singleton.mp hq]
      exact ⟨hs, hnone, (isSome_find?_remember _ s r).mpr (.inl rfl)⟩

end Session

namespace Parse

open Inquiry Session

variable {g : Grammar} {P : Slice → Prop} {s : Slice}

/-- The rules that are tried complete what their questions do. The slice itself is recorded last, if a
rule accepts it. -/
theorem completes_firstReading (answer : Slice → Parse Reading)
    (h : ∀ q : Slice, q.IsStrictPartOf s → ∀ σ, Completes P σ ((answer q).run.run σ).2)
    (rules : List Expr.Rule) (σ : Session) :
    Completes P σ ((firstReading answer s rules).run.run σ).2 ∨
      ∃ r τ form e, Completes P σ τ ∧ (firstReading answer s rules).run.run σ =
        (.ok r, τ.record (.reading (Memo.key s) form e)) := by
  induction rules generalizing σ with
  | nil => exact .inl (.refl σ)
  | cons rule rules ih =>
    have hform := (run_reaches (K := Completes P) Completes.refl Completes.trans answer h
      (Expr.asks_form rule.form s) σ).1
    rw [firstReading, run_bind]
    generalize ((rule.form.read s).run answer).run.run σ = first at hform
    obtain ⟨p | _ | e, υ⟩ := first
    · exact .inl hform
    · rcases ih υ with hrest | ⟨r, τ, form, e, hrest, hrun⟩
      · exact .inl (hform.trans hrest)
      · exact .inr ⟨r, τ, form, e, hform.trans hrest, hrun⟩
    · exact .inr ⟨_, υ, rule.form, e, hform, rfl⟩

/-- Reading a slice completes parts of it that were not remembered, none of them twice. -/
theorem completes_readWithin {n : Nat} (hn : s.length ≤ n) (σ : Session) :
    Completes (fun q => q.IsPartOf s ∧ 0 < q.length) σ ((readWithin g n s).run.run σ).2 := by
  induction n generalizing s σ with
  | zero => exact .refl σ
  | succ n ih =>
    -- The parts that are asked for are shorter, so that the slice is not completed among them.
    have hrules := completes_firstReading (readWithin g n) (s := s)
      (P := fun q => q.IsStrictPartOf s ∧ 0 < q.length)
      (fun q hq σ' => by
        have hlt : q.length < s.length := hq.2
        refine (ih (by omega) σ').mono fun r hr => ⟨?_, hr.2⟩
        exact hr.1.trans_isStrictPartOf hq)
      g.expressions { σ with depth := σ.depth + 1 }
    have hpart (q : Slice) (hq : q.IsStrictPartOf s ∧ 0 < q.length) :
        q.IsPartOf s ∧ 0 < q.length := hq.imp_left And.left
    have hstep := readStep g n s σ
    generalize (readWithin g (n + 1) s).run.run σ = out at hstep ⊢
    cases hstep with
    | empty | remembered | tooDeep => exact .refl σ
    | failed _ _ _ hfirst =>
      rw [hfirst] at hrules
      rcases hrules with hparts | ⟨r, υ, form, e, -, hrun⟩
      · exact (isLasting_completes _).leave (hparts.mono hpart)
      · cases hrun
    | @completed r τ he hfind _ hfirst =>
      rw [hfirst] at hrules
      rcases hrules with hparts | ⟨r', υ, form, e, hparts, hrun⟩
      · exact ((isLasting_completes _).leave (hparts.mono hpart)).remember s r
      · cases hrun
        have hback : Completes _ σ { υ with depth := υ.depth - 1 } :=
          (isLasting_completes _).leave hparts
        exact hback.record_remember hfind (fun q hq => hq.1.2) hpart
          ⟨.refl s, s.length_pos_of_not_isEmpty he⟩ form e r

end Parse

namespace Session

variable {g : Grammar} {stream : Slice}

/-- Calls complete parts of the stream that were not remembered, none of them twice. -/
theorem completes_after {calls : List Call} (hcalls : ∀ c ∈ calls, c.slice.IsPartOf stream)
    (σ : Session) :
    Completes (fun s => s.IsPartOf stream ∧ 0 < s.length) σ (σ.after g calls) := by
  refine lasts_after (isLasting_completes _) (fun part hpart τ => ?_) hcalls σ
  exact (Parse.completes_readWithin (Nat.le_refl _) τ).mono fun s hs => hs.imp_left (·.trans hpart)

/-- A stream of `n` tokens has at most `n * (n + 1) / 2` parts that are not empty. -/
theorem length_keys_le {slices : List Slice} (hnodup : (slices.map Memo.key).Nodup)
    (hslices : ∀ s ∈ slices, s.IsPartOf stream ∧ 0 < s.length) :
    slices.length ≤ stream.length * (stream.length + 1) / 2 := by
  -- A part is given by its start and its length, which does not reach beyond the end.
  let places := (Finset.range stream.length).sigma fun i => Finset.range (stream.length - i)
  let keys := places.image fun p => (stream.start + p.1, p.2 + 1)
  have hsub : (slices.map Memo.key).toFinset ⊆ keys := by
    intro key hkey
    obtain ⟨s, hs, rfl⟩ := List.mem_map.mp (List.mem_toFinset.mp hkey)
    obtain ⟨⟨i, hi, hprefix⟩, hpos⟩ := hslices s hs
    have hlength := hprefix.length_le
    rw [List.length_drop] at hlength
    change s.length ≤ stream.length - i at hlength
    refine Finset.mem_image.mpr ⟨⟨i, s.length - 1⟩, ?_, ?_⟩
    · simp only [places, Finset.mem_sigma, Finset.mem_range]
      omega
    · rw [Memo.key, hi]
      exact Prod.ext rfl (by simp only; omega)
  calc slices.length = (slices.map Memo.key).toFinset.card := by
        rw [List.toFinset_card_of_nodup hnodup, List.length_map]
    _ ≤ keys.card := Finset.card_le_card hsub
    _ ≤ places.card := Finset.card_image_le
    _ = ∑ i ∈ Finset.range stream.length, (stream.length - i) := by
        simp only [places, Finset.card_sigma, Finset.card_range]
    _ = ∑ i ∈ Finset.range (stream.length + 1), (stream.length - i) := by
        rw [Finset.sum_range_succ, Nat.sub_self, Nat.add_zero]
    _ = ∑ i ∈ Finset.range (stream.length + 1), i :=
        Finset.sum_range_reflect (fun i => i) (stream.length + 1)
    _ = stream.length * (stream.length + 1) / 2 := by
        rw [Finset.sum_range_id, Nat.add_sub_cancel, Nat.mul_comm]

/-- After any calls on parts of a token stream the trace shows each part completed at most once, and so
no more often than a stream of its length has parts. -/
theorem count_completed_after (g : Grammar) (stream : Slice) (o : Options) (n : Nat)
    (calls : List Call) (hcalls : ∀ c ∈ calls, c.slice.IsPartOf stream) :
    (∀ key ∈ ((start o n).after g calls).completed,
        ∃ s : Slice, s.IsPartOf stream ∧ 0 < s.length ∧ key = Memo.key s) ∧
      (∀ s : Slice, ((start o n).after g calls).completed.count (Memo.key s) ≤ 1) ∧
      ((start o n).after g calls).completed.length ≤ stream.length * (stream.length + 1) / 2 := by
  obtain ⟨⟨slices, htraced, hnodup, hslices⟩, -⟩ := completes_after (g := g) hcalls (start o n)
  have hcompleted : ((start o n).after g calls).completed = slices.map Memo.key := htraced
  have hparts (s : Slice) (hs : s ∈ slices) : s.IsPartOf stream ∧ 0 < s.length := (hslices s hs).1
  rw [hcompleted]
  refine ⟨fun key hkey => ?_, fun s => List.nodup_iff_count.mp hnodup _, ?_⟩
  · obtain ⟨s, hs, rfl⟩ := List.mem_map.mp hkey
    exact ⟨s, (hparts s hs).1, (hparts s hs).2, rfl⟩
  · rw [List.length_map]
    exact length_keys_le hnodup hparts

/-- The sum and its names are read by four calls, of which the first one fails. Each of them is
completed once. -/
theorem count_completed_after_nameSum :
    (∀ c ∈ nameSumCalls, c.slice.IsPartOf nameSum) ∧
      ((start {} 0).after .standard nameSumCalls).completed = [(2, 1), (0, 1), (0, 3)] ∧
      (∀ s : Slice, ((start {} 0).after .standard nameSumCalls).completed.count (Memo.key s) ≤ 1) ∧
      ((start {} 0).after .standard nameSumCalls).completed.length ≤
        nameSum.length * (nameSum.length + 1) / 2 := by
  have hcalls : ∀ c ∈ nameSumCalls, c.slice.IsPartOf nameSum := by
    simp only [nameSumCalls, List.forall_mem_cons]
    exact ⟨Slice.isPartOf_take _ _, Slice.isPartOf_drop _ _, .refl _, .refl _, by simp⟩
  obtain ⟨-, hcount, hlength⟩ := count_completed_after .standard nameSum {} 0 nameSumCalls hcalls
  exact ⟨hcalls, by decide +kernel, hcount, hlength⟩

end Session

end Prose
