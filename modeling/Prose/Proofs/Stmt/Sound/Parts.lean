import Prose.Proofs.Expr.Sound
import Prose.Proofs.Stmt.Derivation
import Prose.Proofs.Stmt.Questions

namespace Prose.Stmt

open Inquiry Slice

def Sound : (q : Question) → q.Reply → Prop
  | .reading s, r => Expr.Sound s r
  | .block _ _ inner, body => DerivesBlock body inner.tokens
  | .unusedValue .., _ => True

variable {s part : Slice} {whole : List Token} {origin name : String} {e : Expr} {st : Stmt}
  {body : List Stmt} {n : String}

section trimmed

theorem derives_of_withoutTerminator (h : st.Derives s.withoutTerminator.tokens) :
    st.Derives s.tokens := by
  rcases eq_or_of_withoutTerminator s with hs | ⟨d, hd, hs⟩
  · rwa [hs] at h
  · rw [hs]
    exact .terminated h hd

/-- A slice begins where it begins without its closing `.` -/
theorem position_of_withoutTerminator {t : Token} {ts : List Token}
    (h : s.withoutTerminator.tokens = t :: ts) : s.position = t.position := by
  rcases eq_or_of_withoutTerminator s with hs | ⟨d, -, hs⟩
  · exact Expr.position_of_tokens (hs ▸ h)
  · rw [h] at hs
    exact Expr.position_of_tokens hs

end trimmed

section parts

theorem reaches_of_ofExpr {α : Type} {x : Expr.Query α} {a : α} (h : Reaches Sound (ofExpr x) a) :
    Reaches Expr.Sound x a := by
  refine reaches_of_reaches_translate (fun q r hq => ?_) h
  exact reaches_question_iff.mp hq

theorem derives_of_required (h : Reaches Sound (required origin name part whole) e) :
    e.Derives part.tokens :=
  Expr.derives_of_required (reaches_of_ofExpr h)

@[simp] theorem reaches_ofExcept_iff {α : Type} {r : Except Problem α} {a : α} :
    Reaches Sound (ofExcept r) a ↔ r = .ok a := by
  cases r with
  | ok b =>
    change Reaches Sound (pure b : Query α) a ↔ _
    rw [reaches_pure_iff, Except.ok.injEq, eq_comm]
  | error p =>
    refine ⟨fun h => (not_reaches_fail p a h).elim, fun h => ?_⟩
    cases h

theorem derivesBlock_of_readBlock (h : Reaches Sound (readBlock origin whole part) body) :
    DerivesBlock body part.tokens :=
  reaches_question_iff.mp h

/-- A slice that is a block in brackets. -/
theorem derivesBraced_of_enclosed {inner : Slice} (hinner : s.enclosed .blockStart = some inner)
    (h : DerivesBlock body inner.tokens) : DerivesBraced body s.tokens := by
  obtain ⟨o, c, ho, hc, hs⟩ := tokens_of_enclosed (b := .brace) hinner
  rw [hs]
  exact .mk ho h hc

theorem derivesBody_of_requiredBody (h : Reaches Sound (requiredBody origin part whole) body) :
    DerivesBody body part.tokens := by
  unfold requiredBody at h
  simp only at h
  split at h
  · exact (not_reaches_fail _ _ h).elim
  have hblock := derivesBlock_of_readBlock h
  match hinner : part.withoutTerminator.enclosed .blockStart with
  | none =>
    rw [hinner, Option.getD_none] at hblock
    exact .plain hblock
  | some inner =>
    rw [hinner, Option.getD_some] at hblock
    have hbody : DerivesBody body part.withoutTerminator.tokens :=
      .braced (derivesBraced_of_enclosed hinner hblock)
    -- The `.` behind the brackets was left out before they were found.
    rcases eq_or_of_withoutTerminator part with hpart | ⟨d, hd, hpart⟩
    · rwa [hpart] at hbody
    · rw [hpart]
      exact .terminated hbody hd

theorem derivesBraced_of_requiredBlock (h : Reaches Sound (requiredBlock origin part whole) body) :
    DerivesBraced body part.tokens := by
  unfold requiredBlock at h
  split at h
  · exact (not_reaches_fail _ _ h).elim
  · split at h
    · rename_i inner hinner
      exact derivesBraced_of_enclosed hinner (derivesBlock_of_readBlock h)
    · exact (not_reaches_fail _ _ h).elim

theorem exists_token_of_requiredName (h : requiredName origin name part whole = .ok n) :
    ∃ t, part.tokens = [t] ∧ t.name? = some n := by
  unfold requiredName at h
  split at h
  · cases h
  · split at h
    · rename_i n' hn
      cases h
      unfold Slice.name? at hn
      split at hn
      · rename_i t ht
        exact ⟨t, ht, hn⟩
      · cases hn
    · cases h

theorem exists_of_bind_eq_ok {ε α β : Type} {x : Except ε α} {f : α → Except ε β} {b : β}
    (h : x >>= f = .ok b) : ∃ a, x = .ok a ∧ f a = .ok b := by
  cases x with
  | ok a => exact ⟨a, rfl, h⟩
  | error p => cases h

/-- A piece of a list of names is one name. -/
theorem exists_token_of_param {piece : Slice} {p : Param}
    (h : (do
      let name ← requiredName origin "a name" piece whole
      return (⟨name, piece.position⟩ : Param)) = .ok p) :
    ∃ t n, piece.tokens = [t] ∧ t.name? = some n ∧ p = ⟨n, t.position⟩ := by
  obtain ⟨n, hn, hp⟩ := exists_of_bind_eq_ok h
  cases hp
  obtain ⟨t, hs, ht⟩ := exists_token_of_requiredName hn
  exact ⟨t, n, hs, ht, by rw [Expr.position_of_tokens hs]⟩

/-- The names of a list are the pieces between commas. -/
theorem derivesList_of_mapM {pieces : List Slice} {ts : List Token} {ps : List Param}
    (hpieces : Joined .comma pieces ts)
    (h : pieces.mapM (fun piece => do
      let name ← requiredName origin "a name" piece whole
      return (⟨name, piece.position⟩ : Param)) = .ok ps) : Param.DerivesList ps ts := by
  induction hpieces generalizing ps with
  | one piece =>
    rw [List.mapM_cons] at h
    obtain ⟨p, hp, h⟩ := exists_of_bind_eq_ok h
    cases h
    obtain ⟨t, n, hs, ht, rfl⟩ := exists_token_of_param hp
    rw [hs]
    exact .last ht
  | more piece hc hpieces ih =>
    rw [List.mapM_cons] at h
    obtain ⟨p, hp, h⟩ := exists_of_bind_eq_ok h
    obtain ⟨ps, hps, h⟩ := exists_of_bind_eq_ok h
    cases h
    obtain ⟨t, n, hs, ht, rfl⟩ := exists_token_of_param hp
    rw [hs]
    exact .more ht hc (ih hps)

theorem derivesOptional_of_optionalParams {noun : String} {help : Option String} {ps : List Param}
    (h : optionalParams origin noun help part whole = .ok ps) :
    Param.DerivesOptional ps part.tokens := by
  rw [optionalParams_eq] at h
  split at h
  · rename_i hempty
    cases h
    rw [List.isEmpty_iff.mp hempty]
    exact .none
  · split at h
    · rename_i hwith
      obtain ⟨t, ht, hs⟩ := tokens_of_startsWith hwith
      rw [requiredParams_eq] at h
      split at h
      · cases h
      · rename_i hrest
        rw [hs]
        exact .some ht (derivesList_of_mapM (joined_split (Expr.isEmpty_eq_false hrest)) h)
    · cases h

end parts

end Prose.Stmt
