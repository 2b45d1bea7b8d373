import Prose.Proofs.Slice.Braces
import Prose.Proofs.Stmt.Indices
import Prose.Stmt.Reading

namespace Prose.Stmt

variable {s : Slice} {ks : List Keyword} {pre ls bs ts inner : List Token} {t : Token}

def blockEnds (i : Nat) (ts : List Token) : List Nat :=
  ((depthZero 0 i ts).filter (·.2 == .blockEnd)).map (·.1)

theorem clauses_eq (s : Slice) : clauses s = clausesFrom s 0 (blockEnds 0 s.tokens) :=
  clauses_eq_clausesFrom s

/-- Tokens that show no block end have none. -/
theorem blockEnds_shows (hls : Shows ks ls) (hk : .blockEnd ∉ ks) (i : Nat) (ts : List Token) :
    blockEnds i (ls ++ ts) = blockEnds (i + ls.length) ts := by
  obtain ⟨entries, hks, he⟩ := hls i ts
  have hnone : entries.filter (·.2 == .blockEnd) = [] := by
    rw [List.filter_eq_nil_iff]
    intro e hmem
    simp only [beq_iff_eq]
    exact fun hek => hk (hek ▸ hks e hmem)
  rw [blockEnds, he, List.filter_append, hnone, List.nil_append, blockEnds]

/-- A block in brackets has its own block end only. -/
theorem blockEnds_braced (hb : IsBraced inner bs) (i : Nat) (ts : List Token) :
    blockEnds i (bs ++ ts) = (i + bs.length - 1) :: blockEnds (i + bs.length) ts := by
  rw [blockEnds, hb.depthZero]
  rfl

variable (hls : Shows ks ls) (hk : .blockEnd ∉ ks)
include hls hk

/-- A clause without a block end reaches to the end of the slice. -/
theorem clausesFrom_shows (hs : s.tokens = pre ++ ls) :
    clausesFrom s pre.length (blockEnds pre.length ls) = [⟨s.start + pre.length, ls⟩] := by
  have hends := blockEnds_shows hls hk pre.length []
  rw [List.append_nil] at hends
  rw [hends]
  simp only [blockEnds, depthZero, List.filter_nil, List.map_nil, clausesFrom]
  rw [Slice.drop_eq pre ls hs rfl]

/-- The last clause reaches to the end of the conditional. -/
theorem clausesFrom_last (hb : IsBraced inner bs) (hs : s.tokens = pre ++ (ls ++ bs)) :
    clausesFrom s pre.length (blockEnds pre.length (ls ++ bs)) =
      [⟨s.start + pre.length, ls ++ bs⟩] := by
  -- Behind the only block end there is no token, so the clause is not cut off there.
  have htwo := hb.length_eq
  have hends := blockEnds_braced hb (pre.length + ls.length) []
  rw [List.append_nil] at hends
  have hnone : s.tokens[pre.length + ls.length + bs.length - 1 + 1]? = none := by
    rw [List.getElem?_eq_none_iff, hs]
    simp only [List.length_append]
    omega
  rw [blockEnds_shows hls hk, hends, clausesFrom, hnone]
  simp only [blockEnds, depthZero, List.filter_nil, List.map_nil, clausesFrom]
  rw [Slice.drop_eq pre (ls ++ bs) hs rfl]

/-- A clause ends where the next one begins. -/
theorem clausesFrom_more (hb : IsBraced inner bs)
    (ht : t.keyword = .otherwiseIf ∨ t.keyword = .otherwise)
    (hs : s.tokens = pre ++ ((ls ++ bs) ++ t :: ts)) :
    clausesFrom s pre.length (blockEnds pre.length (ls ++ (bs ++ t :: ts))) =
      ⟨s.start + pre.length, ls ++ bs⟩ ::
        clausesFrom s (pre ++ (ls ++ bs)).length
          (blockEnds (pre ++ (ls ++ bs)).length (t :: ts)) := by
  have htwo := hb.length_eq
  have hlen : pre.length + ls.length + bs.length - 1 + 1 = (pre ++ (ls ++ bs)).length := by
    simp only [List.length_append]
    omega
  have hnext : s.tokens[(pre ++ (ls ++ bs)).length]? = some t := by
    rw [hs, ← List.append_assoc, List.getElem?_append_right (Nat.le_refl _), Nat.sub_self]
    rfl
  have hpiece : s.extract pre.length (pre ++ (ls ++ bs)).length =
      ⟨s.start + pre.length, ls ++ bs⟩ :=
    Slice.extract_eq pre (ls ++ bs) (t :: ts) hs rfl List.length_append
  have hends : pre.length + ls.length + bs.length = (pre ++ (ls ++ bs)).length := by
    omega
  rw [blockEnds_shows hls hk, blockEnds_braced hb, clausesFrom, hlen, hnext]
  simp only [if_pos ht, hpiece, hends]

end Prose.Stmt
