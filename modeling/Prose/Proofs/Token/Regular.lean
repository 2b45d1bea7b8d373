import Prose.Proofs.Condense.Group
import Prose.Proofs.Slice.Part
import Prose.Proofs.Token.Pieces

namespace Prose

/-- A name or a literal plays no role, or it is a number that was spelled out. -/
def Token.IsRegular (t : Token) : Prop :=
  t.kind.isPlain = true → t.keyword = .unknown ∨ t.keyword = .numericLiteral

def Slice.IsRegular (s : Slice) : Prop :=
  ∀ t ∈ s.tokens, t.IsRegular

def Slice.IsCondensed (s : Slice) : Prop :=
  ∃ (source name : String) (ts cs : List Token), tokenize source name = .ok ts ∧
    condense ts = .ok cs ∧ s.IsPartOf ⟨0, cs⟩

def Slice.ofSource (source name : String) : Slice :=
  match tokenize source name with
  | .ok ts =>
    match condense ts with
    | .ok cs => ⟨0, cs⟩
    | .error _ => ⟨0, []⟩
  | .error _ => ⟨0, []⟩

theorem Slice.ofSource_eq {source name : String} {ts cs : List Token}
    (htokens : tokenize source name = .ok ts) (hcondensed : condense ts = .ok cs) :
    ofSource source name = ⟨0, cs⟩ := by
  simp only [ofSource, htokens, hcondensed]

theorem Slice.isCondensed_ofSource (source name : String) : (ofSource source name).IsCondensed := by
  have hnone : IsCondensed ⟨0, []⟩ := ⟨"", name, [], [], rfl, rfl, .refl _⟩
  unfold ofSource
  match htokens : tokenize source name with
  | .error _ => exact hnone
  | .ok ts =>
    simp only
    match hcondensed : condense ts with
    | .error _ => exact hnone
    | .ok cs => exact ⟨source, name, ts, cs, htokens, hcondensed, .refl _⟩

theorem Token.isRegular_ofText (kind : Kind) (text : String) (p : Position) :
    (ofText kind text p).IsRegular := by
  intro h
  have hplain : kind.isPlain = true := h
  left
  rw [ofText, if_pos hplain]

/-- Words and marks are regular, whatever role they play. -/
theorem Token.isRegular_of_not_plain {t : Token} (h : t.kind.isPlain = false) : t.IsRegular := by
  intro hplain
  rw [h] at hplain
  cases hplain

theorem regular_of_cuts {p : Position} {cs : List Char} {ts : List Token}
    (h : Lexer.Cuts p cs ts) : ∀ t ∈ ts, t.IsRegular := by
  induction h with
  | nil => exact fun t ht => by cases ht
  | gap _ _ ih => exact ih
  | token _ _ ih => exact List.forall_mem_cons.mpr ⟨Token.isRegular_ofText _ _ _, ih⟩

theorem regular_of_tokenize {source name : String} {ts : List Token}
    (h : tokenize source name = .ok ts) : ∀ t ∈ ts, t.IsRegular :=
  regular_of_cuts (Lexer.cuts_of_tokenize h)

section condensing

/-- Phrases begin with a word. -/
theorem lead_ne_unknown {p : Phrase} (h : p ∈ Phrase.all) :
    p.lead ≠ .unknown ∧ p.lead ≠ .numericLiteral := by
  have hall : ∀ p ∈ Phrase.all, p.lead ≠ .unknown ∧ p.lead ≠ .numericLiteral := by decide
  exact hall p h

theorem not_plain_of_keyword {t : Token} (h : t.IsRegular) (hu : t.keyword ≠ .unknown)
    (hn : t.keyword ≠ .numericLiteral) : t.kind.isPlain = false := by
  cases hplain : t.kind.isPlain with
  | false => rfl
  | true => exact ((h hplain).elim hu hn).elim

theorem regular_of_group {t u : Token} {ts : List Token} {n : Nat} (ht : t.IsRegular)
    (h : Condense.group t ts = .ok (u, n)) : u.IsRegular := by
  cases Condense.isGroup_of_group h with
  | number hnumber => exact fun _ => .inr (Number.number_of_spelled hnumber).1
  | fin hfin =>
    have hplain : t.kind.isPlain = false := by
      apply not_plain_of_keyword ht
      · rw [hfin]
        decide
      · rw [hfin]
        decide
    exact Token.isRegular_of_not_plain hplain
  | phrase _ hphrase =>
    obtain ⟨hp, hkeyword⟩ := Phrase.mem_of_find hphrase
    have hlead := lead_ne_unknown hp
    have hplain : t.kind.isPlain = false := by
      apply not_plain_of_keyword ht
      · rw [hkeyword]
        exact hlead.1
      · rw [hkeyword]
        exact hlead.2
    exact Token.isRegular_of_not_plain hplain
  | alone => exact ht

theorem regular_of_groups {n : Nat} {ts cs : List Token} (hts : ∀ t ∈ ts, t.IsRegular)
    (h : Condense.groups n ts = .ok cs) : ∀ t ∈ cs, t.IsRegular := by
  induction n generalizing ts cs with
  | zero =>
    cases h
    exact fun t ht => by cases ht
  | succ n ih =>
    cases ts with
    | nil =>
      cases h
      exact fun t ht => by cases ht
    | cons t ts =>
      obtain ⟨u, taken, rest, hgroup, hrest, rfl⟩ := Condense.exists_of_groups_cons h
      have hhead := regular_of_group (hts t (List.mem_cons_self ..)) hgroup
      have htail := ih (fun v hv => hts v (List.mem_of_mem_drop hv)) hrest
      exact List.forall_mem_cons.mpr ⟨hhead, htail⟩

end condensing

/-- The tokens of a slice of condensed tokens are regular. -/
theorem Slice.IsCondensed.isRegular {s : Slice} (h : s.IsCondensed) : s.IsRegular := by
  obtain ⟨source, name, ts, cs, htokens, hcondensed, i, -, hpart⟩ := h
  have hcs : ∀ t ∈ cs, t.IsRegular := regular_of_groups (regular_of_tokenize htokens) hcondensed
  intro t ht
  exact hcs t (List.mem_of_mem_drop (hpart.subset ht))

end Prose
