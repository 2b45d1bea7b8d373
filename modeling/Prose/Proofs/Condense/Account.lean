import Mathlib.Data.List.Forall2
import Prose.Proofs.Condense.Idempotent
import Prose.Proofs.Number.Run

/-! What becomes of the tokens of a source text: they are split into groups, and each condensed token
stands for one of these. -/
namespace Prose

namespace Token

structure IsRaw (t : Token) : Prop where
  keyword : t.kind.isPlain = true → t.keyword = .unknown
  unsigned : t.kind = .number → t.text.toList.head? ≠ some '-'

def fixedRoles : List Keyword :=
  [.endOfStatement, .comma, .openParen, .closeParen, .blockStart, .blockEnd]

/-- The token ends a statement, is a comma or a bracket, or it is a name or a quoted literal. -/
def IsFixed (t : Token) : Prop :=
  t.keyword ∈ fixedRoles ∨ t.kind ∈ [Kind.string, .character, .identifier]

end Token

namespace Condense

section raw

open Token

theorem isRaw_of_isPiece {kind : Kind} {text rest : List Char} {p : Position}
    (h : Lexer.IsPiece ⟨some kind, text⟩ rest) : (ofText kind (String.ofList text) p).IsRaw := by
  have hdigit {c : Char} (hc : c.isDigit = true) : some c ≠ some '-' := by
    rintro ⟨⟩
    cases hc
  refine ⟨fun hplain => if_pos hplain, fun hnumber => ?_⟩
  rw [ofText] at hnumber ⊢
  rw [String.toList_ofList]
  cases hnumber
  cases h with
  | number hc _ => exact hdigit hc
  | decimal hc _ _ _ => exact hdigit hc

theorem raw_of_cuts {p : Position} {cs : List Char} {ts : List Token}
    (h : Lexer.Cuts p cs ts) : ∀ t ∈ ts, t.IsRaw := by
  induction h with
  | nil => exact List.forall_mem_nil _
  | gap _ _ ih => exact ih
  | token hpiece _ ih => exact List.forall_mem_cons.mpr ⟨isRaw_of_isPiece hpiece, ih⟩

end raw

/-- The tokens `group` in front of `rest` become the one token `u`. They are a longest number in words,
which may have a sign word in front, or a sign word and digits, the word that ends a block, or a phrase
in whose place there is no longer one. -/
inductive Merges : List Token → List Token → Token → Prop
  | number {t ts rest m} (h : Number.IsLongestRun (t :: ts) rest) :
      Merges (t :: ts) rest
        ⟨.number, (Number.Decimal.mk false m).render, .numericLiteral, t.position⟩
  | signed {sign ts rest m} (hsign : sign.keyword = .negative)
      (h : Number.IsLongestRun ts rest) :
      Merges (sign :: ts) rest
        ⟨.number, (Number.Decimal.mk true m).render, .numericLiteral, sign.position⟩
  | signedDigits {sign t rest} (hsign : sign.keyword = .negative) (ht : t.kind = .number) :
      Merges [sign, t] rest ⟨.number, "-" ++ t.text, .numericLiteral, sign.position⟩
  | fin {t rest} (ht : t.keyword = .fin) : Merges [t] rest { t with keyword := .blockEnd }
  | phrase {p t ts rest} (hp : p ∈ Phrase.all)
      (hwords : (t :: ts).map (·.keyword) = p.lead :: p.followers)
      (hlongest : ∀ q ∈ Phrase.all, q.startsAt (t :: ts ++ rest) = true →
        q.followers.length ≤ p.followers.length) :
      Merges (t :: ts) rest ⟨t.kind, Token.render (t :: ts), p.role, t.position⟩

section merging

variable {t u : Token} {ts : List Token} {n : Nat}

/-- What is read as a number begins with a number in words or with digits that have a sign word. -/
theorem merges_of_spelled (h : Number.spelled? (t :: ts) = .ok (some (u, n))) :
    ∃ group rest, t :: ts = group ++ rest ∧ n = group.length ∧ Merges group rest u := by
  rw [Number.spelled?.eq_def] at h
  simp only at h
  -- Behind a sign stand digits or number words; without one the number begins with a number word.
  split at h
  · rename_i hsign
    split at h
    · cases h
    · rename_i lead later
      split at h
      · rename_i hdigits
        cases h
        exact ⟨[t, lead], later, rfl, rfl, .signedDigits hsign hdigits.1⟩
      · split at h
        · rename_i hword
          obtain ⟨words, rest, m, hwords, rfl, hlongest, rfl⟩ :=
            Number.Spelled.isLongestRun_of_token rfl hword (Number.eq_ok_of_map h)
          refine ⟨t :: words, rest, congrArg (t :: ·) hwords, ?_, .signed hsign hlongest⟩
          rw [List.length_cons, Nat.add_comm]
        · cases h
  · split at h
    · rename_i hword
      obtain ⟨words, rest, m, hwords, rfl, hlongest, rfl⟩ :=
        Number.Spelled.isLongestRun_of_token rfl hword (Number.eq_ok_of_map h)
      cases words with
      | nil => cases hlongest.isRun
      | cons v words =>
        obtain ⟨rfl, rfl⟩ := List.cons.inj hwords
        exact ⟨t :: words, rest, rfl, Nat.zero_add _, .number hlongest⟩
    · cases h

theorem startsAt_iff {q : Phrase} : q.startsAt (t :: ts) = true ↔
    t.keyword = q.lead ∧ q.followers <+: ts.map (·.keyword) := by
  simp only [Phrase.startsAt, Bool.and_eq_true, beq_iff_eq, List.prefix_iff_eq_take, List.map_take]
  exact and_congr_right fun _ => eq_comm

/-- No phrase goes on where another one of the same beginning ends. -/
theorem eq_of_followers {p q : Phrase} (hp : p ∈ Phrase.all) (hq : q ∈ Phrase.all)
    (hlead : p.lead = q.lead) (hfollowers : p.followers <+: q.followers) : p = q := by
  have hall : ∀ p ∈ Phrase.all, ∀ q ∈ Phrase.all,
      p.lead = q.lead → p.followers <+: q.followers → p = q := by
    decide +kernel
  exact hall p hp q hq hlead hfollowers

/-- At most one phrase begins with a token. -/
theorem eq_of_startsAt {p q : Phrase} (hp : p ∈ Phrase.all) (hq : q ∈ Phrase.all)
    (hpstarts : p.startsAt (t :: ts) = true) (hqstarts : q.startsAt (t :: ts) = true) : p = q := by
  rw [startsAt_iff] at hpstarts hqstarts
  obtain ⟨hplead, hpwords⟩ := hpstarts
  obtain ⟨hqlead, hqwords⟩ := hqstarts
  have hlead : p.lead = q.lead := hplead.symm.trans hqlead
  rcases List.prefix_or_prefix_of_prefix hpwords hqwords with hle | hle
  · exact eq_of_followers hp hq hlead hle
  · exact (eq_of_followers hq hp hlead.symm hle).symm

/-- A phrase that is found is all that its words make up. -/
theorem merges_of_find {p : Phrase} (h : Phrase.find? (t :: ts) = some p) :
    ∃ group rest, t :: ts = group ++ rest ∧ p.length = group.length ∧
      Merges group rest
        { t with text := Token.render ((t :: ts).take p.length), keyword := p.role } := by
  have hp := List.mem_of_find?_eq_some h
  have hfound := List.find?_some h
  have hstarts : p.startsAt (t :: ts) = true := hfound
  obtain ⟨hlead, hwords⟩ := startsAt_iff.mp hstarts
  have htaken : (ts.take p.followers.length).map (·.keyword) = p.followers := by
    rw [List.map_take]
    exact (List.prefix_iff_eq_take.mp hwords).symm
  have hlength : (ts.take p.followers.length).length = p.followers.length := by
    rw [← List.length_map (·.keyword), htaken]
  refine ⟨t :: ts.take p.followers.length, ts.drop p.followers.length, ?_, ?_, ?_⟩
  · rw [List.cons_append, List.take_append_drop]
  · rw [Phrase.length, List.length_cons, hlength]
  · rw [Phrase.length, List.take_succ_cons]
    refine .phrase hp ?_ ?_
    · rw [List.map_cons, hlead, htaken]
    · intro q hq hqstarts
      rw [List.cons_append, List.take_append_drop] at hqstarts
      exact Nat.le_of_eq (congrArg (·.followers.length) (eq_of_startsAt hq hp hqstarts hstarts))

/-- With a token that stays as it is nothing begins that could become one token. -/
theorem not_merges_of_alone (hraw : ∀ v ∈ ts.head?, v.IsRaw)
    (hnumber : Number.spelled? (t :: ts) = .ok none) (hfin : t.keyword ≠ .fin)
    (hphrase : Phrase.find? (t :: ts) = none) {group rest : List Token}
    (hgroup : group ++ rest = t :: ts) : ¬ Merges group rest u := by
  intro h
  -- By the ways to become one token: the first one of the group is `t` in each of them.
  cases h with
  | number hrun =>
    obtain ⟨hword, -⟩ := hrun.isRun
    obtain ⟨rfl, -⟩ := List.cons.inj hgroup
    exact Number.not_numberWord_of_spelled hnumber hword
  | signed hsign hrun =>
    obtain ⟨hword, -⟩ := hrun.isRun
    obtain ⟨rfl, rfl⟩ := List.cons.inj hgroup
    exact (Number.spelled?_of_sign hsign).mp hnumber _ rfl (.inr hword)
  | signedDigits hsign hdigits =>
    obtain ⟨rfl, rfl⟩ := List.cons.inj hgroup
    exact (Number.spelled?_of_sign hsign).mp hnumber _ rfl
      (.inl ⟨hdigits, (hraw _ rfl).unsigned hdigits⟩)
  | fin h =>
    obtain ⟨rfl, -⟩ := List.cons.inj hgroup
    exact hfin h
  | phrase hp hwords hlongest =>
    rw [List.cons_append] at hgroup
    obtain ⟨rfl, rfl⟩ := List.cons.inj hgroup
    rw [List.map_cons, List.cons.injEq] at hwords
    refine List.find?_eq_none.mp hphrase _ hp (startsAt_iff.mpr ⟨hwords.1, ?_⟩)
    rw [List.map_append, hwords.2]
    exact List.prefix_append _ _

end merging

/-- The groups become the tokens one by one. A token with which nothing begins that could become one
token is a group of its own, and it stays as it is. -/
inductive Accounts : List (List Token) → List Token → Prop
  | nil : Accounts [] []
  | merged {group groups u us} (h : Merges group groups.flatten u) (hrest : Accounts groups us) :
      Accounts (group :: groups) (u :: us)
  | alone {t groups us}
      (h : ∀ group rest u, group ++ rest = t :: groups.flatten → ¬ Merges group rest u)
      (hrest : Accounts groups us) : Accounts ([t] :: groups) (t :: us)

theorem exists_accounts {ts us : List Token} (h : Becomes ts us) (hraw : ∀ t ∈ ts, t.IsRaw) :
    ∃ groups, groups.flatten = ts ∧ Accounts groups us := by
  induction h with
  | nil => exact ⟨[], rfl, .nil⟩
  | @cons t u ts us n hgroup hrest ih =>
    obtain ⟨groups, hflatten, haccounts⟩ := ih fun v hv => hraw v (List.mem_of_mem_drop hv)
    -- Whatever is merged, the groups behind it are those of the tokens that it leaves.
    have hmerged (hmerges : ∃ group rest, t :: ts = group ++ rest ∧ n = group.length ∧
        Merges group rest u) : ∃ groups, groups.flatten = t :: ts ∧ Accounts groups (u :: us) := by
      obtain ⟨group, rest, hts, rfl, hmerges⟩ := hmerges
      rw [hts, List.drop_left] at hflatten
      refine ⟨group :: groups, ?_, .merged ?_ haccounts⟩
      · rw [List.flatten_cons, hflatten, hts]
      · rw [hflatten]
        exact hmerges
    cases isGroup_of_group hgroup with
    | number hnumber => exact hmerged (merges_of_spelled hnumber)
    | fin hfin => exact hmerged ⟨[t], ts, rfl, rfl, .fin hfin⟩
    | phrase hnumber hphrase => exact hmerged (merges_of_find hphrase)
    | alone hnumber hfin hphrase =>
      rw [List.drop_succ_cons, List.drop_zero] at hflatten
      refine ⟨[t] :: groups, ?_, .alone ?_ haccounts⟩
      · rw [List.flatten_cons, hflatten, List.singleton_append]
      · rw [hflatten]
        intro group rest v hsplit
        refine not_merges_of_alone (fun w hw => ?_) hnumber hfin hphrase hsplit
        exact hraw w (List.mem_cons_of_mem _ (List.mem_of_mem_head? hw))

section fixed

open Token

variable {t u : Token} {ts group rest : List Token}

/-- A fixed token of a source text plays no role but its own. -/
theorem keyword_of_isFixed (hraw : t.IsRaw) (h : t.IsFixed) : t.keyword ∈ .unknown :: fixedRoles := by
  rcases h with hrole | hkind
  · exact List.mem_cons_of_mem _ hrole
  · have hplain : t.kind.isPlain = true := by
      have hall : ∀ kind ∈ [Kind.string, .character, .identifier], kind.isPlain = true := by
        decide
      exact hall _ hkind
    rw [hraw.keyword hplain]
    exact List.mem_cons_self ..

/-- Digits are not fixed: a sign word may stand before them. -/
theorem not_isFixed_of_number (hraw : t.IsRaw) (h : t.kind = .number) : ¬ t.IsFixed := by
  have hunknown : t.keyword = .unknown := hraw.keyword (by rw [h]; rfl)
  rw [IsFixed, hunknown, h]
  decide

theorem not_mem_of_mem_phrase {p : Phrase} (h : p ∈ Phrase.all) :
    ∀ k ∈ p.lead :: p.followers, k ∉ .unknown :: fixedRoles := by
  have hall : ∀ p ∈ Phrase.all, ∀ k ∈ p.lead :: p.followers, k ∉ .unknown :: fixedRoles := by
    decide +kernel
  exact hall p h

/-- No fixed token is merged. -/
theorem not_isFixed_of_merges (h : Merges group rest u) (hraw : ∀ t ∈ group, t.IsRaw) :
    ∀ t ∈ group, ¬ t.IsFixed := by
  have hother {t : Token} (ht : t.IsRaw) (hrole : t.keyword ∉ .unknown :: fixedRoles) :
      ¬ t.IsFixed :=
    fun hfixed => hrole (keyword_of_isFixed ht hfixed)
  -- Every word that is merged has a role, and no role of these is one of the fixed words.
  have hroles : ∀ k ∈ Number.roles, k ∉ .unknown :: fixedRoles := by decide
  have hrun {words : List Token} (hrun : Number.IsRun words) (hraw : ∀ t ∈ words, t.IsRaw) :
      ∀ t ∈ words, ¬ t.IsFixed :=
    fun t ht => hother (hraw t ht) (hroles _ (hrun.mem_roles t ht))
  have hsignWord {sign : Token} (hraw : sign.IsRaw) (hsign : sign.keyword = .negative) :
      ¬ sign.IsFixed := by
    refine hother hraw ?_
    rw [hsign]
    decide
  cases h with
  | number hlongest => exact hrun hlongest.isRun hraw
  | signed hsign hlongest =>
    obtain ⟨hfirst, hwords⟩ := List.forall_mem_cons.mp hraw
    exact List.forall_mem_cons.mpr ⟨hsignWord hfirst hsign, hrun hlongest.isRun hwords⟩
  | signedDigits hsign hdigits =>
    rw [List.forall_mem_cons, List.forall_mem_singleton] at hraw ⊢
    exact ⟨hsignWord hraw.1 hsign, not_isFixed_of_number hraw.2 hdigits⟩
  | fin hfin =>
    rw [List.forall_mem_singleton] at hraw ⊢
    refine hother hraw ?_
    rw [hfin]
    decide
  | phrase hp hwords _ =>
    intro t ht
    refine hother (hraw t ht) (not_mem_of_mem_phrase hp _ ?_)
    rw [← hwords]
    exact List.mem_map_of_mem ht

end fixed

/-- The token stands where its group begins, and nothing is made of a token that is fixed. -/
structure StandsFor (u : Token) (group : List Token) : Prop where
  position : group.head?.map (·.position) = some u.position
  fixed : ∀ t ∈ group, t.IsFixed → group = [t] ∧ u = t

theorem standsFor_of_merges {u : Token} {group rest : List Token} (h : Merges group rest u)
    (hraw : ∀ t ∈ group, t.IsRaw) : StandsFor u group := by
  refine ⟨?_, fun t ht hfixed => absurd hfixed (not_isFixed_of_merges h hraw t ht)⟩
  cases h <;> rfl

theorem standsFor_of_accounts {groups : List (List Token)} {us : List Token}
    (h : Accounts groups us) (hraw : ∀ t ∈ groups.flatten, t.IsRaw) :
    List.Forall₂ StandsFor us groups := by
  induction h with
  | nil => exact .nil
  | merged hmerges _ ih =>
    rw [List.flatten_cons, List.forall_mem_append] at hraw
    exact .cons (standsFor_of_merges hmerges hraw.1) (ih hraw.2)
  | alone _ _ ih =>
    rw [List.flatten_cons, List.forall_mem_append] at hraw
    refine .cons ⟨rfl, fun v hv _ => ?_⟩ (ih hraw.2)
    rw [List.mem_singleton.mp hv]
    exact ⟨rfl, rfl⟩

end Condense

/-- The tokens of a source text are split into groups, and the condensed tokens are what these
become: a group is a longest number in words, perhaps with its sign, a sign word with digits, the word
that ends a block, a longest phrase, or a single token with which none of these begins. -/
theorem account_of_condense {source name : String} {ts us : List Token}
    (htokens : tokenize source name = .ok ts) (h : condense ts = .ok us) :
    ∃ groups, groups.flatten = ts ∧ Condense.Accounts groups us ∧
      List.Forall₂ Condense.StandsFor us groups := by
  have hraw := Condense.raw_of_cuts (Lexer.cuts_of_tokenize htokens)
  obtain ⟨groups, rfl, haccounts⟩ :=
    Condense.exists_accounts (Condense.becomes_of_groups (Nat.le_refl _) h) hraw
  exact ⟨groups, rfl, haccounts, Condense.standsFor_of_accounts haccounts hraw⟩

def mixedGroups : String :=
  "execute the following ; print negative two hundred and five point five , one and " ++
    "\"is not null\" ; negative 3 is not null , is not $two fin ."

/-- `and` joins no number words where no scale word stands before it, and `is not` is no phrase. -/
theorem account_of_condense_mixedGroups :
    ∃ ts us groups, tokenize mixedGroups "t" = .ok ts ∧ condense ts = .ok us ∧
      groups.flatten = ts ∧ Condense.Accounts groups us ∧
      List.Forall₂ Condense.StandsFor us groups ∧
      us.map (·.text) = ["execute the following ;", "print", "-205.5", ",", "1", "and",
        "\"is not null\"", ";", "-3", "is not null", ",", "is", "not", "$two", "fin", "."] := by
  have htexts : ((tokenize mixedGroups "t").toOption.bind fun ts =>
        (condense ts).toOption.map (·.map (·.text))) =
      some ["execute the following ;", "print", "-205.5", ",", "1", "and",
        "\"is not null\"", ";", "-3", "is not null", ",", "is", "not", "$two", "fin", "."] := by
    decide +kernel
  obtain ⟨ts, htokens, htexts⟩ := Option.bind_eq_some_iff.mp htexts
  obtain ⟨us, hcondensed, htexts⟩ := Option.map_eq_some_iff.mp htexts
  have htokens := eq_ok_of_toOption htokens
  have hcondensed := eq_ok_of_toOption hcondensed
  obtain ⟨groups, haccount⟩ := account_of_condense htokens hcondensed
  exact ⟨ts, us, groups, htokens, hcondensed, haccount.1, haccount.2.1, haccount.2.2, htexts⟩

end Prose
