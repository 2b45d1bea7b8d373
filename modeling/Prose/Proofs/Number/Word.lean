import Prose.Proofs.Condense.Idempotent
import Prose.Proofs.Number.Run
import Prose.Proofs.Text.Fold
import Prose.Token.Value

namespace Prose

open Number

section table

variable {word : String} {k : Keyword}

theorem mem_of_lookup {α : Type} {table : List (String × α)} {a : α}
    (h : table.lookup word = some a) : (word, a) ∈ table := by
  obtain ⟨before, after, hsplit, -⟩ := List.lookup_eq_some_iff.mp h
  rw [hsplit]
  exact List.mem_append_right before (List.mem_cons_self ..)

/-- The other words are neither cardinals nor ordinals, and those of them that are scale words have a
factor. -/
theorem role_of_mem_vocabulary (h : (word, k) ∈ vocabulary) :
    k ≠ .numberWord ∧ k ≠ .ordinal ∧ (k.isScale = true → (scale? word).isSome = true) := by
  have hall : ∀ e ∈ vocabulary, e.2 ≠ .numberWord ∧ e.2 ≠ .ordinal ∧
      (e.2.isScale = true → (scale? e.1).isSome = true) := by
    decide +kernel
  exact hall _ h

namespace Keyword

/-- The word is a cardinal or an ordinal, or it has its role from the vocabulary, or it has none. -/
inductive IsRoleOf (word : String) : Keyword → Prop
  | cardinal (h : (cardinal? word).isSome = true) : IsRoleOf word .numberWord
  | ordinal (h : (ordinal? word).isSome = true) : IsRoleOf word .ordinal
  | listed {k : Keyword} (h : (word, k) ∈ vocabulary) : IsRoleOf word k
  | none : IsRoleOf word .unknown

theorem isRoleOf_ofFolded (word : String) : IsRoleOf word (ofFolded word) := by
  unfold ofFolded
  split
  · rename_i hcardinal
    exact .cardinal hcardinal
  split
  · rename_i hordinal
    exact .ordinal hordinal
  cases hlookup : vocabulary.lookup word with
  | none => exact .none
  | some k => exact .listed (mem_of_lookup hlookup)

theorem ofFolded_eq_numberWord_iff :
    ofFolded word = .numberWord ↔ (cardinal? word).isSome = true := by
  constructor
  · intro hrole
    have h := isRoleOf_ofFolded word
    rw [hrole] at h
    cases h with
    | cardinal h => exact h
    | listed h => exact absurd rfl (role_of_mem_vocabulary h).1
  · exact fun h => if_pos h

theorem isScale_ofFolded_iff : (ofFolded word).isScale = true ↔ (scale? word).isSome = true := by
  constructor
  · intro hscale
    have h := isRoleOf_ofFolded word
    generalize ofFolded word = k at h hscale
    cases h with
    | cardinal => cases hscale
    | ordinal => cases hscale
    | listed h => exact (role_of_mem_vocabulary h).2.2 hscale
    | none => cases hscale
  · intro h
    have hall : ∀ e ∈ scales, (ofFolded e.1).isScale = true := by decide +kernel
    obtain ⟨n, hn⟩ := Option.isSome_iff_exists.mp h
    exact hall _ (mem_of_lookup hn)

theorem ofFolded_eq_ordinal_iff : ofFolded word = .ordinal ↔ (ordinal? word).isSome = true := by
  constructor
  · intro hrole
    have h := isRoleOf_ofFolded word
    rw [hrole] at h
    cases h with
    | ordinal h => exact h
    | listed h => exact absurd rfl (role_of_mem_vocabulary h).2.1
  · intro h
    have hall : ∀ e ∈ ordinals, ofFolded e.1 = .ordinal := by decide +kernel
    obtain ⟨n, hn⟩ := Option.isSome_iff_exists.mp h
    exact hall _ (mem_of_lookup hn)

end Keyword

end table

/-- The token has the role of its text. -/
def Token.IsResolved (t : Token) : Prop :=
  ∃ kind text p, t = .ofText kind text p

namespace Token.IsResolved

variable {t : Token}

theorem keyword_eq (h : t.IsResolved) (hrole : t.keyword ≠ .unknown) :
    t.keyword = .ofFolded (Text.fold t.text) := by
  obtain ⟨kind, text, p, rfl⟩ := h
  change (if kind.isPlain = true then .unknown else Keyword.ofText text) ≠ .unknown at hrole
  change (if kind.isPlain = true then .unknown else Keyword.ofText text) = .ofText text
  split at hrole
  · exact absurd rfl hrole
  · rename_i hplain
    exact if_neg hplain

theorem isSome_cardinal? (h : t.IsResolved) (hword : t.keyword = .numberWord) :
    (cardinal? (Text.fold t.text)).isSome = true := by
  rw [← Keyword.ofFolded_eq_numberWord_iff, ← h.keyword_eq, hword]
  rw [hword]
  decide

theorem isSome_scale? (h : t.IsResolved) (hscale : t.keyword.isScale = true) :
    (scale? (Text.fold t.text)).isSome = true := by
  rw [← Keyword.isScale_ofFolded_iff, ← h.keyword_eq, hscale]
  intro hrole
  rw [hrole] at hscale
  cases hscale

theorem isSome_ordinal? (h : t.IsResolved) (hordinal : t.keyword = .ordinal) :
    (ordinal? (Text.fold t.text)).isSome = true := by
  rw [← Keyword.ofFolded_eq_ordinal_iff, ← h.keyword_eq, hordinal]
  rw [hordinal]
  decide

/-- An ordinal has a value, and it is the one that its word has. -/
theorem exists_ordinalValue (h : t.IsResolved) (hordinal : t.keyword = .ordinal) :
    ∃ n d, ordinal? (Text.fold t.text) = some n ∧ Decimal.ofNat? n = some d ∧
      t.ordinalValue = .ok (.number d) := by
  obtain ⟨n, hn⟩ := Option.isSome_iff_exists.mp (h.isSome_ordinal? hordinal)
  have hsmall : ∀ e ∈ ordinals, (Decimal.ofNat? e.2).isSome = true := by decide +kernel
  obtain ⟨d, hd⟩ := Option.isSome_iff_exists.mp (hsmall _ (mem_of_lookup hn))
  refine ⟨n, d, hn, hd, ?_⟩
  rw [ordinalValue, hn, Option.bind_some, hd]

end Token.IsResolved

namespace Number.Spelled

/-- What is taken for the value of a cardinal word, and for the factor of a scale word, that has
none. -/
structure Invented where
  value : String → Nat
  factor : String → Nat

def Invented.standard : Invented :=
  ⟨fun _ => 0, fun _ => 1⟩

def valueStep (p : Progress) (t : Token) (value : Nat) : Step :=
  if p.inFraction then
    if value ≥ 10 then .fault (.notADigitWord t.text)
    else
      (Magnitude.of? value (p.places + 1)).elim .placesExhausted fun digit =>
        .ofOption (fun m => { p with fraction := m, places := p.places + 1, afterScale := false })
          (p.fraction.add? digit)
  else
    .ofOption (fun m => { p with group := m, afterScale := false })
      ((Magnitude.of? value 0).bind p.group.add?)

def factorStep (p : Progress) (t : Token) (factor : Nat) : Step :=
  if p.inFraction then .fault (.scaleAfterPoint t.text)
  else
    let base := if p.group.isZero then .one else p.group
    let scaled := base.times? factor
    if t.keyword = .hundred then
      .ofOption (fun m => { p with group := m, afterScale := true }) scaled
    else
      .ofOption (fun m => { p with total := m, group := .zero, afterScale := true })
        (scaled.bind p.total.add?)

def stepWith (v : Invented) (p : Progress) (t : Token) (following : Option Token) : Step :=
  if t.keyword = .numberWord then
    valueStep p t ((cardinal? (Text.fold t.text)).getD (v.value t.text))
  else if t.keyword.isScale then
    factorStep p t ((scale? (Text.fold t.text)).getD (v.factor t.text))
  else step p t following

section steps

variable {v : Invented} {p : Progress} {t : Token} {following : Option Token}

theorem cardinalStep_eq :
    cardinalStep p t = valueStep p t ((cardinal? (Text.fold t.text)).getD 0) := by
  unfold cardinalStep valueStep
  dsimp only
  generalize (cardinal? (Text.fold t.text)).getD 0 = value
  cases Magnitude.of? value (p.places + 1) <;> rfl

theorem scaleStep_eq : scaleStep p t = factorStep p t ((scale? (Text.fold t.text)).getD 1) := by
  rw [scaleStep, factorStep]

/-- No word has a value here that it does not have by itself. -/
theorem stepWith_standard : stepWith .standard p t following = step p t following := by
  unfold stepWith
  split
  · rename_i hword
    rw [step_of_numberWord hword, cardinalStep_eq, Invented.standard]
  split
  · rename_i hscale
    rw [step_of_isScale hscale, scaleStep_eq, Invented.standard]
  · rfl

/-- Nothing is invented for a token that has the role of its text. -/
theorem stepWith_of_isResolved (h : t.IsResolved) :
    stepWith v p t following = step p t following := by
  rw [← stepWith_standard, stepWith, stepWith]
  split
  · rename_i hword
    obtain ⟨n, hn⟩ := Option.isSome_iff_exists.mp (h.isSome_cardinal? hword)
    rw [hn, Option.getD_some, Option.getD_some]
  split
  · rename_i hscale
    obtain ⟨n, hn⟩ := Option.isSome_iff_exists.mp (h.isSome_scale? hscale)
    rw [hn, Option.getD_some, Option.getD_some]
  · rfl

end steps

section runs

variable (next : Progress → Token → Option Token → Step)

def readBy (run : List Token) (p : Progress) (k : Nat) :
    List Token → Except CondenseFailure (Progress × Nat)
  | [] => .ok (p, k)
  | t :: ts =>
    match next p t ts.head? with
    | .stop => .ok (p, k)
    | .next p => readBy run p (k + 1) ts
    | .fault f => .error (problem f run (k + 1))
    | .placesExhausted => .error .placesExhausted

def tokenBy (negative : Bool) (run : List Token) (k : Nat) (place : Position) :
    Except CondenseFailure (Token × Nat) := do
  let (progress, taken) ← readBy next run .start k (run.drop k)
  match progress.value? with
  | some m => .ok (⟨.number, (Decimal.mk negative m).render, .numericLiteral, place⟩, taken)
  | none => .error (problem .tooLarge run taken)

variable {next} {run ts : List Token}

theorem readBy_eq (h : ∀ t ∈ ts, ∀ p following, next p t following = step p t following)
    (p : Progress) (k : Nat) : readBy next run p k ts = read run p k ts := by
  induction ts generalizing p k with
  | nil => rfl
  | cons t ts ih =>
    obtain ⟨ht, hts⟩ := List.forall_mem_cons.mp h
    rw [readBy, read, ht]
    cases step p t ts.head? with
    | next p => exact ih hts p (k + 1)
    | stop | fault _ | placesExhausted => rfl

theorem tokenBy_eq (h : ∀ t ∈ run, ∀ p following, next p t following = step p t following)
    (negative : Bool) (k : Nat) (place : Position) :
    tokenBy next negative run k place = token negative run k place := by
  have hread : readBy next run .start k (run.drop k) = read run .start k (run.drop k) :=
    readBy_eq (fun t ht => h t (List.mem_of_mem_drop ht)) .start k
  unfold tokenBy token
  exact hread ▸ rfl

end runs

end Number.Spelled

section condensing

open Spelled

variable (next : Progress → Token → Option Token → Step)

def Number.spelledBy? : List Token → Except CondenseFailure (Option (Token × Nat))
  | [] => .ok none
  | first :: ts =>
    if first.keyword = .negative then
      match ts with
      | [] => .ok none
      | lead :: _ =>
        if lead.kind = .number ∧ lead.text.toList.head? ≠ some '-' then
          .ok (some (⟨.number, "-" ++ lead.text, .numericLiteral, first.position⟩, 2))
        else if lead.keyword = .numberWord then
          (tokenBy next true (first :: ts) 1 first.position).map some
        else .ok none
    else if first.keyword = .numberWord then
      (tokenBy next false (first :: ts) 0 first.position).map some
    else .ok none

def Condense.groupBy (t : Token) (ts : List Token) : Except CondenseFailure (Token × Nat) := do
  match ← spelledBy? next (t :: ts) with
  | some number => .ok number
  | none =>
    if t.keyword = .fin then .ok ({ t with keyword := .blockEnd }, 1)
    else
      match Phrase.find? (t :: ts) with
      | some p =>
        let text := Token.render ((t :: ts).take p.length)
        .ok ({ t with text, keyword := p.role }, p.length)
      | none => .ok (t, 1)

def Condense.groupsBy : Nat → List Token → Except CondenseFailure (List Token)
  | 0, _ => .ok []
  | _ + 1, [] => .ok []
  | n + 1, t :: ts => do
    let (token, taken) ← groupBy next t ts
    let rest ← groupsBy n ((t :: ts).drop taken)
    .ok (token :: rest)

def condenseWith (v : Invented) (ts : List Token) : Except CondenseFailure (List Token) :=
  Condense.groupsBy (stepWith v) ts.length ts

variable {next} {t : Token} {ts : List Token}

theorem Number.spelledBy?_eq
    (h : ∀ t ∈ ts, ∀ p following, next p t following = step p t following) :
    spelledBy? next ts = spelled? ts := by
  cases ts with
  | nil => rfl
  | cons first ts =>
    rw [spelledBy?.eq_def, spelled?.eq_def]
    dsimp only
    by_cases hsign : first.keyword = .negative
    · rw [if_pos hsign, if_pos hsign]
      cases ts with
      | nil => rfl
      | cons lead ts =>
        dsimp only
        rw [tokenBy_eq h]
    · rw [if_neg hsign, if_neg hsign, tokenBy_eq h]

theorem Condense.groupBy_eq
    (h : ∀ u ∈ t :: ts, ∀ p following, next p u following = step p u following) :
    groupBy next t ts = group t ts := by
  unfold groupBy group
  exact spelledBy?_eq h ▸ rfl

theorem Condense.groupsBy_eq
    (h : ∀ t ∈ ts, ∀ p following, next p t following = step p t following) (n : Nat) :
    groupsBy next n ts = groups n ts := by
  induction n generalizing ts with
  | zero => rfl
  | succ n ih =>
    cases ts with
    | nil => rfl
    | cons t ts =>
      have hbehind (taken : Nat) :
          groupsBy next n ((t :: ts).drop taken) = groups n ((t :: ts).drop taken) :=
        ih fun u hu => h u (List.mem_of_mem_drop hu)
      rw [groupsBy, groups, groupBy_eq h]
      simp only [hbehind]

variable {v : Invented}

/-- Condensing is condensing with zero and one for the words that have no value. -/
theorem condenseWith_standard : condenseWith .standard ts = condense ts :=
  Condense.groupsBy_eq (fun _ _ _ _ => stepWith_standard) ts.length

theorem condenseWith_of_isResolved (h : ∀ t ∈ ts, t.IsResolved) :
    condenseWith v ts = condense ts :=
  Condense.groupsBy_eq (fun t ht _ _ => stepWith_of_isResolved (h t ht)) ts.length

/-- Without the role of its text, a word is what it is taken for. -/
example :
    let ts : List Token := [⟨.word, "blank", .numberWord, ⟨1, 1, "t"⟩⟩]
    (condenseWith ⟨fun _ => 7, fun _ => 9⟩ ts).toOption.map (·.map (·.text)) = some ["7"] ∧
      (condense ts).toOption.map (·.map (·.text)) = some ["0"] := by
  decide +kernel

end condensing

section ordinals

variable {ts us : List Token}

/-- Condensing makes no ordinals. -/
theorem Condense.Becomes.mem_of_ordinal (h : Condense.Becomes ts us) :
    ∀ u ∈ us, u.keyword = .ordinal → u ∈ ts := by
  induction h with
  | nil => exact fun _ hu => absurd hu List.not_mem_nil
  | cons hgroup _ ih =>
    intro u hu hordinal
    obtain rfl | hu := List.mem_cons.mp hu
    · obtain hmade | ⟨rfl, -⟩ := isMade_or_alone hgroup
      · rw [hordinal] at hmade
        exact absurd hmade (by decide)
      · exact List.mem_cons_self ..
    · exact List.mem_of_mem_drop (ih u hu hordinal)

/-- Folding a folded text changes nothing, and the role of a text is the role of the folded one: that
of a cardinal, of a scale word or of an ordinal just where the folded text has such a value. So if
tokens have the roles of their texts, what condensing takes for a word without a value does not matter,
and every ordinal among them, and among the condensed tokens, has the value of its word. -/
theorem numberWords_have_values :
    (∀ text, Text.fold (Text.fold text) = Text.fold text ∧
      Keyword.ofText (Text.fold text) = Keyword.ofText text) ∧
    (∀ text,
      (Keyword.ofText text = .numberWord ↔ (cardinal? (Text.fold text)).isSome = true) ∧
      ((Keyword.ofText text).isScale = true ↔ (scale? (Text.fold text)).isSome = true) ∧
      (Keyword.ofText text = .ordinal ↔ (ordinal? (Text.fold text)).isSome = true)) ∧
    (∀ ts, condenseWith .standard ts = condense ts) ∧
    ∀ ts : List Token, (∀ t ∈ ts, t.IsResolved) →
      (∀ v, condenseWith v ts = condense ts) ∧
      ∀ us, us = ts ∨ condense ts = .ok us → ∀ u ∈ us, u.keyword = .ordinal →
        ∃ n d, ordinal? (Text.fold u.text) = some n ∧ Decimal.ofNat? n = some d ∧
          u.ordinalValue = .ok (.number d) := by
  refine ⟨fun text => ⟨Text.fold_fold text, ?_⟩, fun text => ?_, fun _ => condenseWith_standard,
    fun ts hts => ⟨fun v => condenseWith_of_isResolved hts, fun us hus u hu hordinal => ?_⟩⟩
  · exact congrArg Keyword.ofFolded (Text.fold_fold text)
  · exact ⟨Keyword.ofFolded_eq_numberWord_iff, Keyword.isScale_ofFolded_iff,
      Keyword.ofFolded_eq_ordinal_iff⟩
  · have hmem : u ∈ ts := by
      obtain rfl | hcondense := hus
      · exact hu
      · exact (Condense.becomes_of_groups le_rfl hcondense).mem_of_ordinal u hu hordinal
    exact (hts u hmem).exists_ordinalValue hordinal

def capitalThird : Token :=
  .ofText .word "Third" ⟨1, 30, "t"⟩

def accentedWords : List Token :=
  ["Négative", " Twö ", "HUNDRED", "and", "fivé"].map (Token.ofText .word · ⟨1, 1, "t"⟩) ++
    [capitalThird]

theorem numberWords_have_values_accentedWords :
    (∀ t ∈ accentedWords, t.IsResolved) ∧
      condenseWith ⟨fun _ => 7, fun _ => 9⟩ accentedWords = condense accentedWords ∧
      (condense accentedWords).toOption.map (·.map (·.text)) = some ["-205", "Third"] ∧
      capitalThird ∈ accentedWords ∧ capitalThird.keyword = .ordinal ∧
      ∃ d, Decimal.ofNat? 3 = some d ∧ capitalThird.ordinalValue = .ok (.number d) := by
  have hresolved : ∀ t ∈ accentedWords, t.IsResolved := by
    intro t ht
    obtain ht | ht := List.mem_append.mp ht
    · obtain ⟨text, -, rfl⟩ := List.mem_map.mp ht
      exact ⟨_, _, _, rfl⟩
    · rw [List.mem_singleton.mp ht]
      exact ⟨_, _, _, rfl⟩
  have hmem : capitalThird ∈ accentedWords := List.mem_concat_self ..
  have hordinal : capitalThird.keyword = .ordinal := by decide +kernel
  have hthree : ordinal? (Text.fold capitalThird.text) = some 3 := by decide +kernel
  obtain ⟨-, -, -, hvalues⟩ := numberWords_have_values
  obtain ⟨hinvented, hordinals⟩ := hvalues accentedWords hresolved
  obtain ⟨n, d, hn, hd, hvalue⟩ := hordinals accentedWords (.inl rfl) capitalThird hmem hordinal
  cases Option.some.inj (hn.symm.trans hthree)
  exact ⟨hresolved, hinvented _, by decide +kernel, hmem, hordinal, d, hd, hvalue⟩

end ordinals

end Prose
