import Prose.Inquiry

namespace Prose.Inquiry

variable {Q : Type} {R : Q → Type} {α β : Type}

/-- What an inquiry comes to when `reply` answers its questions. A failing answer ends it. -/
def resolve (reply : (q : Q) → Except Problem (R q)) : Inquiry Q R α → Except Problem α
  | done a => .ok a
  | fail p => .error p
  | ask q next =>
    match reply q with
    | .ok r => (next r).resolve reply
    | .error p => .error p

inductive Asks (P : Q → Prop) : Inquiry Q R α → Prop
  | done (a : α) : (done a).Asks P
  | fail (p : Problem) : (fail p).Asks P
  | ask {q : Q} {next : R q → Inquiry Q R α} (hq : P q) (hnext : ∀ r, (next r).Asks P) :
      (ask q next).Asks P

section resolve

variable (reply : (q : Q) → Except Problem (R q))

theorem resolve_ask (q : Q) (next : R q → Inquiry Q R α) :
    (ask q next).resolve reply = (reply q).bind fun r => (next r).resolve reply := by
  rw [resolve]
  cases reply q <;> rfl

@[simp] theorem resolve_pure (a : α) :
    (pure a : Inquiry Q R α).resolve reply = .ok a := rfl

@[simp] theorem resolve_done (a : α) : (done a : Inquiry Q R α).resolve reply = .ok a := rfl

@[simp] theorem resolve_fail (p : Problem) :
    (fail p : Inquiry Q R α).resolve reply = .error p := rfl

@[simp] theorem resolve_question (q : Q) : (question q).resolve reply = reply q := by
  simp only [question, resolve]
  cases reply q <;> rfl

@[simp] theorem resolve_bind (x : Inquiry Q R α) (f : α → Inquiry Q R β) :
    (x >>= f).resolve reply = (x.resolve reply).bind fun a => (f a).resolve reply := by
  change (x.bind f).resolve reply = _
  induction x with
  | done a => rfl
  | fail p => rfl
  | ask q next ih =>
    simp only [bind, resolve]
    cases reply q with
    | error p => rfl
    | ok r => exact ih r

/-- A computation is done in two steps if both are. -/
theorem resolve_bind_eq_ok {reply : (q : Q) → Except Problem (R q)} {x : Inquiry Q R α}
    {f : α → Inquiry Q R β} {b : β} : (x >>= f).resolve reply = .ok b ↔
      ∃ a, x.resolve reply = .ok a ∧ (f a).resolve reply = .ok b := by
  rw [resolve_bind]
  cases x.resolve reply with
  | error p => simp [Except.bind]
  | ok a => simp [Except.bind]

@[simp] theorem resolve_map (x : Inquiry Q R α) (f : α → β) :
    (f <$> x).resolve reply = (x.resolve reply).map f := by
  change (x >>= fun a => pure (f a)).resolve reply = _
  rw [resolve_bind]
  cases x.resolve reply <;> rfl

end resolve

section asks

variable {P : Q → Prop}

theorem asks_question {q : Q} (h : P q) : (question q : Inquiry Q R (R q)).Asks P :=
  .ask h fun r => .done r

theorem asks_bind {x : Inquiry Q R α} {f : α → Inquiry Q R β} (hx : x.Asks P)
    (hf : ∀ a, (f a).Asks P) : (x >>= f).Asks P := by
  change (x.bind f).Asks P
  induction hx with
  | done a => exact hf a
  | fail p => exact .fail p
  | ask hq _ ih => exact .ask hq ih

theorem asks_map {x : Inquiry Q R α} (f : α → β) (hx : x.Asks P) : (f <$> x).Asks P :=
  asks_bind hx fun a => .done (f a)

theorem Asks.mono {P' : Q → Prop} (h : ∀ q, P q → P' q) {x : Inquiry Q R α} (hx : x.Asks P) :
    x.Asks P' := by
  induction hx with
  | done a => exact .done a
  | fail p => exact .fail p
  | ask hq _ ih => exact .ask (h _ hq) ih

/-- Only the answers to the questions that can be asked matter. -/
theorem resolve_congr {reply reply' : (q : Q) → Except Problem (R q)}
    (h : ∀ q, P q → reply q = reply' q) {x : Inquiry Q R α} (hx : x.Asks P) :
    x.resolve reply = x.resolve reply' := by
  induction hx with
  | done a => rfl
  | fail p => rfl
  | @ask q next hq _ ih =>
    simp only [resolve, ← h q hq]
    cases reply q with
    | error p => rfl
    | ok r => exact ih r

/-- Answers that agree on what can be asked give the same run. -/
theorem run_congr {m : Type → Type} [Monad m]
    {answer answer' : (q : Q) → ExceptT Problem m (R q)} (h : ∀ q, P q → answer q = answer' q)
    {x : Inquiry Q R α} (hx : x.Asks P) : x.run answer = x.run answer' := by
  induction hx with
  | done a => rfl
  | fail p => rfl
  | ask hq _ ih =>
    rw [Inquiry.run, Inquiry.run, h _ hq]
    apply bind_congr
    intro r
    exact ih r

end asks

/-- The inquiry ends in the answer `a` when its questions have answers that `A` allows. -/
inductive Reaches (A : (q : Q) → R q → Prop) : Inquiry Q R α → α → Prop
  | done (a : α) : Reaches A (done a) a
  | ask {q : Q} {r : R q} {next : R q → Inquiry Q R α} {a : α} (hq : A q r)
      (hnext : Reaches A (next r) a) : Reaches A (ask q next) a

section reaches

variable {A : (q : Q) → R q → Prop}

theorem reaches_pure (a : α) : Reaches A (pure a : Inquiry Q R α) a := .done a

theorem reaches_question {q : Q} {r : R q} (h : A q r) : Reaches A (question q) r :=
  .ask h (.done r)

theorem reaches_bind {x : Inquiry Q R α} {f : α → Inquiry Q R β} {a : α} {b : β}
    (hx : Reaches A x a) (hf : Reaches A (f a) b) : Reaches A (x >>= f) b := by
  change Reaches A (x.bind f) b
  induction hx with
  | done a => exact hf
  | ask hq _ ih => exact .ask hq (ih hf)

theorem reaches_map {x : Inquiry Q R α} {a : α} (f : α → β) (hx : Reaches A x a) :
    Reaches A (f <$> x) (f a) :=
  reaches_bind hx (.done (f a))

@[simp] theorem reaches_pure_iff {a b : α} :
    Reaches A (pure b : Inquiry Q R α) a ↔ a = b := by
  constructor
  · intro h
    cases h
    rfl
  · rintro rfl
    exact reaches_pure a

@[simp] theorem not_reaches_fail (p : Problem) (a : α) :
    ¬ Reaches A (fail p : Inquiry Q R α) a := by
  intro h
  cases h

@[simp] theorem reaches_question_iff {q : Q} {r : R q} : Reaches A (question q) r ↔ A q r := by
  constructor
  · intro h
    cases h with
    | ask hq hnext =>
      cases hnext
      exact hq
  · exact reaches_question

theorem reaches_bind_iff {x : Inquiry Q R α} {f : α → Inquiry Q R β} {b : β} :
    Reaches A (x >>= f) b ↔ ∃ a, Reaches A x a ∧ Reaches A (f a) b := by
  constructor
  · intro h
    change Reaches A (x.bind f) b at h
    induction x with
    | done a => exact ⟨a, .done a, h⟩
    | fail p => cases h
    | ask q next ih =>
      cases h with
      | ask hq hnext =>
        obtain ⟨a, ha, hb⟩ := ih _ hnext
        exact ⟨a, .ask hq ha, hb⟩
  · rintro ⟨a, ha, hb⟩
    exact reaches_bind ha hb

theorem reaches_map_iff {x : Inquiry Q R α} {f : α → β} {b : β} :
    Reaches A (f <$> x) b ↔ ∃ a, Reaches A x a ∧ b = f a := by
  change Reaches A (x >>= fun a => pure (f a)) b ↔ _
  simp only [reaches_bind_iff, reaches_pure_iff]

/-- More answers reach more. -/
theorem Reaches.mono {B : (q : Q) → R q → Prop} (h : ∀ q r, A q r → B q r) {x : Inquiry Q R α}
    {a : α} (hx : Reaches A x a) : Reaches B x a := by
  induction hx with
  | done a => exact .done a
  | ask hq _ ih => exact .ask (h _ _ hq) ih

/-- What an inquiry reaches it reaches by answers to questions that it can ask. -/
theorem Reaches.of_asks {P : Q → Prop} {x : Inquiry Q R α} {a : α} (hx : Reaches A x a)
    (hasks : x.Asks P) : Reaches (fun q r => P q ∧ A q r) x a := by
  induction hx with
  | done a => exact .done a
  | ask hq _ ih =>
    cases hasks with
    | ask hP hnext => exact .ask ⟨hP, hq⟩ (ih (hnext _))

end reaches

section yields

variable {A : (q : Q) → R q → Prop} {E : α → Prop} {F : β → Prop}

/-- All that the inquiry can end in with answers that are allowed satisfies `E`. -/
def Yields (A : (q : Q) → R q → Prop) (E : α → Prop) (x : Inquiry Q R α) : Prop :=
  ∀ a, Reaches A x a → E a

theorem yields_pure {a : α} (h : E a) : (pure a : Inquiry Q R α).Yields A E := by
  intro b hb
  rw [reaches_pure_iff.mp hb]
  exact h

theorem yields_fail (p : Problem) : (fail p : Inquiry Q R α).Yields A E :=
  fun a ha => absurd ha (not_reaches_fail p a)

theorem yields_question (q : Q) : (question q : Inquiry Q R (R q)).Yields A (A q) :=
  fun _ hr => reaches_question_iff.mp hr

theorem yields_bind {x : Inquiry Q R β} {f : β → Inquiry Q R α} (hx : x.Yields A F)
    (hf : ∀ b, F b → (f b).Yields A E) : (x >>= f).Yields A E := by
  intro a ha
  obtain ⟨b, hb, hfb⟩ := reaches_bind_iff.mp ha
  exact hf b (hx b hb) a hfb

theorem yields_map {x : Inquiry Q R β} {f : β → α} (hx : x.Yields A fun b => E (f b)) :
    (f <$> x).Yields A E := by
  intro a ha
  obtain ⟨b, hb, rfl⟩ := reaches_map_iff.mp ha
  exact hx b hb

theorem yields_any (x : Inquiry Q R α) : x.Yields A fun _ => True :=
  fun _ _ => trivial

end yields

section ends

variable {E : α → Prop}

def Ends (E : α → Prop) (x : Inquiry Q R α) : Prop :=
  ∀ a, Reaches (fun _ _ => True) x a → E a

theorem ends_pure {a : α} (h : E a) : (pure a : Inquiry Q R α).Ends E :=
  yields_pure h

theorem ends_fail (p : Problem) : (fail p : Inquiry Q R α).Ends E :=
  yields_fail p

/-- Only the last step decides about the result. -/
theorem ends_bind {x : Inquiry Q R β} {f : β → Inquiry Q R α} (hf : ∀ b, (f b).Ends E) :
    (x >>= f).Ends E :=
  yields_bind (yields_any x) fun b _ => hf b

theorem ends_map {x : Inquiry Q R β} {f : β → α} (hx : x.Ends fun b => E (f b)) :
    (f <$> x).Ends E :=
  yields_map hx

end ends

/-- What an inquiry reaches it still reaches when its questions are asked as other inquiries. -/
theorem reaches_translate {Q' : Type} {R' : Q' → Type} {A : (q : Q) → R q → Prop}
    {A' : (q : Q') → R' q → Prop} {asked : (q : Q) → Inquiry Q' R' (R q)}
    (h : ∀ q r, A q r → Reaches A' (asked q) r) {x : Inquiry Q R α} {a : α} (hx : Reaches A x a) :
    Reaches A' (x.translate asked) a := by
  induction hx with
  | done a => exact .done a
  | ask hq _ ih => exact reaches_bind (h _ _ hq) ih

/-- An inquiry whose questions are asked as other inquiries reaches what it reaches by the answers
that these reach. -/
theorem reaches_of_reaches_translate {Q' : Type} {R' : Q' → Type} {A : (q : Q) → R q → Prop}
    {A' : (q : Q') → R' q → Prop} {asked : (q : Q) → Inquiry Q' R' (R q)}
    (h : ∀ q r, Reaches A' (asked q) r → A q r) {x : Inquiry Q R α} {a : α}
    (hx : Reaches A' (x.translate asked) a) : Reaches A x a := by
  induction x with
  | done b =>
    cases hx
    exact .done _
  | fail p => cases hx
  | ask q next ih =>
    obtain ⟨r, hr, hrest⟩ := reaches_bind_iff.mp hx
    exact .ask (h q r hr) (ih r hrest)

theorem asks_translate {Q' : Type} {R' : Q' → Type} {P : Q → Prop} {P' : Q' → Prop}
    {asked : (q : Q) → Inquiry Q' R' (R q)} (h : ∀ q, P q → (asked q).Asks P')
    {x : Inquiry Q R α} (hx : x.Asks P) : (x.translate asked).Asks P' := by
  induction hx with
  | done a => exact .done a
  | fail p => exact .fail p
  | ask hq _ ih => exact asks_bind (h _ hq) ih

/-- An inquiry that resolves reaches what it resolves to. -/
theorem reaches_of_resolve {P : Q → Prop} {reply : (q : Q) → Except Problem (R q)}
    {x : Inquiry Q R α} (hx : x.Asks P) {a : α} (h : x.resolve reply = .ok a) :
    Reaches (fun q r => P q ∧ reply q = .ok r) x a := by
  induction hx with
  | done b =>
    cases h
    exact .done _
  | fail p => cases h
  | @ask q next hq _ ih =>
    rw [resolve] at h
    match hr : reply q with
    | .ok r =>
      rw [hr] at h
      exact .ask ⟨hq, hr⟩ (ih r h)
    | .error p =>
      rw [hr] at h
      cases h

/-- What an inquiry reaches by the answers of `reply` is what it resolves to. -/
theorem resolve_of_reaches {A : (q : Q) → R q → Prop} {reply : (q : Q) → Except Problem (R q)}
    (h : ∀ q r, A q r → reply q = .ok r) {x : Inquiry Q R α} {a : α} (hx : Reaches A x a) :
    x.resolve reply = .ok a := by
  induction hx with
  | done a => rfl
  | ask hq _ ih =>
    rw [resolve, h _ _ hq]
    exact ih

/-- A failing step ends a run; what it did to the state stays. -/
theorem run_bind {S : Type} (x : ExceptT Problem (StateM S) α) (f : α → ExceptT Problem (StateM S) β)
    (σ : S) :
    (x >>= f).run.run σ =
      match x.run.run σ with
      | (.ok a, τ) => (f a).run.run τ
      | (.error p, τ) => (.error p, τ) := by
  have hrun : (x >>= f).run.run σ =
      (ExceptT.bindCont f (x.run.run σ).1 : StateM S (Except Problem β)).run (x.run.run σ).2 := rfl
  rw [hrun]
  obtain ⟨a | a, τ⟩ := x.run.run σ <;> rfl

/-- A run in two steps ends well if both do. -/
theorem run_bind_eq_ok {S : Type} {x : ExceptT Problem (StateM S) α}
    {f : α → ExceptT Problem (StateM S) β} {σ υ : S} {b : β} :
    (x >>= f).run.run σ = (.ok b, υ) ↔
      ∃ a τ, x.run.run σ = (.ok a, τ) ∧ (f a).run.run τ = (.ok b, υ) := by
  rw [run_bind]
  obtain ⟨p | a, τ⟩ := x.run.run σ
  · constructor
    · intro h
      cases h
    · rintro ⟨a, τ', h, -⟩
      cases h
  · constructor
    · exact fun h => ⟨a, τ, rfl, h⟩
    · rintro ⟨a', τ', h, h'⟩
      cases h
      exact h'

/-- A run in two steps fails if one of them does. -/
theorem run_bind_eq_error {S : Type} {x : ExceptT Problem (StateM S) α}
    {f : α → ExceptT Problem (StateM S) β} {σ υ : S} {p : Problem} :
    (x >>= f).run.run σ = (.error p, υ) ↔ x.run.run σ = (.error p, υ) ∨
      ∃ a τ, x.run.run σ = (.ok a, τ) ∧ (f a).run.run τ = (.error p, υ) := by
  rw [run_bind]
  obtain ⟨q | a, τ⟩ := x.run.run σ
  · constructor
    · intro h
      cases h
      exact .inl rfl
    · rintro (h | ⟨a, τ', h, -⟩)
      · cases h
        rfl
      · cases h
  · constructor
    · exact fun h => .inr ⟨a, τ, rfl, h⟩
    · rintro (h | ⟨a', τ', h, h'⟩)
      · cases h
      · cases h
        exact h'

/-- An inquiry behind another one is run behind it. -/
theorem run_bind_query {m : Type → Type} [Monad m] [LawfulMonad m]
    (answer : (q : Q) → ExceptT Problem m (R q)) (x : Inquiry Q R α) (f : α → Inquiry Q R β) :
    (x >>= f).run answer = x.run answer >>= fun a => (f a).run answer := by
  change (x.bind f).run answer = _
  induction x with
  | done a => exact (pure_bind a fun a => (f a).run answer).symm
  | fail p =>
    apply ExceptT.ext
    simp [bind, run]
  | ask q next ih =>
    rw [bind, run, run, bind_assoc]
    apply bind_congr
    intro r
    exact ih r

/-- What a run of the inquiry ends in. -/
theorem Ends.of_run {S : Type} {E : α → Prop} {x : Inquiry Q R α} (hx : x.Ends E)
    {answer : (q : Q) → ExceptT Problem (StateM S) (R q)} {σ τ : S} {a : α}
    (hrun : (x.run answer).run.run σ = (.ok a, τ)) : E a := by
  induction x generalizing σ with
  | done b =>
    cases hrun
    exact hx a (.done a)
  | fail p => cases hrun
  | ask q next ih =>
    rw [Inquiry.run, run_bind] at hrun
    generalize (answer q).run.run σ = first at hrun
    obtain ⟨p | r, υ⟩ := first
    · cases hrun
    · refine ih r ?_ hrun
      intro b hb
      exact hx b (.ask trivial hb)

/-- An inquiry run with a state comes to what the answers alone make of it, or ends with one of the
problems `E`, if this is so for each single answer. The invariant `I` of the states is kept. -/
theorem run_resolve {S : Type} {P : Q → Prop} {I : S → Prop} {E : Problem → Prop}
    (answer : (q : Q) → ExceptT Problem (StateM S) (R q))
    (reply : (q : Q) → Except Problem (R q))
    (h : ∀ q, P q → ∀ σ, I σ → ∃ r τ, (answer q).run.run σ = (r, τ) ∧ I τ ∧
      (r = reply q ∨ ∃ p, E p ∧ r = .error p))
    {x : Inquiry Q R α} (hx : x.Asks P) {σ : S} (hσ : I σ) :
    ∃ r τ, (x.run answer).run.run σ = (r, τ) ∧ I τ ∧
      (r = x.resolve reply ∨ ∃ p, E p ∧ r = .error p) := by
  induction hx generalizing σ with
  | done a => exact ⟨_, σ, rfl, hσ, .inl rfl⟩
  | fail p => exact ⟨_, σ, rfl, hσ, .inl rfl⟩
  | @ask q next hq _ ih =>
    obtain ⟨r, τ, hr, hτ, he⟩ := h q hq σ hσ
    rw [Inquiry.run, run_bind, hr]
    match r, he with
    | .ok r, .inl he =>
      obtain ⟨r', τ', hr', hτ', he'⟩ := ih r hτ
      exact ⟨r', τ', hr', hτ', by simpa only [resolve, ← he] using he'⟩
    | .error p, .inl he => exact ⟨_, τ, rfl, hτ, .inl (by simp only [resolve, ← he])⟩
    | .error p, .inr ⟨p', hp, he⟩ => exact ⟨_, τ, rfl, hτ, .inr ⟨p', hp, by cases he; rfl⟩⟩

/-- Answers that agree in the states that `I` allows give the same run there, if they keep to them. -/
theorem run_eq_of_keeps {S : Type} {P : Q → Prop} {I : S → Prop}
    {answer answer' : (q : Q) → ExceptT Problem (StateM S) (R q)}
    (h : ∀ q, P q → ∀ σ, I σ → (answer q).run.run σ = (answer' q).run.run σ ∧
      I ((answer q).run.run σ).2)
    {x : Inquiry Q R α} (hx : x.Asks P) {σ : S} (hσ : I σ) :
    (x.run answer).run.run σ = (x.run answer').run.run σ ∧ I ((x.run answer).run.run σ).2 := by
  induction hx generalizing σ with
  | done a => exact ⟨rfl, hσ⟩
  | fail p => exact ⟨rfl, hσ⟩
  | @ask q next hq _ ih =>
    obtain ⟨hsame, hτ⟩ := h q hq σ hσ
    rw [Inquiry.run, Inquiry.run, run_bind, run_bind, ← hsame]
    generalize (answer q).run.run σ = first at hτ
    obtain ⟨p | r, τ⟩ := first
    · exact ⟨rfl, hτ⟩
    · exact ih r hτ

def FailsWith (E : Problem → Prop) (r : Except Problem α) : Prop :=
  ∃ p, E p ∧ r = .error p

instance (E : Problem → Prop) [DecidablePred E] : (r : Except Problem α) → Decidable (FailsWith E r)
  | .ok _ => isFalse fun ⟨_, _, h⟩ => nomatch h
  | .error p => decidable_of_iff (E p) ⟨fun hp => ⟨p, hp, rfl⟩, fun ⟨_, hp, h⟩ => by
    cases h
    exact hp⟩

/-- Where two steps differ by problems of `E` only, so does one behind the other. -/
theorem bind_eq_or {E : Problem → Prop} {r r' : Except Problem α}
    {next next' : α → Except Problem β} (hr : r' = r ∨ FailsWith E r')
    (hnext : ∀ a, next' a = next a ∨ FailsWith E (next' a)) :
    r'.bind next' = r.bind next ∨ FailsWith E (r'.bind next') := by
  rcases hr with rfl | ⟨p, hp, rfl⟩
  · cases r' with
    | ok a => exact hnext a
    | error p => exact .inl rfl
  · exact .inr ⟨p, hp, rfl⟩

/-- Where answers differ by problems of `E` only, so do the results. -/
theorem resolve_eq_or {P : Q → Prop} {E : Problem → Prop}
    {reply reply' : (q : Q) → Except Problem (R q)}
    (h : ∀ q, P q → reply' q = reply q ∨ FailsWith E (reply' q)) {x : Inquiry Q R α}
    (hx : x.Asks P) : x.resolve reply' = x.resolve reply ∨ FailsWith E (x.resolve reply') := by
  induction hx with
  | done a => exact .inl rfl
  | fail p => exact .inl rfl
  | ask hq _ ih =>
    rw [resolve_ask, resolve_ask]
    exact bind_eq_or (h _ hq) ih

/-- A step that is run comes to `r`, or fails with a problem of `E` where `r'` does, and so does the
step behind it. Then both steps do, `r'` and what is behind it differing by such problems only. -/
theorem run_bind_or {S : Type} {E : Problem → Prop} {x : ExceptT Problem (StateM S) α}
    {f : α → ExceptT Problem (StateM S) β} {r r' : Except Problem α}
    {next next' : α → Except Problem β} {σ : S}
    (hx : (x.run.run σ).1 = r ∨ FailsWith E (x.run.run σ).1 ∧ FailsWith E r')
    (hr : r' = r ∨ FailsWith E r')
    (hf : ∀ a τ, x.run.run σ = (.ok a, τ) → ((f a).run.run τ).1 = next a ∨
      FailsWith E ((f a).run.run τ).1 ∧ FailsWith E (next' a)) :
    ((x >>= f).run.run σ).1 = r.bind next ∨
      FailsWith E ((x >>= f).run.run σ).1 ∧ FailsWith E (r'.bind next') := by
  rw [run_bind]
  generalize x.run.run σ = first at hx hf
  obtain ⟨result, τ⟩ := first
  rcases hx with rfl | ⟨⟨p, hp, hresult⟩, p', hp', rfl⟩
  · cases result with
    | error p => exact .inl rfl
    | ok a =>
      rcases hf a τ rfl with hnext | ⟨hfails, hfails'⟩
      · exact .inl hnext
      -- The other answers fail at this step, or they go on in the same way.
      · refine .inr ⟨hfails, ?_⟩
        rcases hr with rfl | ⟨p, hp, rfl⟩
        · exact hfails'
        · exact ⟨p, hp, rfl⟩
  · cases hresult
    exact .inr ⟨⟨p, hp, rfl⟩, p', hp', rfl⟩

/-- An inquiry run with a state comes to what the answers `reply` alone make of it, or fails with a
problem of `E` where the answers `reply'` make it fail so too. The latter differ from the former by
such problems only. -/
theorem run_resolve_or {S : Type} {P : Q → Prop} {I : S → Prop} {E : Problem → Prop}
    (answer : (q : Q) → ExceptT Problem (StateM S) (R q))
    (reply reply' : (q : Q) → Except Problem (R q))
    (h : ∀ q, P q → ∀ σ, I σ → I ((answer q).run.run σ).2 ∧
      (((answer q).run.run σ).1 = reply q ∨
        FailsWith E ((answer q).run.run σ).1 ∧ FailsWith E (reply' q)))
    (h' : ∀ q, P q → reply' q = reply q ∨ FailsWith E (reply' q))
    {x : Inquiry Q R α} (hx : x.Asks P) {σ : S} (hσ : I σ) :
    I ((x.run answer).run.run σ).2 ∧
      (((x.run answer).run.run σ).1 = x.resolve reply ∨
        FailsWith E ((x.run answer).run.run σ).1 ∧ FailsWith E (x.resolve reply')) := by
  induction hx generalizing σ with
  | done a => exact ⟨hσ, .inl rfl⟩
  | fail p => exact ⟨hσ, .inl rfl⟩
  | @ask q next hq _ ih =>
    obtain ⟨hτ, hfirst⟩ := h q hq σ hσ
    have hlater (r : R q) (τ : S) (hrun : (answer q).run.run σ = (.ok r, τ)) : I τ := by
      rw [hrun] at hτ
      exact hτ
    rw [Inquiry.run, resolve_ask, resolve_ask]
    refine ⟨?_, run_bind_or hfirst (h' q hq) fun r τ hrun => (ih r (hlater r τ hrun)).2⟩
    rw [run_bind]
    generalize (answer q).run.run σ = first at hτ hlater
    obtain ⟨r | r, τ⟩ := first
    · exact hτ
    · exact (ih r hτ).1

/-- An inquiry run with a state ends in an answer that it reaches, or fails with a problem of `E`, if
each of its questions is answered so. The invariant `I` of the states is kept. -/
theorem run_of_reaches_or {S : Type} {A : (q : Q) → R q → Prop} {I : S → Prop}
    {E : Problem → Prop} (answer : (q : Q) → ExceptT Problem (StateM S) (R q))
    (h : ∀ q r, A q r → ∀ σ, I σ → (∃ τ, (answer q).run.run σ = (.ok r, τ) ∧ I τ) ∨
      FailsWith E ((answer q).run.run σ).1)
    {x : Inquiry Q R α} {a : α} (hx : Reaches A x a) {σ : S} (hσ : I σ) :
    (∃ τ, (x.run answer).run.run σ = (.ok a, τ) ∧ I τ) ∨
      FailsWith E ((x.run answer).run.run σ).1 := by
  induction hx generalizing σ with
  | done a => exact .inl ⟨σ, rfl, hσ⟩
  | ask hq _ ih =>
    rw [Inquiry.run, run_bind]
    rcases h _ _ hq σ hσ with ⟨τ, hr, hτ⟩ | ⟨p, hp, hfails⟩
    · rw [hr]
      exact ih hτ
    · generalize (answer _).run.run σ = first at hfails ⊢
      obtain ⟨r, τ⟩ := first
      cases hfails
      exact .inr ⟨p, hp, rfl⟩

/-- An inquiry run in two states that are related comes to the same in both, which stay related, unless
it fails in the first one with a problem of `E`, if this is so for each single answer. -/
theorem run_both_or {S : Type} {P : Q → Prop} {T : S → S → Prop} {E : Problem → Prop}
    (answer : (q : Q) → ExceptT Problem (StateM S) (R q))
    (h : ∀ q, P q → ∀ σ τ, T σ τ →
      ((answer q).run.run τ).1 = ((answer q).run.run σ).1 ∧
          T ((answer q).run.run σ).2 ((answer q).run.run τ).2 ∨
        FailsWith E ((answer q).run.run σ).1)
    {x : Inquiry Q R α} (hx : x.Asks P) {σ τ : S} (hστ : T σ τ) :
    ((x.run answer).run.run τ).1 = ((x.run answer).run.run σ).1 ∧
        T ((x.run answer).run.run σ).2 ((x.run answer).run.run τ).2 ∨
      FailsWith E ((x.run answer).run.run σ).1 := by
  induction hx generalizing σ τ with
  | done a => exact .inl ⟨rfl, hστ⟩
  | fail p => exact .inl ⟨rfl, hστ⟩
  | @ask q next hq _ ih =>
    have hfirst := h q hq σ τ hστ
    rw [Inquiry.run, run_bind, run_bind]
    generalize (answer q).run.run σ = first at hfirst ⊢
    generalize (answer q).run.run τ = first' at hfirst ⊢
    obtain ⟨r, σ'⟩ := first
    obtain ⟨r', τ'⟩ := first'
    -- Either both have the same answer, with which both go on, or the first one fails here.
    rcases hfirst with ⟨hsame, hστ'⟩ | ⟨p, hp, hfails⟩
    · cases hsame
      cases r with
      | error p => exact .inl ⟨rfl, hστ'⟩
      | ok r => exact ih r hστ'
    · cases hfails
      exact .inr ⟨p, hp, rfl⟩

/-- An inquiry run with a state ends in an answer that it reaches, if each of its questions is
answered so. The invariant `I` of the states is kept. -/
theorem run_of_reaches {S : Type} {A : (q : Q) → R q → Prop} {I : S → Prop}
    (answer : (q : Q) → ExceptT Problem (StateM S) (R q))
    (h : ∀ q r, A q r → ∀ σ, I σ → ∃ τ, (answer q).run.run σ = (.ok r, τ) ∧ I τ)
    {x : Inquiry Q R α} {a : α} (hx : Reaches A x a) {σ : S} (hσ : I σ) :
    ∃ τ, (x.run answer).run.run σ = (.ok a, τ) ∧ I τ := by
  induction hx generalizing σ with
  | done a => exact ⟨σ, rfl, hσ⟩
  | ask hq _ ih =>
    obtain ⟨τ, hr, hτ⟩ := h _ _ hq σ hσ
    obtain ⟨υ, hr', hυ⟩ := ih hτ
    exact ⟨υ, by rw [Inquiry.run, run_bind, hr]; exact hr', hυ⟩

/-- An inquiry run with a state keeps the states in a relation that each of its answers keeps, and
reaches the answer it ends in. What answered its questions happened between the two states. -/
theorem run_reaches {S : Type} {K : S → S → Prop} (hrefl : ∀ σ, K σ σ)
    (htrans : ∀ {σ τ υ}, K σ τ → K τ υ → K σ υ) {P : Q → Prop}
    (answer : (q : Q) → ExceptT Problem (StateM S) (R q))
    (h : ∀ q, P q → ∀ σ, K σ ((answer q).run.run σ).2) {x : Inquiry Q R α} (hx : x.Asks P)
    (σ : S) : K σ ((x.run answer).run.run σ).2 ∧
      ∀ a τ, (x.run answer).run.run σ = (.ok a, τ) →
        Reaches (fun q r => P q ∧ ∃ σ' τ', K σ σ' ∧ (answer q).run.run σ' = (.ok r, τ') ∧ K τ' τ)
          x a := by
  induction hx generalizing σ with
  | done b =>
    refine ⟨hrefl σ, fun a τ hrun => ?_⟩
    cases hrun
    exact .done _
  | fail p => exact ⟨hrefl σ, fun a τ hrun => by cases hrun⟩
  | @ask q next hq _ ih =>
    have hfirst := h q hq σ
    rw [Inquiry.run, run_bind]
    match hr : (answer q).run.run σ with
    | (.error p, υ) =>
      rw [hr] at hfirst
      exact ⟨hfirst, fun a τ hrun => by cases hrun⟩
    | (.ok r, υ) =>
      rw [hr] at hfirst
      obtain ⟨hrest, hreaches⟩ := ih r υ
      refine ⟨htrans hfirst hrest, fun a τ hrun => ?_⟩
      have hrunRest : K υ τ := by
        simp only at hrun
        rw [hrun] at hrest
        exact hrest
      -- What was asked later happened later, too.
      refine .ask ⟨hq, σ, υ, hrefl σ, hr, hrunRest⟩ ?_
      refine (hreaches a τ hrun).mono ?_
      rintro q' r' ⟨hq', σ', τ', hσ', hr', hτ'⟩
      exact ⟨hq', σ', τ', htrans hfirst hσ', hr', hτ'⟩

section blames

/-- Whatever the answers, the inquiry fails with nothing but problems of `E`, and its questions satisfy
`P`. -/
inductive Blames (P : Q → Prop) (E : Problem → Prop) : Inquiry Q R α → Prop
  | done (a : α) : Blames P E (done a)
  | fail {p : Problem} (h : E p) : Blames P E (fail p)
  | ask {q : Q} {next : R q → Inquiry Q R α} (hq : P q) (hnext : ∀ r, Blames P E (next r)) :
      Blames P E (ask q next)

variable {P : Q → Prop} {E : Problem → Prop} {x : Inquiry Q R α}

theorem blames_question {q : Q} (h : P q) : Blames P E (question q : Inquiry Q R (R q)) :=
  .ask h fun r => .done r

theorem blames_bind {f : α → Inquiry Q R β} (hx : Blames P E x) (hf : ∀ a, Blames P E (f a)) :
    Blames P E (x >>= f) := by
  change Blames P E (x.bind f)
  induction hx with
  | done a => exact hf a
  | fail h => exact .fail h
  | ask hq _ ih => exact .ask hq ih

theorem blames_map (f : α → β) (hx : Blames P E x) : Blames P E (f <$> x) :=
  blames_bind hx fun a => .done (f a)

theorem Blames.mono {P' : Q → Prop} {E' : Problem → Prop} (hP : ∀ q, P q → P' q)
    (hE : ∀ p, E p → E' p) (hx : Blames P E x) : Blames P' E' x := by
  induction hx with
  | done a => exact .done a
  | fail h => exact .fail (hE _ h)
  | ask hq _ ih => exact .ask (hP _ hq) ih

/-- What is known of the questions beside. -/
theorem Blames.of_asks {P' : Q → Prop} (hx : Blames P E x) (hasks : x.Asks P') :
    Blames (fun q => P q ∧ P' q) E x := by
  induction hx with
  | done a => exact .done a
  | fail h => exact .fail h
  | ask hq _ ih =>
    cases hasks with
    | ask hq' hnext => exact .ask ⟨hq, hq'⟩ fun r => ih r (hnext r)

theorem blames_translate {Q' : Type} {R' : Q' → Type} {P' : Q' → Prop}
    {asked : (q : Q) → Inquiry Q' R' (R q)} (h : ∀ q, P q → Blames P' E (asked q))
    (hx : Blames P E x) : Blames P' E (x.translate asked) := by
  induction hx with
  | done a => exact .done a
  | fail h => exact .fail h
  | ask hq _ ih => exact blames_bind (h _ hq) ih

end blames

end Prose.Inquiry
