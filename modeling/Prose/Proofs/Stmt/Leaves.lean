import Prose.Proofs.Expr.Leaves
import Prose.Proofs.Stmt.Derivation

namespace Prose

namespace Stmt

def leavesParams (ps : List Param) : List Leaf :=
  ps.map fun p => .name p.name

mutual

def leaves : Stmt → List Leaf
  | entryPoint _ body => leavesAll body
  | functionDefinition _ n ps body => .name n :: (leavesParams ps ++ leavesAll body)
  | structureDefinition _ n fs => .name n :: leavesParams fs
  | block _ body => leavesAll body
  | conditional _ c body branches d =>
    c.leaves ++ (leavesAll body ++ (leavesBranches branches ++
      match d with
      | some b => leavesAll b
      | none => []))
  | whileLoop _ c body | untilLoop _ c body => c.leaves ++ leavesAll body
  | doWhile _ body c | doUntil _ body c => leavesAll body ++ c.leaves
  | forEach _ n e body => .name n :: (e.leaves ++ leavesAll body)
  | forRange _ n a b step body =>
    .name n :: (a.leaves ++ (b.leaves ++ (Expr.leavesList step.toList ++ leavesAll body)))
  | repeatLoop _ e body => e.leaves ++ leavesAll body
  | tryCatch _ body n handler cleanup =>
    leavesAll body ++ ((n.toList.map .name ++ leavesAll handler) ++
      match cleanup with
      | some b => leavesAll b
      | none => [])
  | returning _ e => Expr.leavesList e.toList
  | breaking _ | continuing _ | exiting _ => []
  | throwing _ e | print _ e | assertion _ e | expression _ e => e.leaves
  | assignment _ x e | listAdd _ x e | listRemove _ x e => x.leaves ++ e.leaves
  | declaration _ n e => .name n :: e.leaves
  | increment _ n e | decrement _ n e => .name n :: Expr.leavesList e.toList
  | swap _ l r => [.name l, .name r]
  | readInto _ n => [.name n]
  | importing _ n => [.value (.text n)]
termination_by structural st => st

def leavesAll : List Stmt → List Leaf
  | [] => []
  | st :: sts => leaves st ++ leavesAll sts
termination_by structural sts => sts

def leavesBranches : List Branch → List Leaf
  | [] => []
  | .mk _ c body :: branches => (c.leaves ++ leavesAll body) ++ leavesBranches branches
termination_by structural branches => branches

end

def leavesOption (body : Option (List Stmt)) : List Leaf :=
  (body.map leavesAll).getD []

theorem leaves_conditional (p : Position) (c : Expr) (body : List Stmt) (branches : List Branch)
    (d : Option (List Stmt)) : (conditional p c body branches d).leaves =
      c.leaves ++ (leavesAll body ++ (leavesBranches branches ++ leavesOption d)) := by
  cases d <;> simp only [leaves, leavesOption, Option.map, Option.getD]

theorem leaves_tryCatch (p : Position) (body : List Stmt) (n : Option String)
    (handler : List Stmt) (cleanup : Option (List Stmt)) :
    (tryCatch p body n handler cleanup).leaves =
      leavesAll body ++ ((n.toList.map .name ++ leavesAll handler) ++ leavesOption cleanup) := by
  cases cleanup <;> simp only [leaves, leavesOption, Option.map, Option.getD]

end Stmt

def Token.isMisnamed (t : Token) : Bool :=
  t.kind == .identifier && t.name?.isNone

/-- A relation of tokens and leaves that goes through all parts of expressions, the end of a statement,
blocks, and a `catch` with a token behind it that is no name. -/
structure Stmt.Accounts (φ : List Token → List Leaf → Prop) : Prop extends Prose.Accounts φ where
  dot {t : Token} (h : t.keyword = .endOfStatement) : φ [t] []
  brace {o c : Token} {ts : List Token} {ls : List Leaf} (ho : o.keyword = .blockStart)
    (hc : c.keyword = .blockEnd) (h : φ ts ls) : φ (o :: (ts ++ [c])) ls
  misnamed {t x : Token} (ht : t.keyword = .catchWord) (hx : x.isMisnamed = true) : φ [t, x] []

section account

variable {φ : List Token → List Leaf → Prop}

theorem Param.DerivesList.account (hφ : Prose.Accounts φ) {ps : List Param} {ts : List Token}
    (h : Param.DerivesList ps ts) : φ ts (Stmt.leavesParams ps) := by
  induction h with
  | last h => exact hφ.name h
  | more h hu _ ih => exact hφ.append (hφ.name h) (hφ.cons (isMute_of_keyword hu rfl) ih)

theorem Param.DerivesOptional.account (hφ : Prose.Accounts φ) {ps : List Param} {ts : List Token}
    (h : Param.DerivesOptional ps ts) : φ ts (Stmt.leavesParams ps) := by
  cases h with
  | none => exact hφ.nil
  | some ht h => exact hφ.cons (isMute_of_keyword ht rfl) (h.account hφ)

theorem Expr.DerivesOptional.account (hφ : Prose.Accounts φ) {k : Keyword} (hk : k.isMute = true)
    {e : Option Expr} {ts : List Token} (h : Expr.DerivesOptional k e ts) :
    φ ts (Expr.leavesList e.toList) := by
  cases h with
  | none => exact hφ.nil
  | some ht h =>
    simp only [Option.toList_some, Expr.leavesList, List.append_nil]
    exact hφ.cons (isMute_of_keyword ht hk) (h.account hφ)

end account

namespace Stmt

theorem isMute_of_mem {t : Token} {ks : List Keyword} (ht : t.keyword ∈ ks)
    (hks : ∀ k ∈ ks, k.isMute = true) : t.keyword.isMute = true :=
  hks _ ht

section dots

variable {φ : List Token → List Leaf → Prop} (hφ : Accounts φ) {d : Token} {ts : List Token}
  {ls : List Leaf}
include hφ

theorem Accounts.dot_cons (hd : d.keyword = .endOfStatement) (h : φ ts ls) : φ (d :: ts) ls :=
  hφ.append (hφ.dot hd) h

theorem Accounts.concat_dot (h : φ ts ls) (hd : d.keyword = .endOfStatement) : φ (ts ++ [d]) ls := by
  have happend := hφ.append h (hφ.dot hd)
  rwa [List.append_nil] at happend

end dots

mutual

/-- A relation that goes through all parts of statements holds of all that the grammar derives. -/
theorem Derives.account {φ : List Token → List Leaf → Prop} (hφ : Accounts φ) {st : Stmt}
    {ts : List Token} : st.Derives ts → φ ts st.leaves
  -- Words are mute; names, values and parts follow each other as their leaves do.
  | .terminated h hd => hφ.concat_dot (h.account hφ) hd
  | .entryPoint ht hu h => by
    simp only [leaves]
    exact hφ.cons (isMute_of_keyword ht rfl) (hφ.cons (isMute_of_keyword hu rfl) (h.account hφ))
  | .functionDefinition ht hn hps hu h => by
    simp only [leaves]
    refine hφ.cons (isMute_of_keyword ht rfl) (hφ.append (hφ.name hn) ?_)
    exact hφ.between (hps.account hφ.toAccounts) (isMute_of_keyword hu rfl) (h.account hφ)
  | .structureDefinition ht hn hfs => by
    simp only [leaves]
    refine hφ.cons (isMute_of_keyword ht rfl) (hφ.append (hφ.name hn) ?_)
    exact hfs.account hφ.toAccounts
  | .block h => by
    simp only [leaves]
    exact h.account hφ
  | .conditional ht hc hu hb h => by
    rw [leaves_conditional]
    refine hφ.cons (isMute_of_keyword ht rfl) ?_
    refine hφ.between (hc.account hφ.toAccounts) (isMute_of_keyword hu rfl) ?_
    exact hφ.append (hb.account hφ) (h.account hφ)
  | .whileLoop ht hc hu h => by
    simp only [leaves]
    refine hφ.cons (isMute_of_keyword ht rfl) ?_
    exact hφ.between (hc.account hφ.toAccounts) (isMute_of_keyword hu rfl) (h.account hφ)
  | .untilLoop ht hc hu h => by
    simp only [leaves]
    refine hφ.cons (isMute_of_keyword ht rfl) ?_
    exact hφ.between (hc.account hφ.toAccounts) (isMute_of_keyword hu rfl) (h.account hφ)
  | .doWhile ht h hu hc => by
    simp only [leaves]
    refine hφ.cons (isMute_of_keyword ht rfl) ?_
    exact hφ.between (h.account hφ) (isMute_of_keyword hu rfl) (hc.account hφ.toAccounts)
  | .doUntil ht h hu hc => by
    simp only [leaves]
    refine hφ.cons (isMute_of_keyword ht rfl) ?_
    exact hφ.between (h.account hφ) (isMute_of_keyword hu rfl) (hc.account hφ.toAccounts)
  | .forEach ht hn hu he hv h => by
    simp only [leaves]
    refine hφ.cons (isMute_of_keyword ht rfl) (hφ.append (hφ.name hn) ?_)
    refine hφ.cons (isMute_of_keyword hu rfl) ?_
    exact hφ.between (he.account hφ.toAccounts) (isMute_of_keyword hv rfl) (h.account hφ)
  | .forRange ht hn hu ha hv hb hstep hw h => by
    simp only [leaves]
    refine hφ.cons (isMute_of_keyword ht rfl) (hφ.append (hφ.name hn) ?_)
    refine hφ.cons (isMute_of_keyword hu rfl) ?_
    refine hφ.between (ha.account hφ.toAccounts) (isMute_of_keyword hv rfl) ?_
    refine hφ.append (hb.account hφ.toAccounts) ?_
    exact hφ.between (hstep.account hφ.toAccounts rfl) (isMute_of_keyword hw rfl) (h.account hφ)
  | .repeatLoop ht he hu h => by
    simp only [leaves]
    refine hφ.cons (isMute_of_keyword ht rfl) ?_
    exact hφ.between (he.account hφ.toAccounts) (isMute_of_keyword hu rfl) (h.account hφ)
  | .tryCatch ht hb hh hc => by
    rw [leaves_tryCatch]
    refine hφ.cons (isMute_of_keyword ht rfl) (hφ.append (hb.account hφ) ?_)
    exact hφ.append (hh.account hφ) (hc.account hφ)
  | .returning ht => by
    simp only [leaves, Option.toList_none, Expr.leavesList]
    exact hφ.word (isMute_of_keyword ht rfl)
  | .returningValue ht he => by
    simp only [leaves, Option.toList_some, Expr.leavesList, List.append_nil]
    exact hφ.cons (isMute_of_keyword ht rfl) (he.account hφ.toAccounts)
  | .breaking ht => by
    simp only [leaves]
    exact hφ.word (isMute_of_keyword ht rfl)
  | .continuing ht => by
    simp only [leaves]
    exact hφ.word (isMute_of_keyword ht rfl)
  | .exiting ht => by
    simp only [leaves]
    exact hφ.word (isMute_of_keyword ht rfl)
  | .throwing ht he => by
    simp only [leaves]
    exact hφ.cons (isMute_of_mem ht (by decide)) (he.account hφ.toAccounts)
  | .assignment ht _ hx hu he => by
    simp only [leaves]
    refine hφ.cons (isMute_of_keyword ht rfl) ?_
    exact hφ.between (hx.account hφ.toAccounts) (isMute_of_keyword hu rfl) (he.account hφ.toAccounts)
  | .declaration ht hn hu he => by
    simp only [leaves]
    refine hφ.cons (isMute_of_keyword ht rfl) (hφ.append (hφ.name hn) ?_)
    exact hφ.cons (isMute_of_keyword hu rfl) (he.account hφ.toAccounts)
  | .increment ht hn he => by
    simp only [leaves]
    refine hφ.cons (isMute_of_keyword ht rfl) (hφ.append (hφ.name hn) ?_)
    exact he.account hφ.toAccounts rfl
  | .decrement ht hn he => by
    simp only [leaves]
    refine hφ.cons (isMute_of_keyword ht rfl) (hφ.append (hφ.name hn) ?_)
    exact he.account hφ.toAccounts rfl
  | .swap ht hl hu hr => by
    simp only [leaves]
    refine hφ.cons (isMute_of_keyword ht rfl) (hφ.append (hφ.name hl) ?_)
    exact hφ.cons (isMute_of_keyword hu rfl) (hφ.name hr)
  | .listAdd ht he hu hl => by
    simp only [leaves]
    refine hφ.cons (isMute_of_keyword ht rfl) ?_
    exact hφ.between (he.account hφ.toAccounts) (isMute_of_keyword hu rfl) (hl.account hφ.toAccounts)
  | .listRemove ht he hu hl => by
    simp only [leaves]
    refine hφ.cons (isMute_of_keyword ht rfl) ?_
    exact hφ.between (he.account hφ.toAccounts) (isMute_of_keyword hu rfl) (hl.account hφ.toAccounts)
  | .print ht he => by
    simp only [leaves]
    exact hφ.cons (isMute_of_mem ht (by decide)) (he.account hφ.toAccounts)
  | .readInto ht hn => by
    simp only [leaves]
    exact hφ.cons (isMute_of_keyword ht rfl) (hφ.name hn)
  | .assertion ht he => by
    simp only [leaves]
    exact hφ.cons (isMute_of_keyword ht rfl) (he.account hφ.toAccounts)
  | .importing ht hx => by
    simp only [leaves]
    exact hφ.cons (isMute_of_keyword ht rfl) (hφ.value hx)
  | .expression he => by
    simp only [leaves]
    exact he.account hφ.toAccounts
termination_by structural h => h

theorem DerivesBlock.account {φ : List Token → List Leaf → Prop} (hφ : Accounts φ)
    {body : List Stmt} {ts : List Token} : DerivesBlock body ts → φ ts (leavesAll body)
  | .nil => by
    simp only [leavesAll]
    exact hφ.nil
  | .dot hd h => hφ.dot_cons hd (h.account hφ)
  | .cons h hs => by
    simp only [leavesAll]
    exact hφ.append (h.account hφ) (hs.account hφ)
termination_by structural h => h

theorem DerivesBraced.account {φ : List Token → List Leaf → Prop} (hφ : Accounts φ)
    {body : List Stmt} {ts : List Token} : DerivesBraced body ts → φ ts (leavesAll body)
  | .mk ho h hc => hφ.brace ho hc (h.account hφ)
termination_by structural h => h

theorem DerivesBody.account {φ : List Token → List Leaf → Prop} (hφ : Accounts φ)
    {body : List Stmt} {ts : List Token} : DerivesBody body ts → φ ts (leavesAll body)
  | .braced h => h.account hφ
  | .plain h => h.account hφ
  | .terminated h hd => hφ.concat_dot (h.account hφ) hd
termination_by structural h => h

theorem DerivesFurther.account {φ : List Token → List Leaf → Prop} (hφ : Accounts φ)
    {branches : List Branch} {d : Option (List Stmt)} {ts : List Token} :
    DerivesFurther branches d ts → φ ts (leavesBranches branches ++ leavesOption d)
  | .nil => by
    simp only [leavesBranches]
    exact hφ.nil
  | .dot hd h => hφ.dot_cons hd (h.account hφ)
  | .otherwiseIf ht hc hu hb h => by
    simp only [leavesBranches, List.append_assoc]
    refine hφ.cons (isMute_of_keyword ht rfl) ?_
    refine hφ.between (hc.account hφ.toAccounts) (isMute_of_keyword hu rfl) ?_
    exact hφ.append (hb.account hφ) (h.account hφ)
  | .otherwise ht hb => by
    simp only [leavesBranches, List.nil_append]
    exact hφ.cons (isMute_of_keyword ht rfl) (hb.account hφ)
termination_by structural h => h

theorem DerivesHandler.account {φ : List Token → List Leaf → Prop} (hφ : Accounts φ)
    {n : Option String} {body : List Stmt} {ts : List Token} :
    DerivesHandler n body ts → φ ts (n.toList.map .name ++ leavesAll body)
  | .named ht hn h => by
    refine hφ.cons (isMute_of_keyword ht rfl) ?_
    exact hφ.append (hφ.name hn) (h.account hφ)
  | .misnamed ht hk hn h =>
    hφ.append (hφ.misnamed ht (by simp [Token.isMisnamed, hk, hn])) (h.account hφ)
  | .unnamed ht h => hφ.cons (isMute_of_keyword ht rfl) (h.account hφ)
termination_by structural h => h

theorem DerivesCleanup.account {φ : List Token → List Leaf → Prop} (hφ : Accounts φ)
    {cleanup : Option (List Stmt)} {ts : List Token} :
    DerivesCleanup cleanup ts → φ ts (leavesOption cleanup)
  | .none => hφ.nil
  | .some ht h => hφ.cons (isMute_of_keyword ht rfl) (h.account hφ)
termination_by structural h => h

end

section relations

variable {t x : Token}

/-- A token that bears a name or a value is a name, or has another kind. -/
theorem isMisnamed_of_bears {l : Leaf} (h : t.Bears l) : t.isMisnamed = false := by
  rw [Token.isMisnamed]
  by_cases hk : t.kind = .identifier
  · have hleaf := h.leaf
    simp only [Token.leaf?, hk] at hleaf
    obtain ⟨n, hn, -⟩ := Option.map_eq_some_iff.mp hleaf
    rw [hn, Option.isNone_some, Bool.and_false]
  · rw [beq_eq_false_iff_ne.mpr hk, Bool.false_and]

theorem isPlain_of_isMisnamed (h : x.isMisnamed = true) : x.kind.isPlain = true := by
  rw [Token.isMisnamed, Bool.and_eq_true, beq_iff_eq] at h
  rw [h.1]
  rfl

theorem isMisnamed_of_not_content (h : t.isContent = false) : t.isMisnamed = false := by
  rw [Token.isContent, Bool.or_eq_false_iff] at h
  rw [← Bool.not_eq_true]
  intro hx
  rw [isPlain_of_isMisnamed hx] at h
  cases h.1

/-- Every bracket is closed by one of its kind. -/
theorem accounts_wellNested : Accounts fun ts _ => (∀ t ∈ ts, t.IsRegular) → WellNested ts where
  toAccounts := Prose.accounts_wellNested
  dot hd _ := wellNested_singleton ⟨by rw [hd]; rfl, by rw [hd]; rfl⟩
  brace ho hc h hr := by
    rw [List.forall_mem_cons, List.forall_mem_append] at hr
    exact .bracket (b := .brace) ho hc (h hr.2.1) .nil
  misnamed ht hx hr := by
    obtain ⟨-, hr⟩ := List.forall_mem_cons.mp hr
    have hflat := Token.isFlat_of_plain (hr _ (List.mem_singleton_self _)) (isPlain_of_isMisnamed hx)
    exact .flat (Token.isFlat_of_isMute (isMute_of_keyword ht rfl)) (wellNested_singleton hflat)

/-- The names and values are those of the tokens that stand for one and are not misnamed. -/
theorem accounts_named : Accounts fun ts ls => (∀ t ∈ ts, t.IsRegular) →
    (ts.filter fun t => t.isContent && !t.isMisnamed).map Token.leaf? = ls.map some where
  toAccounts := by
    refine accounts_filter (fun h => ?_) fun h => ?_
    · rw [h.content, isMisnamed_of_bears h, Bool.not_false, Bool.and_true]
    · rw [h, Bool.false_and]
  dot {t} hd hr := by
    have hdot := Token.isContent_of_dot (hr t (List.mem_singleton_self t)) hd
    simp [hdot]
  brace {o c ts ls} ho hc h hr := by
    have hmute {t : Token} (ht : t.isContent = false) : (t.isContent && !t.isMisnamed) = false := by
      rw [ht, Bool.false_and]
    rw [filter_bracketed hmute .brace ho hc hr]
    exact h fun t ht => hr t (List.mem_cons_of_mem o (List.mem_append_left [c] ht))
  misnamed {t x} ht hx hr := by
    have hmute := Token.isContent_of_isMute (hr t (List.mem_cons_self ..)) (isMute_of_keyword ht rfl)
    simp [hmute, hx]

end relations

/-- What stands in the place of a name and is none stands directly behind a `catch`. -/
def OnlyCatchMisnames (ts : List Token) : Prop :=
  ∀ before x behind, ts = before ++ x :: behind → x.isMisnamed = true →
    before.getLast?.map (·.keyword) = some .catchWord

namespace OnlyCatchMisnames

variable {ts us : List Token} {t : Token}

theorem of_forall (h : ∀ t ∈ ts, t.isMisnamed = false) : OnlyCatchMisnames ts := by
  rintro before x behind rfl hx
  have hnot := h x (by simp)
  rw [hx] at hnot
  cases hnot

theorem append (h : OnlyCatchMisnames ts) (h' : OnlyCatchMisnames us) :
    OnlyCatchMisnames (ts ++ us) := by
  intro before x behind heq hx
  -- The token stands in the second list, or in the first one, or it is the first of the second.
  rcases List.append_eq_append_iff.mp heq with ⟨as, rfl, hus⟩ | ⟨bs, hts, hus⟩
  · have hlast := h' as x behind hus hx
    obtain ⟨c, hc, hkey⟩ := Option.map_eq_some_iff.mp hlast
    rw [List.getLast?_append, hc, Option.some_or, Option.map_some, hkey]
  · cases bs with
    -- Nothing stands in front of it in its own list, so it is not misnamed there.
    | nil => cases h' [] x behind hus.symm hx
    | cons b bs =>
      cases hus
      exact h before x bs hts hx

/-- A bracket is no name, nor is it a `catch`. -/
theorem bracketed {b : Bracket} {o c : Token} (ho : o.keyword = b.opener) (hc : c.keyword = b.closer)
    (hr : ∀ t ∈ o :: (ts ++ [c]), t.IsRegular)
    (h : (∀ t ∈ ts, t.IsRegular) → OnlyCatchMisnames ts) : OnlyCatchMisnames (o :: (ts ++ [c])) := by
  rw [List.forall_mem_cons, List.forall_mem_append] at hr
  have hend {t : Token} (ht : t.IsRegular) (hk : t.keyword = b.opener ∨ t.keyword = b.closer) :
      OnlyCatchMisnames [t] :=
    .of_forall (List.forall_mem_singleton.mpr
      (isMisnamed_of_not_content (Token.isContent_of_bracket ht hk)))
  have hinner := (h hr.2.1).append (hend (hr.2.2 c (List.mem_singleton_self c)) (.inr hc))
  exact (hend hr.1 (.inl ho)).append hinner

end OnlyCatchMisnames

theorem accounts_onlyCatchMisnames :
    Accounts fun ts _ => (∀ t ∈ ts, t.IsRegular) → OnlyCatchMisnames ts := by
  -- A word is no content, and what stands for a name or a value bears it. So the one case that needs
  -- an argument is the token behind a `catch`.
  have hsingleton {t : Token} (h : t.isMisnamed = false) : OnlyCatchMisnames [t] :=
    .of_forall (List.forall_mem_singleton.mpr h)
  constructor
  case toAccounts =>
    constructor
    case nil => exact fun _ => .of_forall (by simp)
    case append =>
      intro ts us _ _ h h' hr
      rw [List.forall_mem_append] at hr
      exact (h hr.1).append (h' hr.2)
    case word =>
      intro t ht hr
      exact hsingleton (isMisnamed_of_not_content
        (Token.isContent_of_isMute (hr t (List.mem_singleton_self t)) ht))
    case name =>
      intro t n h hr
      exact hsingleton (isMisnamed_of_bears (Token.bears_name (hr t (List.mem_singleton_self t)) h))
    case value =>
      intro t v h hr
      exact hsingleton (isMisnamed_of_bears (Token.bears_value (hr t (List.mem_singleton_self t)) h))
    case paren =>
      intro o c ts _ ho hc h hr
      exact .bracketed (b := .paren) ho hc hr h
  case dot =>
    intro t hd hr
    exact hsingleton (isMisnamed_of_not_content
      (Token.isContent_of_dot (hr t (List.mem_singleton_self t)) hd))
  case brace =>
    intro o c ts _ ho hc h hr
    exact .bracketed (b := .brace) ho hc hr h
  case misnamed =>
    intro t x ht _ hr before y behind heq hy
    cases before with
    | nil =>
      cases heq
      rw [isMisnamed_of_not_content (Token.isContent_of_isMute (hr t (List.mem_cons_self ..))
        (isMute_of_keyword ht rfl))] at hy
      cases hy
    | cons b before =>
      obtain ⟨rfl, heq⟩ := List.cons_eq_cons.mp heq
      cases before with
      | nil => rw [List.getLast?_singleton, Option.map_some, ht]
      | cons b before => simp at heq

end Stmt

end Prose
