import Prose.Proofs.Expr.Writing
import Prose.Stmt

namespace Prose

def Param.bare (p : Param) : Param :=
  ⟨p.name, .unknown⟩

namespace Stmt

mutual

def bare : Stmt → Stmt
  | entryPoint _ body => entryPoint .unknown (bareAll body)
  | functionDefinition _ n ps body =>
    functionDefinition .unknown n (ps.map Param.bare) (bareAll body)
  | structureDefinition _ n fs => structureDefinition .unknown n (fs.map Param.bare)
  | block _ body => block .unknown (bareAll body)
  | conditional _ c body branches elseBody =>
    conditional .unknown c.bare (bareAll body) (bareBranches branches)
      (match elseBody with
      | some b => some (bareAll b)
      | none => none)
  | whileLoop _ c body => whileLoop .unknown c.bare (bareAll body)
  | untilLoop _ c body => untilLoop .unknown c.bare (bareAll body)
  | doWhile _ body c => doWhile .unknown (bareAll body) c.bare
  | doUntil _ body c => doUntil .unknown (bareAll body) c.bare
  | forEach _ n e body => forEach .unknown n e.bare (bareAll body)
  | forRange _ n a b step body =>
    forRange .unknown n a.bare b.bare (step.map Expr.bare) (bareAll body)
  | repeatLoop _ e body => repeatLoop .unknown e.bare (bareAll body)
  | tryCatch _ body n handler cleanup =>
    tryCatch .unknown (bareAll body) n (bareAll handler)
      (match cleanup with
      | some b => some (bareAll b)
      | none => none)
  | returning _ e => returning .unknown (e.map Expr.bare)
  | breaking _ => breaking .unknown
  | continuing _ => continuing .unknown
  | exiting _ => exiting .unknown
  | throwing _ e => throwing .unknown e.bare
  | assignment _ t e => assignment .unknown t.bare e.bare
  | declaration _ n e => declaration .unknown n e.bare
  | increment _ n e => increment .unknown n (e.map Expr.bare)
  | decrement _ n e => decrement .unknown n (e.map Expr.bare)
  | swap _ l r => swap .unknown l r
  | listAdd _ e l => listAdd .unknown e.bare l.bare
  | listRemove _ e l => listRemove .unknown e.bare l.bare
  | print _ e => print .unknown e.bare
  | readInto _ n => readInto .unknown n
  | assertion _ e => assertion .unknown e.bare
  | importing _ n => importing .unknown n
  | expression _ e => expression .unknown e.bare
termination_by structural st => st

def bareAll : List Stmt → List Stmt
  | [] => []
  | st :: sts => bare st :: bareAll sts
termination_by structural sts => sts

def bareBranches : List Branch → List Branch
  | [] => []
  | .mk _ c body :: branches => .mk .unknown c.bare (bareAll body) :: bareBranches branches
termination_by structural branches => branches

end

theorem bare_tryCatch (p : Position) (body : List Stmt) (n : Option String) (handler : List Stmt)
    (cleanup : Option (List Stmt)) :
    (tryCatch p body n handler cleanup).bare =
      tryCatch .unknown (bareAll body) n (bareAll handler) (cleanup.map bareAll) := by
  cases cleanup <;> rfl

theorem bare_conditional (p : Position) (c : Expr) (body : List Stmt) (branches : List Branch)
    (elseBody : Option (List Stmt)) :
    (conditional p c body branches elseBody).bare =
      conditional .unknown c.bare (bareAll body) (bareBranches branches) (elseBody.map bareAll) := by
  cases elseBody <;> rfl

inductive WritesNames : List Param → List Token → Prop
  | last {n : String} {p : Position} {t : Token} (h : t.Names n) : WritesNames [⟨n, p⟩] [t]
  | more {n : String} {p : Position} {ps : List Param} {t : Token} {ts : List Token}
      (h : t.Names n) (w : Word .comma) (hps : WritesNames ps ts) :
      WritesNames (⟨n, p⟩ :: ps) (t :: w.val :: ts)

inductive WritesParams : List Param → List Token → Prop
  | none : WritesParams [] []
  | some {ps : List Param} {ts : List Token} (w : Word .withWord) (h : WritesNames ps ts) :
      WritesParams ps (w.val :: ts)

inductive WritesOptional (k : Keyword) : Option Expr → List Token → Prop
  | none : WritesOptional k none []
  | some {e : Expr} {ts : List Token} (w : Word k) (h : Expr.Wraps e ts) :
      WritesOptional k (some e) (w.val :: ts)

inductive WritesHandlerName : Option String → List Token → Prop
  | none : WritesHandlerName none []
  | some {n : String} {t : Token} (h : t.Names n) : WritesHandlerName (some n) [t]

def IsTarget : Expr → Prop
  | .identifier .. | .index .. => True
  | _ => False

mutual

inductive Writes : Stmt → List Token → Prop
  | entryPoint {p body ts} (u : Word .defineEntryPoint) (v : Word .asWord)
      (h : WritesBody body ts) : Writes (entryPoint p body) (u.val :: v.val :: ts)
  | functionDefinition {p n ps body us ts} {t : Token} (u : Word .defineFunction) (hn : t.Names n)
      (hps : WritesParams ps us) (v : Word .asWord) (h : WritesBody body ts) :
      Writes (functionDefinition p n ps body) (u.val :: t :: (us ++ v.val :: ts))
  | structureDefinition {p n fs us} {t : Token} (u : Word .defineStructure) (hn : t.Names n)
      (hfs : WritesParams fs us) (dot : Word .endOfStatement) :
      Writes (structureDefinition p n fs) (u.val :: t :: (us ++ [dot.val]))
  | block {p body ts} (h : WritesBody body ts) : Writes (block p body) ts
  | conditional {p c body branches d cs bs ts} (u : Word .ifWord) (hc : Expr.Wraps c cs)
      (v : Word .thenWord) (hb : WritesBody body bs) (h : WritesClauses branches d ts) :
      Writes (conditional p c body branches d) (u.val :: (cs ++ v.val :: (bs ++ ts)))
  | whileLoop {p c body cs ts} (u : Word .whileWord) (hc : Expr.Wraps c cs) (v : Word .doWord)
      (h : WritesBody body ts) : Writes (whileLoop p c body) (u.val :: (cs ++ v.val :: ts))
  | untilLoop {p c body cs ts} (u : Word .untilWord) (hc : Expr.Wraps c cs) (v : Word .doWord)
      (h : WritesBody body ts) : Writes (untilLoop p c body) (u.val :: (cs ++ v.val :: ts))
  | doWhile {p body c ts cs} (u : Word .doWord) (h : WritesBody body ts) (v : Word .whileWord)
      (hc : Expr.Wraps c cs) (dot : Word .endOfStatement) :
      Writes (doWhile p body c) (u.val :: (ts ++ v.val :: (cs ++ [dot.val])))
  | doUntil {p body c ts cs} (u : Word .doWord) (h : WritesBody body ts) (v : Word .untilWord)
      (hc : Expr.Wraps c cs) (dot : Word .endOfStatement) :
      Writes (doUntil p body c) (u.val :: (ts ++ v.val :: (cs ++ [dot.val])))
  | forEach {p n e body es ts} {t : Token} (u : Word .forEach) (hn : t.Names n) (v : Word .inWord)
      (he : Expr.Wraps e es) (w : Word .doWord) (h : WritesBody body ts) :
      Writes (forEach p n e body) (u.val :: t :: v.val :: (es ++ w.val :: ts))
  | forRange {p n x y step body xs ys ss ts} {t : Token} (u : Word .forWord) (hn : t.Names n)
      (v : Word .fromWord) (hx : Expr.Wraps x xs) (w : Word .to) (hy : Expr.Wraps y ys)
      (hstep : WritesOptional .byWord step ss) (d : Word .doWord) (h : WritesBody body ts) :
      Writes (forRange p n x y step body)
        (u.val :: t :: v.val :: (xs ++ w.val :: (ys ++ (ss ++ d.val :: ts))))
  | repeatLoop {p e body es ts} (u : Word .repeatWord) (he : Expr.Wraps e es) (v : Word .times)
      (h : WritesBody body ts) : Writes (repeatLoop p e body) (u.val :: (es ++ v.val :: ts))
  | tryCatch {p body n handler cleanup bs ns hs cs} (u : Word .tryWord) (hb : WritesBody body bs)
      (v : Word .catchWord) (hn : WritesHandlerName n ns) (hh : WritesBody handler hs)
      (hc : WritesCleanup cleanup cs) :
      Writes (tryCatch p body n handler cleanup) (u.val :: (bs ++ v.val :: (ns ++ (hs ++ cs))))
  | returning {p} (u : Word .returnWord) (dot : Word .endOfStatement) :
      Writes (returning p none) [u.val, dot.val]
  | returningValue {p e es} (u : Word .returnWord) (he : Expr.Wraps e es)
      (dot : Word .endOfStatement) : Writes (returning p (some e)) (u.val :: (es ++ [dot.val]))
  | breaking {p} (u : Word .breakWord) (dot : Word .endOfStatement) :
      Writes (breaking p) [u.val, dot.val]
  | continuing {p} (u : Word .continueWord) (dot : Word .endOfStatement) :
      Writes (continuing p) [u.val, dot.val]
  | exiting {p} (u : Word .exit) (dot : Word .endOfStatement) :
      Writes (exiting p) [u.val, dot.val]
  | throwing {p e es} {k : Keyword} (hk : k ∈ [.throw, .raise]) (u : Word k) (he : Expr.Wraps e es)
      (dot : Word .endOfStatement) :
      Writes (throwing p e) (u.val :: (es ++ [dot.val]))
  | assignment {p x e ts es} (u : Word .set) (hx : IsTarget x) (hts : Expr.Writes x ts)
      (v : Word .equalTo) (he : Expr.Wraps e es) (dot : Word .endOfStatement) :
      Writes (assignment p x e) (u.val :: (ts ++ v.val :: (es ++ [dot.val])))
  | declaration {p n e es} {t : Token} (u : Word .letWord) (hn : t.Names n) (v : Word .be)
      (he : Expr.Wraps e es) (dot : Word .endOfStatement) :
      Writes (declaration p n e) (u.val :: t :: v.val :: (es ++ [dot.val]))
  | increment {p n e es} {t : Token} (u : Word .increment) (hn : t.Names n)
      (he : WritesOptional .byWord e es) (dot : Word .endOfStatement) :
      Writes (increment p n e) (u.val :: t :: (es ++ [dot.val]))
  | decrement {p n e es} {t : Token} (u : Word .decrement) (hn : t.Names n)
      (he : WritesOptional .byWord e es) (dot : Word .endOfStatement) :
      Writes (decrement p n e) (u.val :: t :: (es ++ [dot.val]))
  | swap {p l r} {t t' : Token} (u : Word .swap) (hl : t.Names l) (v : Word .andWord)
      (hr : t'.Names r) (dot : Word .endOfStatement) :
      Writes (swap p l r) [u.val, t, v.val, t', dot.val]
  | listAdd {p e l es ls} (u : Word .add) (he : Expr.Wraps e es) (v : Word .to)
      (hl : Expr.Wraps l ls) (dot : Word .endOfStatement) :
      Writes (listAdd p e l) (u.val :: (es ++ v.val :: (ls ++ [dot.val])))
  | listRemove {p e l es ls} (u : Word .remove) (he : Expr.Wraps e es) (v : Word .fromWord)
      (hl : Expr.Wraps l ls) (dot : Word .endOfStatement) :
      Writes (listRemove p e l) (u.val :: (es ++ v.val :: (ls ++ [dot.val])))
  | print {p e es} {k : Keyword} (hk : k ∈ [.print, .display]) (u : Word k) (he : Expr.Wraps e es)
      (dot : Word .endOfStatement) :
      Writes (print p e) (u.val :: (es ++ [dot.val]))
  | readInto {p n} {t : Token} (u : Word .readInto) (hn : t.Names n)
      (dot : Word .endOfStatement) : Writes (readInto p n) [u.val, t, dot.val]
  | assertion {p e es} (u : Word .assert) (he : Expr.Wraps e es) (dot : Word .endOfStatement) :
      Writes (assertion p e) (u.val :: (es ++ [dot.val]))
  | importing {p n} {t : Token} (u : Word .importWord) (hn : t.Denotes (.text n))
      (dot : Word .endOfStatement) : Writes (importing p n) [u.val, t, dot.val]
  | expression {p e es} (he : Expr.Wraps e es) (dot : Word .endOfStatement) :
      Writes (expression p e) (es ++ [dot.val])

inductive WritesBody : List Stmt → List Token → Prop
  | braces {body ts} (o : Word .blockStart) (h : WritesAll body ts) (c : Word .blockEnd) :
      WritesBody body (o.val :: (ts ++ [c.val]))

inductive WritesAll : List Stmt → List Token → Prop
  | nil : WritesAll [] []
  | cons {st sts ts us} (h : Writes st ts) (hs : WritesAll sts us) :
      WritesAll (st :: sts) (ts ++ us)

inductive WritesClauses : List Branch → Option (List Stmt) → List Token → Prop
  | none : WritesClauses [] none []
  | otherwise {body ts} (u : Word .otherwise) (h : WritesBody body ts) :
      WritesClauses [] (some body) (u.val :: ts)
  | more {p c body branches d cs bs ts} (u : Word .otherwiseIf) (hc : Expr.Wraps c cs)
      (v : Word .thenWord) (hb : WritesBody body bs) (h : WritesClauses branches d ts) :
      WritesClauses (.mk p c body :: branches) d (u.val :: (cs ++ v.val :: (bs ++ ts)))

inductive WritesCleanup : Option (List Stmt) → List Token → Prop
  | none : WritesCleanup none []
  | some {body ts} (u : Word .finallyWord) (h : WritesBody body ts) :
      WritesCleanup (some body) (u.val :: ts)

end

mutual

def IsWritable : Stmt → Prop
  | entryPoint _ body => AreWritable body
  | functionDefinition _ n ps body => IsName n ∧ (∀ q ∈ ps, IsName q.name) ∧ AreWritable body
  | structureDefinition _ n fs => IsName n ∧ ∀ q ∈ fs, IsName q.name
  | block _ body => AreWritable body
  | conditional _ c body branches d =>
    c.IsWritable ∧ AreWritable body ∧ BranchesAreWritable branches ∧
      (match d with
      | some b => AreWritable b
      | none => True)
  | whileLoop _ c body => c.IsWritable ∧ AreWritable body
  | untilLoop _ c body => c.IsWritable ∧ AreWritable body
  | doWhile _ body c => AreWritable body ∧ c.IsWritable
  | doUntil _ body c => AreWritable body ∧ c.IsWritable
  | forEach _ n e body => IsName n ∧ e.IsWritable ∧ AreWritable body
  | forRange _ n a b step body =>
    IsName n ∧ a.IsWritable ∧ b.IsWritable ∧ (∀ e ∈ step, e.IsWritable) ∧ AreWritable body
  | repeatLoop _ e body => e.IsWritable ∧ AreWritable body
  | tryCatch _ body n handler cleanup =>
    AreWritable body ∧ (∀ m ∈ n, IsName m) ∧ AreWritable handler ∧
      (match cleanup with
      | some b => AreWritable b
      | none => True)
  | returning _ e => ∀ x ∈ e, x.IsWritable
  | breaking _ | continuing _ | exiting _ | importing .. => True
  | throwing _ e => e.IsWritable
  | assignment _ t e => IsTarget t ∧ t.IsWritable ∧ e.IsWritable
  | declaration _ n e => IsName n ∧ e.IsWritable
  | increment _ n e => IsName n ∧ ∀ x ∈ e, x.IsWritable
  | decrement _ n e => IsName n ∧ ∀ x ∈ e, x.IsWritable
  | swap _ l r => IsName l ∧ IsName r
  | listAdd _ e l => e.IsWritable ∧ l.IsWritable
  | listRemove _ e l => e.IsWritable ∧ l.IsWritable
  | print _ e => e.IsWritable
  | readInto _ n => IsName n
  | assertion _ e => e.IsWritable
  | expression _ e => e.IsWritable
termination_by structural st => st

def AreWritable : List Stmt → Prop
  | [] => True
  | st :: sts => IsWritable st ∧ AreWritable sts
termination_by structural sts => sts

def BranchesAreWritable : List Branch → Prop
  | [] => True
  | .mk _ c body :: branches => c.IsWritable ∧ AreWritable body ∧ BranchesAreWritable branches
termination_by structural branches => branches

end

section parts

theorem exists_operand {e : Expr} (h : e.IsWritable) : ∃ es, Expr.Wraps e es :=
  Expr.exists_wraps (Expr.exists_writes e h)

theorem exists_writesNames {p : Param} {ps : List Param} (h : ∀ q ∈ p :: ps, IsName q.name) :
    ∃ us, WritesNames (p :: ps) us := by
  induction ps generalizing p with
  | nil =>
    obtain ⟨t, ht⟩ := Expr.exists_names (h p (List.mem_cons_self ..))
    exact ⟨_, .last ht⟩
  | cons q ps ih =>
    obtain ⟨t, ht⟩ := Expr.exists_names (h p (List.mem_cons_self ..))
    obtain ⟨us, hus⟩ := ih fun r hr => h r (List.mem_cons_of_mem _ hr)
    exact ⟨_, .more ht (.ofRole _) hus⟩

theorem exists_writesParams {ps : List Param} (h : ∀ q ∈ ps, IsName q.name) :
    ∃ us, WritesParams ps us := by
  cases ps with
  | nil => exact ⟨_, .none⟩
  | cons p ps =>
    obtain ⟨us, hus⟩ := exists_writesNames h
    exact ⟨_, .some (.ofRole _) hus⟩

theorem exists_writesOptional (k : Keyword) {e : Option Expr} (h : ∀ x ∈ e, x.IsWritable) :
    ∃ es, WritesOptional k e es := by
  cases e with
  | none => exact ⟨_, .none⟩
  | some x =>
    obtain ⟨es, hes⟩ := exists_operand (h x rfl)
    exact ⟨_, .some (.ofRole _) hes⟩

theorem exists_writesHandlerName {n : Option String} (h : ∀ m ∈ n, IsName m) :
    ∃ ns, WritesHandlerName n ns := by
  cases n with
  | none => exact ⟨_, .none⟩
  | some m =>
    obtain ⟨t, ht⟩ := Expr.exists_names (h m rfl)
    exact ⟨_, .some ht⟩

theorem exists_writesBody {body : List Stmt} (h : ∃ ts, WritesAll body ts) :
    ∃ ts, WritesBody body ts := by
  obtain ⟨ts, hts⟩ := h
  exact ⟨_, .braces (.ofRole _) hts (.ofRole _)⟩

end parts

mutual

/-- Every writable statement can be written down. -/
theorem exists_writes : ∀ st : Stmt, st.IsWritable → ∃ ts, Writes st ts
  -- A word is written as its role says, a body in braces and an operand in parentheses.
  | entryPoint _ body, h => by
    obtain ⟨ts, hts⟩ := exists_writesBody (exists_writesAll body h)
    exact ⟨_, .entryPoint (.ofRole _) (.ofRole _) hts⟩
  | functionDefinition _ _ _ body, h => by
    obtain ⟨t, ht⟩ := Expr.exists_names h.1
    obtain ⟨us, hus⟩ := exists_writesParams h.2.1
    obtain ⟨ts, hts⟩ := exists_writesBody (exists_writesAll body h.2.2)
    exact ⟨_, .functionDefinition (.ofRole _) ht hus (.ofRole _) hts⟩
  | structureDefinition _ _ _, h => by
    obtain ⟨t, ht⟩ := Expr.exists_names h.1
    obtain ⟨us, hus⟩ := exists_writesParams h.2
    exact ⟨_, .structureDefinition (.ofRole _) ht hus (.ofRole _)⟩
  | block _ body, h => by
    obtain ⟨ts, hts⟩ := exists_writesBody (exists_writesAll body h)
    exact ⟨_, .block hts⟩
  | conditional _ _ body branches none, h => by
    obtain ⟨cs, hc⟩ := exists_operand h.1
    obtain ⟨bs, hb⟩ := exists_writesBody (exists_writesAll body h.2.1)
    obtain ⟨ts, hts⟩ := exists_writesClauses branches h.2.2.1 ⟨_, .none⟩
    exact ⟨_, .conditional (.ofRole _) hc (.ofRole _) hb hts⟩
  | conditional _ _ body branches (some last), h => by
    obtain ⟨cs, hc⟩ := exists_operand h.1
    obtain ⟨bs, hb⟩ := exists_writesBody (exists_writesAll body h.2.1)
    obtain ⟨ds, hd⟩ := exists_writesBody (exists_writesAll last h.2.2.2)
    obtain ⟨ts, hts⟩ := exists_writesClauses branches h.2.2.1 ⟨_, .otherwise (.ofRole _) hd⟩
    exact ⟨_, .conditional (.ofRole _) hc (.ofRole _) hb hts⟩
  | whileLoop _ _ body, h => by
    obtain ⟨cs, hc⟩ := exists_operand h.1
    obtain ⟨ts, hts⟩ := exists_writesBody (exists_writesAll body h.2)
    exact ⟨_, .whileLoop (.ofRole _) hc (.ofRole _) hts⟩
  | untilLoop _ _ body, h => by
    obtain ⟨cs, hc⟩ := exists_operand h.1
    obtain ⟨ts, hts⟩ := exists_writesBody (exists_writesAll body h.2)
    exact ⟨_, .untilLoop (.ofRole _) hc (.ofRole _) hts⟩
  | doWhile _ body _, h => by
    obtain ⟨ts, hts⟩ := exists_writesBody (exists_writesAll body h.1)
    obtain ⟨cs, hc⟩ := exists_operand h.2
    exact ⟨_, .doWhile (.ofRole _) hts (.ofRole _) hc (.ofRole _)⟩
  | doUntil _ body _, h => by
    obtain ⟨ts, hts⟩ := exists_writesBody (exists_writesAll body h.1)
    obtain ⟨cs, hc⟩ := exists_operand h.2
    exact ⟨_, .doUntil (.ofRole _) hts (.ofRole _) hc (.ofRole _)⟩
  | forEach _ _ _ body, h => by
    obtain ⟨t, ht⟩ := Expr.exists_names h.1
    obtain ⟨es, he⟩ := exists_operand h.2.1
    obtain ⟨ts, hts⟩ := exists_writesBody (exists_writesAll body h.2.2)
    exact ⟨_, .forEach (.ofRole _) ht (.ofRole _) he (.ofRole _) hts⟩
  | forRange _ _ _ _ _ body, h => by
    obtain ⟨t, ht⟩ := Expr.exists_names h.1
    obtain ⟨xs, hx⟩ := exists_operand h.2.1
    obtain ⟨ys, hy⟩ := exists_operand h.2.2.1
    obtain ⟨ss, hss⟩ := exists_writesOptional .byWord h.2.2.2.1
    obtain ⟨ts, hts⟩ := exists_writesBody (exists_writesAll body h.2.2.2.2)
    exact ⟨_, .forRange (.ofRole _) ht (.ofRole _) hx (.ofRole _) hy hss (.ofRole _) hts⟩
  | repeatLoop _ _ body, h => by
    obtain ⟨es, he⟩ := exists_operand h.1
    obtain ⟨ts, hts⟩ := exists_writesBody (exists_writesAll body h.2)
    exact ⟨_, .repeatLoop (.ofRole _) he (.ofRole _) hts⟩
  | tryCatch _ body _ handler none, h => by
    obtain ⟨bs, hb⟩ := exists_writesBody (exists_writesAll body h.1)
    obtain ⟨ns, hn⟩ := exists_writesHandlerName h.2.1
    obtain ⟨us, hus⟩ := exists_writesBody (exists_writesAll handler h.2.2.1)
    exact ⟨_, .tryCatch (.ofRole _) hb (.ofRole _) hn hus .none⟩
  | tryCatch _ body _ handler (some last), h => by
    obtain ⟨bs, hb⟩ := exists_writesBody (exists_writesAll body h.1)
    obtain ⟨ns, hn⟩ := exists_writesHandlerName h.2.1
    obtain ⟨us, hus⟩ := exists_writesBody (exists_writesAll handler h.2.2.1)
    obtain ⟨cs, hcs⟩ := exists_writesBody (exists_writesAll last h.2.2.2)
    exact ⟨_, .tryCatch (.ofRole _) hb (.ofRole _) hn hus (.some (.ofRole _) hcs)⟩
  | returning _ none, _ => ⟨_, .returning (.ofRole _) (.ofRole _)⟩
  | returning _ (some e), h => by
    obtain ⟨es, he⟩ := exists_operand (h e rfl)
    exact ⟨_, .returningValue (.ofRole _) he (.ofRole _)⟩
  | breaking _, _ => ⟨_, .breaking (.ofRole _) (.ofRole _)⟩
  | continuing _, _ => ⟨_, .continuing (.ofRole _) (.ofRole _)⟩
  | exiting _, _ => ⟨_, .exiting (.ofRole _) (.ofRole _)⟩
  | throwing _ _, h => by
    obtain ⟨es, he⟩ := exists_operand h
    exact ⟨_, .throwing (List.mem_cons_self ..) (.ofRole _) he (.ofRole _)⟩
  | assignment _ x _, h => by
    obtain ⟨ts, hts⟩ := Expr.exists_writes x h.2.1
    obtain ⟨es, he⟩ := exists_operand h.2.2
    exact ⟨_, .assignment (.ofRole _) h.1 hts (.ofRole _) he (.ofRole _)⟩
  | declaration _ _ _, h => by
    obtain ⟨t, ht⟩ := Expr.exists_names h.1
    obtain ⟨es, he⟩ := exists_operand h.2
    exact ⟨_, .declaration (.ofRole _) ht (.ofRole _) he (.ofRole _)⟩
  | increment _ _ _, h => by
    obtain ⟨t, ht⟩ := Expr.exists_names h.1
    obtain ⟨es, he⟩ := exists_writesOptional .byWord h.2
    exact ⟨_, .increment (.ofRole _) ht he (.ofRole _)⟩
  | decrement _ _ _, h => by
    obtain ⟨t, ht⟩ := Expr.exists_names h.1
    obtain ⟨es, he⟩ := exists_writesOptional .byWord h.2
    exact ⟨_, .decrement (.ofRole _) ht he (.ofRole _)⟩
  | swap _ _ _, h => by
    obtain ⟨t, ht⟩ := Expr.exists_names h.1
    obtain ⟨t', ht'⟩ := Expr.exists_names h.2
    exact ⟨_, .swap (.ofRole _) ht (.ofRole _) ht' (.ofRole _)⟩
  | listAdd _ _ _, h => by
    obtain ⟨es, he⟩ := exists_operand h.1
    obtain ⟨ls, hl⟩ := exists_operand h.2
    exact ⟨_, .listAdd (.ofRole _) he (.ofRole _) hl (.ofRole _)⟩
  | listRemove _ _ _, h => by
    obtain ⟨es, he⟩ := exists_operand h.1
    obtain ⟨ls, hl⟩ := exists_operand h.2
    exact ⟨_, .listRemove (.ofRole _) he (.ofRole _) hl (.ofRole _)⟩
  | print _ _, h => by
    obtain ⟨es, he⟩ := exists_operand h
    exact ⟨_, .print (List.mem_cons_self ..) (.ofRole _) he (.ofRole _)⟩
  | readInto _ _, h => by
    obtain ⟨t, ht⟩ := Expr.exists_names h
    exact ⟨_, .readInto (.ofRole _) ht (.ofRole _)⟩
  | assertion _ _, h => by
    obtain ⟨es, he⟩ := exists_operand h
    exact ⟨_, .assertion (.ofRole _) he (.ofRole _)⟩
  | importing p n, _ => by
    obtain ⟨t, ht⟩ := Expr.exists_denotes (v := .text n) (p := p) trivial
    exact ⟨_, .importing (.ofRole _) ht (.ofRole _)⟩
  | expression _ _, h => by
    obtain ⟨es, he⟩ := exists_operand h
    exact ⟨_, .expression he (.ofRole _)⟩
termination_by structural st => st

/-- Writable statements can be written one after the other. -/
theorem exists_writesAll : ∀ sts : List Stmt, AreWritable sts → ∃ ts, WritesAll sts ts
  | [], _ => ⟨_, .nil⟩
  | st :: sts, h => by
    obtain ⟨ts, hts⟩ := exists_writes st h.1
    obtain ⟨us, hus⟩ := exists_writesAll sts h.2
    exact ⟨_, .cons hts hus⟩
termination_by structural sts => sts

/-- The clauses can be written in front of the last one. -/
theorem exists_writesClauses : ∀ (branches : List Branch) {d : Option (List Stmt)},
    BranchesAreWritable branches → (∃ ts, WritesClauses [] d ts) →
    ∃ ts, WritesClauses branches d ts
  | [], _, _, h => h
  | .mk _ _ body :: branches, _, hbs, h => by
    obtain ⟨cs, hc⟩ := exists_operand hbs.1
    obtain ⟨bs, hb⟩ := exists_writesBody (exists_writesAll body hbs.2.1)
    obtain ⟨ts, hts⟩ := exists_writesClauses branches hbs.2.2 h
    exact ⟨_, .more (.ofRole _) hc (.ofRole _) hb hts⟩
termination_by structural branches => branches

end

end Stmt

end Prose
