import Prose.Proofs.Expr.Derivation
import Prose.Proofs.Stmt.Writing

namespace Prose

namespace Param

inductive DerivesList : List Param → List Token → Prop
  | last {n} {t : Token} (h : t.name? = some n) : DerivesList [⟨n, t.position⟩] [t]
  | more {n ps ts} {t u : Token} (h : t.name? = some n) (hu : u.keyword = .comma)
      (hps : DerivesList ps ts) : DerivesList (⟨n, t.position⟩ :: ps) (t :: u :: ts)

inductive DerivesOptional : List Param → List Token → Prop
  | none : DerivesOptional [] []
  | some {ps ts} {t : Token} (ht : t.keyword = .withWord) (h : DerivesList ps ts) :
      DerivesOptional ps (t :: ts)

end Param

inductive Expr.DerivesOptional (k : Keyword) : Option Expr → List Token → Prop
  | none : DerivesOptional k none []
  | some {e ts} {t : Token} (ht : t.keyword = k) (h : e.Derives ts) :
      DerivesOptional k (some e) (t :: ts)

namespace Stmt

mutual

inductive Derives : Stmt → List Token → Prop
  | terminated {st ts} {d : Token} (h : Derives st ts) (hd : d.keyword = .endOfStatement) :
      Derives st (ts ++ [d])
  | entryPoint {body ts} {t u : Token} (ht : t.keyword = .defineEntryPoint)
      (hu : u.keyword = .asWord) (h : DerivesBody body ts) :
      Derives (entryPoint t.position body) (t :: u :: ts)
  | functionDefinition {n ps body us ts} {t f u : Token} (ht : t.keyword = .defineFunction)
      (hn : f.name? = some n) (hps : Param.DerivesOptional ps us) (hu : u.keyword = .asWord)
      (h : DerivesBody body ts) :
      Derives (functionDefinition t.position n ps body) (t :: f :: (us ++ u :: ts))
  | structureDefinition {n fs ts} {t x : Token} (ht : t.keyword = .defineStructure)
      (hn : x.name? = some n) (hfs : Param.DerivesOptional fs ts) :
      Derives (structureDefinition t.position n fs) (t :: x :: ts)
  | block {body ts} {o : Token} (h : DerivesBraced body (o :: ts)) :
      Derives (block o.position body) (o :: ts)
  | conditional {c body branches d cs bs ts} {t u : Token} (ht : t.keyword = .ifWord)
      (hc : c.Derives cs) (hu : u.keyword = .thenWord) (hb : DerivesBody body bs)
      (h : DerivesFurther branches d ts) :
      Derives (conditional t.position c body branches d) (t :: (cs ++ u :: (bs ++ ts)))
  | whileLoop {c body cs ts} {t u : Token} (ht : t.keyword = .whileWord) (hc : c.Derives cs)
      (hu : u.keyword = .doWord) (h : DerivesBody body ts) :
      Derives (whileLoop t.position c body) (t :: (cs ++ u :: ts))
  | untilLoop {c body cs ts} {t u : Token} (ht : t.keyword = .untilWord) (hc : c.Derives cs)
      (hu : u.keyword = .doWord) (h : DerivesBody body ts) :
      Derives (untilLoop t.position c body) (t :: (cs ++ u :: ts))
  | doWhile {c body ts cs} {t u : Token} (ht : t.keyword = .doWord) (h : DerivesBraced body ts)
      (hu : u.keyword = .whileWord) (hc : c.Derives cs) :
      Derives (doWhile t.position body c) (t :: (ts ++ u :: cs))
  | doUntil {c body ts cs} {t u : Token} (ht : t.keyword = .doWord) (h : DerivesBraced body ts)
      (hu : u.keyword = .untilWord) (hc : c.Derives cs) :
      Derives (doUntil t.position body c) (t :: (ts ++ u :: cs))
  | forEach {n e body es ts} {t x u v : Token} (ht : t.keyword = .forEach) (hn : x.name? = some n)
      (hu : u.keyword = .inWord) (he : e.Derives es) (hv : v.keyword = .doWord)
      (h : DerivesBody body ts) :
      Derives (forEach t.position n e body) (t :: x :: u :: (es ++ v :: ts))
  | forRange {n a b step body as bs ss ts} {t x u v w : Token} (ht : t.keyword = .forWord)
      (hn : x.name? = some n) (hu : u.keyword = .fromWord) (ha : a.Derives as)
      (hv : v.keyword = .to) (hb : b.Derives bs) (hstep : Expr.DerivesOptional .byWord step ss)
      (hw : w.keyword = .doWord) (h : DerivesBody body ts) :
      Derives (forRange t.position n a b step body)
        (t :: x :: u :: (as ++ v :: (bs ++ (ss ++ w :: ts))))
  | repeatLoop {e body es ts} {t u : Token} (ht : t.keyword = .repeatWord) (he : e.Derives es)
      (hu : u.keyword = .times) (h : DerivesBody body ts) :
      Derives (repeatLoop t.position e body) (t :: (es ++ u :: ts))
  | tryCatch {body name handler cleanup bs hs cs} {t : Token} (ht : t.keyword = .tryWord)
      (hb : DerivesBraced body bs) (hh : DerivesHandler name handler hs)
      (hc : DerivesCleanup cleanup cs) :
      Derives (tryCatch t.position body name handler cleanup) (t :: (bs ++ (hs ++ cs)))
  | returning {t : Token} (ht : t.keyword = .returnWord) : Derives (returning t.position none) [t]
  | returningValue {e ts} {t : Token} (ht : t.keyword = .returnWord) (he : e.Derives ts) :
      Derives (returning t.position (some e)) (t :: ts)
  | breaking {t : Token} (ht : t.keyword = .breakWord) : Derives (breaking t.position) [t]
  | continuing {t : Token} (ht : t.keyword = .continueWord) : Derives (continuing t.position) [t]
  | exiting {t : Token} (ht : t.keyword = .exit) : Derives (exiting t.position) [t]
  | throwing {e ts} {t : Token} (ht : t.keyword ∈ [.throw, .raise]) (he : e.Derives ts) :
      Derives (throwing t.position e) (t :: ts)
  | assignment {x e xs es} {t u : Token} (ht : t.keyword = .set) (htarget : IsTarget x)
      (hx : x.Derives xs) (hu : u.keyword = .equalTo) (he : e.Derives es) :
      Derives (assignment t.position x e) (t :: (xs ++ u :: es))
  | declaration {n e es} {t x u : Token} (ht : t.keyword = .letWord) (hn : x.name? = some n)
      (hu : u.keyword = .be) (he : e.Derives es) :
      Derives (declaration t.position n e) (t :: x :: u :: es)
  | increment {n e es} {t x : Token} (ht : t.keyword = .increment) (hn : x.name? = some n)
      (he : Expr.DerivesOptional .byWord e es) :
      Derives (increment t.position n e) (t :: x :: es)
  | decrement {n e es} {t x : Token} (ht : t.keyword = .decrement) (hn : x.name? = some n)
      (he : Expr.DerivesOptional .byWord e es) :
      Derives (decrement t.position n e) (t :: x :: es)
  | swap {l r} {t x u y : Token} (ht : t.keyword = .swap) (hl : x.name? = some l)
      (hu : u.keyword = .andWord) (hr : y.name? = some r) :
      Derives (swap t.position l r) [t, x, u, y]
  | listAdd {e l es ls} {t u : Token} (ht : t.keyword = .add) (he : e.Derives es)
      (hu : u.keyword = .to) (hl : l.Derives ls) :
      Derives (listAdd t.position e l) (t :: (es ++ u :: ls))
  | listRemove {e l es ls} {t u : Token} (ht : t.keyword = .remove) (he : e.Derives es)
      (hu : u.keyword = .fromWord) (hl : l.Derives ls) :
      Derives (listRemove t.position e l) (t :: (es ++ u :: ls))
  | print {e ts} {t : Token} (ht : t.keyword ∈ [.print, .display]) (he : e.Derives ts) :
      Derives (print t.position e) (t :: ts)
  | readInto {n} {t x : Token} (ht : t.keyword = .readInto) (hn : x.name? = some n) :
      Derives (readInto t.position n) [t, x]
  | assertion {e ts} {t : Token} (ht : t.keyword = .assert) (he : e.Derives ts) :
      Derives (assertion t.position e) (t :: ts)
  | importing {n} {t x : Token} (ht : t.keyword = .importWord) (hx : x.Spells (.text n)) :
      Derives (importing t.position n) [t, x]
  | expression {e ts} (he : e.Derives ts) : Derives (expression (Token.firstPlace ts) e) ts

inductive DerivesBlock : List Stmt → List Token → Prop
  | nil : DerivesBlock [] []
  | dot {body ts} {d : Token} (hd : d.keyword = .endOfStatement) (h : DerivesBlock body ts) :
      DerivesBlock body (d :: ts)
  | cons {st body ts us} (h : Derives st ts) (hs : DerivesBlock body us) :
      DerivesBlock (st :: body) (ts ++ us)

inductive DerivesBraced : List Stmt → List Token → Prop
  | mk {body ts} {o c : Token} (ho : o.keyword = .blockStart) (h : DerivesBlock body ts)
      (hc : c.keyword = .blockEnd) : DerivesBraced body (o :: (ts ++ [c]))

inductive DerivesBody : List Stmt → List Token → Prop
  | braced {body ts} (h : DerivesBraced body ts) : DerivesBody body ts
  | plain {body ts} (h : DerivesBlock body ts) : DerivesBody body ts
  | terminated {body ts} {d : Token} (h : DerivesBody body ts) (hd : d.keyword = .endOfStatement) :
      DerivesBody body (ts ++ [d])

inductive DerivesFurther : List Branch → Option (List Stmt) → List Token → Prop
  | nil : DerivesFurther [] none []
  | dot {branches b ts} {d : Token} (hd : d.keyword = .endOfStatement)
      (h : DerivesFurther branches b ts) : DerivesFurther branches b (d :: ts)
  | otherwiseIf {c body branches b cs bs ts} {t u : Token} (ht : t.keyword = .otherwiseIf)
      (hc : c.Derives cs) (hu : u.keyword = .thenWord) (hb : DerivesBody body bs)
      (h : DerivesFurther branches b ts) :
      DerivesFurther (.mk t.position c body :: branches) b (t :: (cs ++ u :: (bs ++ ts)))
  | otherwise {body ts} {t : Token} (ht : t.keyword = .otherwise) (hb : DerivesBody body ts) :
      DerivesFurther [] (some body) (t :: ts)

/-- The tokens are the handler of a `try`. A token with the kind of a name that is no name may stand
in the place of one; the handler has no name then. -/
inductive DerivesHandler : Option String → List Stmt → List Token → Prop
  | named {n body ts} {t x : Token} (ht : t.keyword = .catchWord) (hn : x.name? = some n)
      (h : DerivesBraced body ts) : DerivesHandler (some n) body (t :: x :: ts)
  | misnamed {body ts} {t x : Token} (ht : t.keyword = .catchWord) (hk : x.kind = .identifier)
      (hn : x.name? = none) (h : DerivesBraced body ts) : DerivesHandler none body (t :: x :: ts)
  | unnamed {body ts} {t : Token} (ht : t.keyword = .catchWord) (h : DerivesBraced body ts) :
      DerivesHandler none body (t :: ts)

inductive DerivesCleanup : Option (List Stmt) → List Token → Prop
  | none : DerivesCleanup none []
  | some {body ts} {t : Token} (ht : t.keyword = .finallyWord) (h : DerivesBraced body ts) :
      DerivesCleanup (some body) (t :: ts)

end

end Stmt

end Prose
