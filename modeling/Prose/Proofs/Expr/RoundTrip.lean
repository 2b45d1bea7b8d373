import Prose.Proofs.Expr.Recall
import Prose.Proofs.Expr.RoundTrip.Lists

namespace Prose.Expr

open Grammar

mutual

/-- Written expressions are read back, by induction on how they are written. -/
theorem Writes.readsBack : ∀ {e : Expr} {ts : List Token}, Writes e ts → ReadsBack e ts
  | _, _, .literal h => readsBack_literal h
  | _, _, .identifier h => readsBack_identifier h
  | _, _, .grouping h => readsBack_grouping h.isOperand
  | _, _, .emptyList w => readsBack_emptyList w
  | _, _, .list w h => readsBack_list w h.areOperands
  | _, _, .binary hl w hr => readsBack_binary hl.isOperand w hr.isOperand
  | _, _, .unary w h => readsBack_unary w h.isOperand
  | _, _, .nullCheck h w => readsBack_nullCheck h.isOperand w
  | _, _, .typeCheck h w u => readsBack_typeCheck h.isOperand w u
  | _, _, .cast v h w u => readsBack_cast v h.isOperand w u
  | _, _, .index v hi w hc => readsBack_index v hi.isOperand w hc.isOperand
  | _, _, .slice u hc v hf w ht => readsBack_slice u hc.isOperand v hf.isOperand w ht.isOperand
  | _, _, .call w h => readsBack_call w h
  | _, _, .callWith w h v hargs => readsBack_callWith w h v hargs.areOperands
  | _, _, .ternary u hc v hx w hy => readsBack_ternary u hc.isOperand v hx.isOperand w hy.isOperand
  | _, _, .selection v hs w harms => readsBack_selection v hs.isOperand w harms.areArms

theorem Wraps.isOperand : ∀ {e : Expr} {ts : List Token}, Wraps e ts → IsOperand e ts
  | _, _, .parens o h c => isOperand_parens o.property.1 c.property.1 h.readsBack

theorem WritesItems.areOperands : ∀ {es : List Expr} {ts : List Token},
    WritesItems es ts → AreOperands es ts
  | _, _, .last h => .last h.isOperand
  | _, _, .more h w hes => .more h.isOperand w hes.areOperands

theorem WritesArms.areArms : ∀ {arms : List (Expr × Expr)} {d : Option Expr} {ts : List Token},
    WritesArms arms d ts → AreArms arms d ts
  | _, _, _, .last hx w hy => .last hx.isOperand w hy.isOperand
  | _, _, _, .fallback v w hd => .fallback v w hd.isOperand
  | _, _, _, .more hx v hy w harms => .more hx.isOperand v hy.isOperand w harms.areArms

end

/-- Every writable expression can be written down in the shape of its form with all operands in
parentheses. A fresh session whose nesting limit exceeds the number of tokens accepts the slice, and
the tree it reads differs from the expression in places and groupings only. -/
theorem read_of_writes (e : Expr) (he : e.IsWritable) :
    (∃ ts, Writes e ts) ∧ ∀ (s : Slice) (o : Options) (n : Nat), Writes e s.tokens →
      s.length < o.maxNestingDepth →
      ∃ rule e', ((Parse.read standard s).run.run (Session.start o n)).1 = .ok (some (rule, e')) ∧
        e'.bare = e.bare := by
  refine ⟨exists_writes e he, fun s o n hs hroom => ?_⟩
  obtain ⟨rule, e', hread, hbare⟩ := hs.readsBack.reads s.start
  obtain ⟨τ, hrun, -⟩ := Parse.read_run (.refl s) (Session.recalls_start standard s o n)
    (by simpa [Session.start] using Nat.le_of_lt hroom)
  exact ⟨rule, e', by rw [hrun]; exact hread, hbare⟩

/-- The tokens of `not ( $x )` are read back with room for one level more than there are tokens. -/
theorem read_of_writes_not :
    let x := Token.ofName "$x"
    let e := unary .unknown .negation (identifier .unknown "$x")
    let ts := [(Word.ofRole .notWord).val, (Word.ofRole .openParen).val, x,
      (Word.ofRole .closeParen).val]
    Writes e ts ∧ ∃ rule e', ((Parse.read standard ⟨0, ts⟩).run.run
        (Session.start { maxNestingDepth := 5 } 0)).1 = .ok (some (rule, e')) ∧
      e'.bare = e.bare := by
  have hx : IsName "$x" := by decide +kernel
  have hwrites : Writes (unary .unknown .negation (identifier .unknown "$x")) _ :=
    .unary (.ofRole _) (.parens (.ofRole _) (.identifier (Token.names_ofName hx)) (.ofRole _))
  exact ⟨hwrites, (read_of_writes (unary .unknown .negation (identifier .unknown "$x")) hx).2 _ _ 0
    hwrites (by decide)⟩

end Prose.Expr
