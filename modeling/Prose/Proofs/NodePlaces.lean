import Mathlib.Data.List.Flatten
import Prose.Proofs.Block.Blame
import Prose.Proofs.Block.Runs
import Prose.Proofs.Block.Units
import Prose.Proofs.Condense.Account
import Prose.Proofs.Document
import Prose.Proofs.Session.Calls
import Prose.Proofs.Stmt.Parts
import Prose.Proofs.Token.Layout

/-! The places of the nodes of a program. A statement of a block stands in the tokens of the unit that
it was read from, also where other units, around it or inside it, cannot be read. It begins where its
unit begins, every node below it stands where a token of the unit stands, and no node stands in front of
the one above it. -/
namespace Prose

/-- The slices that tile some tokens are what is left of them without some `.` -/
theorem TiledFrom.sublist {i : Nat} {slices : List Slice} {ts : List Token}
    (h : TiledFrom i slices ts) :
    (slices.flatMap (·.tokens)).Sublist ts := by
  induction h with
  | nil => exact .slnil
  | dot _ _ ih => exact ih.cons _
  | cons s _ ih =>
    rw [List.flatMap_cons]
    exact (List.Sublist.refl _).append ih

namespace Sentence

variable {strict : Bool} {s : Slice} {x : Sentence}

def tokens (x : Sentence) : List Token :=
  x.slices.flatMap (·.tokens)

theorem sublist_of_mem_ofBlock (hx : x ∈ ofBlock strict s) : x.tokens.Sublist s.tokens := by
  have hslices : x.slices.Sublist ((ofBlock strict s).flatMap slices) := by
    have hsingleton := (List.singleton_sublist.mpr hx).flatMap slices
    rwa [List.flatMap_singleton] at hsingleton
  exact (hslices.flatMap (·.tokens)).trans (tiled_ofBlock strict s).sublist

/-- A sentence begins where its first slice begins. -/
theorem IsFilled.exists_lead (h : x.IsFilled) :
    ∃ r, x.slices.head? = some r ∧ x.tokens ≠ [] ∧ Token.firstPlace x.tokens = r.position := by
  obtain ⟨r, rest, hslices⟩ := List.exists_cons_of_ne_nil h.ne_nil
  obtain ⟨t, ts, htokens⟩ :=
    List.exists_cons_of_length_pos (h.length_pos r (hslices ▸ List.mem_cons_self ..))
  have hx : x.tokens = t :: (ts ++ rest.flatMap (·.tokens)) := by
    rw [tokens, hslices, List.flatMap_cons, htokens, List.cons_append]
  refine ⟨r, by rw [hslices]; rfl, by rw [hx]; simp, ?_⟩
  rw [hx, Slice.position, htokens]
  rfl

end Sentence

/-- The tokens are those of a unit of a block in the stream that is read as the statement. -/
def IsUnitFor (g : Grammar) (o : Options) (stream : Slice) (st : Stmt) (ts : List Token) : Prop :=
  ∃ b : Slice, b.IsPartOf stream ∧ ∃ x ∈ Sentence.ofBlock o.requireTerminators b,
    x.tokens = ts ∧ x.IsTakenFor g o stream st

namespace Parse

open Inquiry Node Session

variable {g : Grammar} {o : Options} {stream s : Slice} {unit : Stmt → List Token → Prop}
  {st : Stmt} {σ τ : Session}

def BlocksStand (unit : Stmt → List Token → Prop) (g : Grammar) (o : Options)
    (stream s : Slice) : Prop :=
  ∀ inner : Slice, inner.IsStrictPartOf s → ∀ σ : Session, σ.IsFor g o stream →
    ∀ n ∈ ofStmts ((block g inner).run σ).1, n.StandsIn unit inner.tokens

theorem BlocksStand.answers (h : BlocksStand unit g o stream s) :
    Answers (Stmt.Stands unit) g o stream s where
  reading := by
    rintro part - r hr ⟨rule, e⟩ hread
    obtain rfl : r = some (rule, e) := hread
    exact (g.derives_of_outcome hr).standsIn
  block _ _ inner hinner σ hσ := h inner hinner σ hσ
  unusedValue _ _ := trivial

/-- A statement has the tokens of its unit for its own. -/
theorem standsIn_of_sentence (hs : s.IsPartOf stream)
    (hblocks : BlocksStand (IsUnitFor g o stream) g o stream s) {x : Sentence}
    (hx : x ∈ Sentence.ofBlock o.requireTerminators s) (hread : x.IsTakenFor g o stream st) :
    st.position = Token.firstPlace x.tokens ∧
      (Node.statement st).StandsIn (IsUnitFor g o stream) x.tokens := by
  have hunit : IsUnitFor g o stream st x.tokens := ⟨s, hs, x, hx, rfl, hread⟩
  obtain ⟨σ, τ, hσ, hrun⟩ := hread
  have hfilled := Sentence.isFilled_of_mem_ofBlock hx
  obtain ⟨r, hr, hne, hlead⟩ := hfilled.exists_lead
  have hplace : st.position = Token.firstPlace x.tokens := by
    rw [hlead, position_of_sentence hrun hr]
  have hparts : st.HasPartsIn (IsUnitFor g o stream) x.tokens := by
    refine hblocks.answers.of_sentence hs hσ
      (fun r hr => Sentence.isPartOf_of_mem_ofBlock hx hr) ?_ ?_ hrun
    -- A form asks about its one slice, a chain has the tokens of several.
    · rintro r rfl hpos f
      have htokens : (Sentence.plain r).tokens = r.tokens := List.flatMap_singleton ..
      rw [htokens]
      exact Stmt.yields_form_standing hpos f
    · rintro slices rfl
      exact Stmt.yields_readConditional_standing hfilled.length_pos
  refine ⟨hplace, .mk (.refl _) hne hplace ?_ hparts⟩
  rintro st' ⟨⟩
  exact hunit

/-- The statements of every block stand in its tokens, by induction on the length of the block. -/
theorem blocksStand (g : Grammar) (o : Options) (stream : Slice) (hs : s.IsPartOf stream) :
    BlocksStand (IsUnitFor g o stream) g o stream s := by
  induction hn : s.length using Nat.strong_induction_on generalizing s with
  | _ n ih =>
    intro inner hinner σ hσ
    have hpart := hinner.1.trans hs
    refine List.forall_mem_map.mpr fun st hst => ?_
    obtain ⟨x, hx, hread⟩ := exists_isTakenFor_of_block hpart hσ st hst
    have hblocks := ih inner.length (hn ▸ hinner.2) hpart rfl
    exact (standsIn_of_sentence hpart hblocks hx hread).2.mono (Sentence.sublist_of_mem_ofBlock hx)

/-- Every statement of a block is read from one of its units, begins with the first token of the unit
and stands in its tokens. -/
theorem standsIn_of_block (hσ : σ.IsFor g o s) :
    ∀ st ∈ ((block g s).run σ).1, ∃ x ∈ Sentence.ofBlock o.requireTerminators s,
      x.IsTakenFor g o s st ∧ st.position = Token.firstPlace x.tokens ∧
        (Node.statement st).StandsIn (IsUnitFor g o s) x.tokens := by
  intro st hst
  obtain ⟨x, hx, hread⟩ := exists_isTakenFor_of_block (.refl s) hσ st hst
  exact ⟨x, hx, hread, standsIn_of_sentence (.refl s) (blocksStand g o s (.refl s)) hx hread⟩

end Parse

namespace Condense

variable {t u : Token} {ts us : List Token} {n : Nat}

/-- What becomes of a group stands where the group begins. -/
theorem position_of_group (h : group t ts = .ok (u, n)) : u.position = t.position := by
  cases isGroup_of_group h with
  | number hnumber =>
    obtain ⟨group, rest, hts, -, hmerges⟩ := merges_of_spelled hnumber
    cases hmerges <;> cases hts <;> rfl
  | fin | phrase | alone => rfl

theorem Becomes.exists_position (h : Becomes ts us) :
    ∀ u ∈ us, ∃ t ∈ ts, u.position = t.position := by
  induction h with
  | nil => exact List.forall_mem_nil _
  | @cons t u ts us n hgroup _ ih =>
    refine List.forall_mem_cons.mpr ⟨⟨t, List.mem_cons_self .., position_of_group hgroup⟩, ?_⟩
    intro v hv
    obtain ⟨w, hw, hplace⟩ := ih v hv
    exact ⟨w, List.mem_of_mem_drop hw, hplace⟩

/-- Condensing leaves the places of tokens in their order. -/
theorem Becomes.pairwise (h : Becomes ts us)
    (hts : ts.Pairwise fun t u => t.position.Precedes u.position) :
    us.Pairwise fun t u => t.position.Precedes u.position := by
  induction h with
  | nil => exact .nil
  | @cons t u ts us n hgroup hrest ih =>
    refine .cons (fun v hv => ?_) (ih (hts.sublist (List.drop_sublist n _)))
    -- A group has a token, so what stands behind it stands behind its first token.
    obtain ⟨k, rfl⟩ := Nat.exists_eq_succ_of_ne_zero (Nat.ne_of_gt (pos_of_group hgroup))
    obtain ⟨w, hw, hplace⟩ := hrest.exists_position v hv
    rw [position_of_group hgroup, hplace]
    exact (List.pairwise_cons.mp hts).1 w (List.mem_of_mem_drop hw)

theorem pairwise_of_condense {source name : String} (htokens : tokenize source name = .ok ts)
    (h : condense ts = .ok us) : us.Pairwise fun t u => t.position.Precedes u.position := by
  have hlaid : Lexer.IsLaidOut name [] source.toList ts :=
    Lexer.isLaidOut_of_cuts (Lexer.cuts_of_tokenize htokens) rfl
  exact (becomes_of_groups (Nat.le_refl _) h).pairwise hlaid.pairwise

end Condense

/-- The statement stands where the sentence begins, all nodes of the statement stand in places of
tokens of the sentence, and none of them stands in front of the one above it. -/
structure Sentence.Places (x : Sentence) (st : Stmt) : Prop where
  first : x.tokens.head?.map (·.position) = some st.position
  token : ∀ n : Node, n.IsWithin (.statement st) → ∃ t ∈ x.tokens, n.place = t.position
  ordered : ∀ n : Node, n.IsWithin (.statement st) → ∀ m ∈ n.parts,
    n.place = m.place ∨ n.place.Precedes m.place

section places

variable {unit : Stmt → List Token → Prop} {g : Grammar} {o : Options} {s : Slice} {x : Sentence}
  {st top : Stmt}

theorem Sentence.places_of_standsIn (hplace : st.position = Token.firstPlace x.tokens)
    (h : (Node.statement st).StandsIn unit x.tokens)
    (hordered : x.tokens.Pairwise fun t u => t.position.Precedes u.position) : x.Places st where
  first := by
    obtain ⟨t, ht, -⟩ := h.exists_token
    obtain ⟨u, us, htokens, hfirst⟩ := Node.exists_firstPlace_eq (List.ne_nil_of_mem ht)
    rw [hplace, hfirst, htokens]
    rfl
  token n hn := (h.of_isWithin hn).exists_token
  ordered n hn m hm := (h.of_isWithin hn).place_le hordered hm

/-- A statement below one that stands in a block is read from a unit of some block in it. -/
theorem exists_places_of_isWithin (hx : x ∈ Sentence.ofBlock o.requireTerminators s)
    (h : (Node.statement top).StandsIn (IsUnitFor g o s) x.tokens)
    (hordered : s.tokens.Pairwise fun t u => t.position.Precedes u.position)
    (hst : (Node.statement st).IsWithin (.statement top)) :
    ∃ b y, b.IsPartOf s ∧ y ∈ Sentence.ofBlock o.requireTerminators b ∧ y.IsTakenFor g o s st ∧
      y.Places st := by
  obtain ⟨own, hsub, ⟨b, hb, y, hy, rfl, hread⟩, hplace, hstands⟩ :=
    (h.of_isWithin hst).exists_unit
  have hown := hsub.trans (Sentence.sublist_of_mem_ofBlock hx)
  exact ⟨b, y, hb, hy, hread, Sentence.places_of_standsIn hplace hstands (hordered.sublist hown)⟩

end places

/-- The statements of a source text are read from units of its condensed tokens. -/
theorem standsIn_of_parseSource {p : Parser} {source : String} {r : Parsed}
    (h : p.parseSource source = some r) {top : Stmt} (htop : top ∈ r.nodes) :
    ∃ ts cs, tokenize source p.options.sourceName = .ok ts ∧ condense ts = .ok cs ∧
      ∃ x ∈ Sentence.ofBlock p.options.requireTerminators (.ofTokens cs),
        x.IsTakenFor .standard p.options (.ofTokens cs) top ∧
          top.position = Token.firstPlace x.tokens ∧
            (Node.statement top).StandsIn (IsUnitFor .standard p.options (.ofTokens cs))
              x.tokens := by
  rcases nodes_of_parseSource h with hnil | ⟨ts, cs, message, htokens, hcondensed, hnodes⟩
  · rw [hnil] at htop
    cases htop
  · rw [hnodes] at htop
    have hrecalls : (p.session.log .debug message).Recalls .standard (.ofTokens cs) :=
      Session.recalls_start _ _ p.options p.observers
    exact ⟨ts, cs, htokens, hcondensed, Parse.standsIn_of_block ⟨hrecalls, rfl⟩ top htop⟩

/-- Every node of a program stands in the place of the right token. A statement, at the top or inside
another one, stands where the unit begins that it was read from; for a statement at the top this is a
unit of the whole program. All nodes below it stand in places of tokens of the unit, and none in front
of the node above it. Whatever parts of the tokens a session has read before, an expression that it
reads then, or remembers, stands where its slice begins. -/
theorem nodes_in_place (p : Parser) (source : String) :
    (∀ r, p.parseSource source = some r → ∀ top ∈ r.nodes, ∀ st,
      (Node.statement st).IsWithin (.statement top) →
        ∃ ts cs, tokenize source p.options.sourceName = .ok ts ∧ condense ts = .ok cs ∧
          ∃ b x, b.IsPartOf (.ofTokens cs) ∧ (st ∈ r.nodes → b = .ofTokens cs) ∧
            x ∈ Sentence.ofBlock p.options.requireTerminators b ∧
              x.IsTakenFor .standard p.options (.ofTokens cs) st ∧ x.Places st) ∧
    ∀ ts cs, tokenize source p.options.sourceName = .ok ts → condense ts = .ok cs →
      ∀ calls : List Call, (∀ c ∈ calls, c.slice.IsPartOf (.ofTokens cs)) →
        ∀ (depth : Nat) (s : Slice), s.IsPartOf (.ofTokens cs) → ∀ rule e,
          ((Parse.read .standard s).run.run
            { p.session.after .standard calls with depth }).1 = .ok (some (rule, e)) →
          s.head?.map (·.position) = some e.position := by
  constructor
  · intro r h top htop st hst
    have hplaces {st : Stmt} (hmem : st ∈ r.nodes) :
        ∃ ts cs, tokenize source p.options.sourceName = .ok ts ∧ condense ts = .ok cs ∧
          ∃ x ∈ Sentence.ofBlock p.options.requireTerminators (.ofTokens cs),
            x.IsTakenFor .standard p.options (.ofTokens cs) st ∧ x.Places st := by
      obtain ⟨ts, cs, htokens, hcondensed, x, hx, hread, hplace, hstands⟩ :=
        standsIn_of_parseSource h hmem
      have hordered := (Condense.pairwise_of_condense htokens hcondensed).sublist
        (Sentence.sublist_of_mem_ofBlock hx)
      exact ⟨ts, cs, htokens, hcondensed, x, hx, hread,
        Sentence.places_of_standsIn hplace hstands hordered⟩
    -- A statement at the top is read from the whole program, one inside it from a smaller block.
    by_cases hmem : st ∈ r.nodes
    · obtain ⟨ts, cs, htokens, hcondensed, x, hx, hst⟩ := hplaces hmem
      exact ⟨ts, cs, htokens, hcondensed, _, x, .refl _, fun _ => rfl, hx, hst⟩
    · obtain ⟨ts, cs, htokens, hcondensed, x, hx, -, -, hstands⟩ := standsIn_of_parseSource h htop
      have hordered := Condense.pairwise_of_condense htokens hcondensed
      obtain ⟨b, y, hb, hy, hst⟩ := exists_places_of_isWithin hx hstands hordered hst
      exact ⟨ts, cs, htokens, hcondensed, b, y, hb, fun h => absurd h hmem, hy, hst⟩
  · intro ts cs _ _ calls hcalls depth s hs rule e hread
    have hrecalls := Session.recalls_after (g := .standard) hcalls p.options p.observers
    have hderives := Grammar.standard.derives_of_outcome (Parse.outcome_of_read hs
      (σ := { p.session.after .standard calls with depth }) hrecalls hread)
    obtain ⟨t, us, htokens, hfirst⟩ := Node.exists_firstPlace_eq hderives.ne_nil
    rw [Slice.head?, htokens, hderives.position, hfirst]
    rfl

def checkedFunction : String :=
  "define function $f with $a , $b as \x7b if the $a is null then \x7b print 1 . \x7d " ++
    "otherwise if $b then \x7b return . \x7d \x7d print the first item of $c ."

def articleElement : Slice :=
  (Slice.ofSource checkedFunction "<input>").extract 27 32

def Stmt.isFunction : Stmt → Bool
  | .functionDefinition _ _ _ (_ :: _) => true
  | _ => false

theorem Stmt.exists_of_isFunction {top : Stmt} (h : top.isFunction = true) :
    ∃ place n ps st rest, top = .functionDefinition place n ps (st :: rest) := by
  cases top with
  | functionDefinition place n ps body =>
    cases body with
    | nil => exact absurd h Bool.false_ne_true
    | cons st rest => exact ⟨place, n, ps, st, rest, rfl⟩
  | _ => exact absurd h Bool.false_ne_true

/-- The conditional stands inside the function; the element behind `print` stands at its article, also
when it is remembered. -/
theorem nodes_in_place_checkedFunction :
    (∃ r place n ps st rest, ({} : Parser).parseSource checkedFunction = some r ∧
      .functionDefinition place n ps (st :: rest) ∈ r.nodes ∧
        ∃ ts cs, tokenize checkedFunction "<input>" = .ok ts ∧ condense ts = .ok cs ∧
          ∃ b x, b.IsPartOf (.ofTokens cs) ∧ (st ∈ r.nodes → b = .ofTokens cs) ∧
            x ∈ Sentence.ofBlock false b ∧
              x.IsTakenFor .standard {} (.ofTokens cs) st ∧ x.Places st) ∧
    ∃ rule e, ((Parse.read .standard articleElement).run.run
        { ({} : Parser).session.after .standard [⟨.block, .ofSource checkedFunction "<input>", 0⟩]
          with depth := 3 }).1 = .ok (some (rule, e)) ∧
      articleElement.head?.map (·.text) = some "the" ∧
        articleElement.head?.map (·.position) = some e.position := by
  constructor
  · -- Only that a function is parsed is computed; where its body stands follows from the theorem.
    obtain ⟨r, hr, hfirst⟩ := (Option.any_eq_true (fun r : Parsed => r.nodes.any Stmt.isFunction)
      (({} : Parser).parseSource checkedFunction)).mp (by decide +kernel)
    obtain ⟨top, htop, hfunction⟩ := List.any_eq_true.mp hfirst
    obtain ⟨place, n, ps, st, rest, rfl⟩ := Stmt.exists_of_isFunction hfunction
    have hst : (Node.statement st).IsWithin
        (.statement (.functionDefinition place n ps (st :: rest))) :=
      .single (List.mem_append_right _ (List.mem_cons_self ..))
    exact ⟨r, place, n, ps, st, rest, hr, htop,
      (nodes_in_place {} checkedFunction).1 r hr _ htop st hst⟩
  · obtain ⟨ts, htokens, hts⟩ := (Option.any_eq_true (fun ts => (condense ts).toOption.isSome)
      (tokenize checkedFunction "<input>").toOption).mp (by decide +kernel)
    obtain ⟨cs, hcs⟩ := Option.isSome_iff_exists.mp hts
    have htokens := eq_ok_of_toOption htokens
    have hcondensed := eq_ok_of_toOption hcs
    obtain ⟨⟨rule, e⟩, hread⟩ : ∃ r, ((Parse.read .standard articleElement).run.run
        { ({} : Parser).session.after .standard [⟨.block, .ofSource checkedFunction "<input>", 0⟩]
          with depth := 3 }).1 = .ok (some r) :=
      exists_eq_ok_some (by decide +kernel)
    have htext : articleElement.head?.map (·.text) = some "the" := by decide +kernel
    have hwhole : Slice.ofSource checkedFunction "<input>" = .ofTokens cs :=
      Slice.ofSource_eq htokens hcondensed
    refine ⟨rule, e, hread, htext, (nodes_in_place {} checkedFunction).2 ts cs htokens hcondensed _
      (List.forall_mem_singleton.mpr ?_) 3 articleElement ?_ rule e hread⟩
    · rw [hwhole]
      exact .refl _
    · rw [articleElement, hwhole]
      exact Slice.isPartOf_extract _ 27 32

end Prose
