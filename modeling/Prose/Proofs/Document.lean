import Prose.Parser
import Prose.Proofs.Block.Parallel
import Prose.Proofs.Block.Runs
import Prose.Proofs.Diagnostic
import Prose.Proofs.Program
import Prose.Proofs.Stmt.Json

/-! Programs and their documents: what a parse makes of a source text is read back from its
document, unless this is nested more deeply than the reader goes. -/
namespace Prose

open Json Json.Decoder

def programLevels (nodes : List Stmt) : Nat :=
  (Json.array (Stmt.listToJson Position.toJson nodes)).levels

section reading

variable {nodes : List Stmt} {n : Nat}

theorem Stmt.decodes_ofJson (hp : Stmt.movedAll Position.holding nodes = nodes)
    (hl : ∀ l ∈ Stmt.leavesAll nodes, l.IsProper) :
    Decodes n (list Stmt.ofJson) (.array (Stmt.listToJson Position.toJson nodes)) nodes := by
  induction nodes with
  | nil => exact decodes_nil
  | cons st sts ih =>
    simp only [Stmt.movedAll, List.cons.injEq] at hp
    simp only [Stmt.leavesAll, List.forall_mem_append] at hl
    exact decodes_cons (fun d _ => Stmt.decodes_toJson hp.1 hl.1 (d + 1) d d.lt_succ_self)
      (ih hp.2 hl.2)

theorem readProgram_of_holding (hp : relocate Position.holding nodes = nodes)
    (hl : ∀ l ∈ Stmt.leavesAll nodes, l.IsProper) :
    readProgram (programDocument nodes) =
      if programLevels nodes ≤ maxLevels then some nodes else none := by
  have hplain : (Json.array (Stmt.listToJson Position.toJson nodes)).IsPlain :=
    Stmt.isPlain_listToJson Position.isPlain_toJson nodes
  rw [← Stmt.movedAll_eq] at hp
  rw [readProgram, programDocument, hplain.parse_render]
  exact Stmt.decodes_ofJson hp hl maxLevels (Nat.lt_succ_self maxLevels)

end reading

section values

/-- The value of a token is proper. -/
theorem isProper_of_spells {t : Token} {v : Literal} (h : t.Spells v) :
    (Leaf.value v).IsProper := by
  -- A number is proper as it has been read or made from a natural number, and all else is so at
  -- once.
  cases h with
  | number hk hv =>
    unfold Token.numberValue at hv
    split at hv
    · rename_i d hd
      cases hv
      split at hd
      · exact .of_read? hd
      · cases hd
    · cases hv
  | ordinal hk hv =>
    unfold Token.ordinalValue at hv
    split at hv
    · rename_i d hd
      cases hv
      obtain ⟨k, -, hk⟩ := Option.bind_eq_some_iff.mp hd
      exact .of_ofNat? hk
    · cases hv
  | text => trivial
  | character hk hv =>
    obtain ⟨x, -, hx⟩ := Stmt.exists_of_bind_eq_ok hv
    split at hx <;> cases hx
    trivial
  | constant hv =>
    generalize t.keyword = k at hv
    cases k <;> cases hv <;> trivial

end values

section places

variable {name source : String} {ts cs : List Token}

/-- The place of a character fits into 64 bits if the number of characters does. -/
theorem holding_of_standsAt {c : Char} {place : Position} (hsource : source.length < Nat.pow 2 64)
    (h : Lexer.StandsAt name [] source.toList c place) : Position.holding.place place = place := by
  obtain ⟨more, rest, hcs, rfl, -⟩ := h
  have hlength : more.length < source.length := by
    rw [← String.length_toList, hcs, List.length_append, List.length_cons]
    omega
  have hline : more.count '\n' ≤ more.length := List.count_le_length
  have hcolumn : (more.reverse.takeWhile (· != '\n')).length ≤ more.length :=
    Nat.le_trans (List.takeWhile_prefix _).length_le (Nat.le_of_eq List.length_reverse)
  refine if_pos ⟨?_, ?_⟩
  · change more.count '\n' + 1 < Nat.pow 2 64
    omega
  · change (more.reverse.takeWhile (· != '\n')).length + 1 < Nat.pow 2 64
    omega

/-- The places of all condensed tokens fit. -/
theorem relocate_condensed (hsource : source.length < Nat.pow 2 64)
    (hts : tokenize source name = .ok ts) (hcs : condense ts = .ok cs) :
    relocate Position.holding cs = cs := by
  have hshown : (Parser.shown ts).tokens = cs := by
    rw [Parser.shown, hcs]
    rfl
  refine (List.map_congr_left fun u hu => ?_).trans (List.map_id cs)
  obtain ⟨t, ht, hplace⟩ := Parser.exists_position_of_shown hts u (hshown ▸ hu)
  obtain ⟨c, -, hstands⟩ := Lexer.standsAt_of_tokenize hts t ht
  have hfits := holding_of_standsAt hsource hstands
  rw [hplace] at hfits
  exact congrArg (fun p => { u with position := p }) hfits

/-- A block has no other places than its tokens: what moves none of these moves none of its
statements. -/
theorem Parse.relocate_block {ρ : Relocation} {g : Grammar} {s : Slice} {σ : Session}
    (hs : relocate ρ s = s) (hσ : ∀ q, σ.memo.find? q = none) :
    relocate ρ ((Parse.block g s).run σ).1 = ((Parse.block g s).run σ).1 := by
  have hstart : Session.Parallel ρ s σ σ σ σ :=
    .start rfl rfl fun q _ _ => by rw [hσ, hσ]; rfl
  have hnodes := (inParallel_block (g := g) (.refl s) σ σ σ σ hstart).1
  rw [hs] at hnodes
  exact hnodes.symm

end places

section parses

variable {p : Parser} {source : String} {r : Parsed}

/-- The statements of a source text are those of a block of its condensed tokens, or there are
none. -/
theorem nodes_of_parseSource (h : p.parseSource source = some r) :
    r.nodes = [] ∨ ∃ ts cs message, tokenize source p.options.sourceName = .ok ts ∧
      condense ts = .ok cs ∧ r.nodes =
        ((Parse.block .standard (.ofTokens cs)).run (p.session.log .debug message)).1 := by
  unfold Parser.parseSource Parser.parse at h
  split at h
  · cases h
    exact .inl rfl
  · rename_i ts hts
    split at h
    · cases h
      exact .inl rfl
    · cases h
    · rename_i cs hcs
      cases h
      obtain ⟨message, hnodes, -⟩ := exists_of_program ts.length cs p.session
      exact .inr ⟨ts, cs, message, hts, hcs, hnodes⟩

theorem relocate_nodes (hsource : source.length < Nat.pow 2 64)
    (h : p.parseSource source = some r) :
    relocate Position.holding r.nodes = r.nodes := by
  rcases nodes_of_parseSource h with hnil | ⟨ts, cs, message, hts, hcs, hnodes⟩
  · rw [hnil]
    rfl
  · rw [hnodes]
    refine Parse.relocate_block ?_ Memo.find?_empty
    exact congrArg (Slice.mk 0) (relocate_condensed hsource hts hcs)

theorem isProper_of_nodes (h : p.parseSource source = some r) :
    ∀ l ∈ Stmt.leavesAll r.nodes, l.IsProper := by
  rcases nodes_of_parseSource h with hnil | ⟨ts, cs, message, -, -, hnodes⟩
  · rw [hnil]
    exact List.forall_mem_nil _
  · rw [hnodes]
    exact Parse.leaves_of_block (fun _ => trivial) (fun _ _ => isProper_of_spells)
      (Session.recalls_start _ _ p.options p.observers)

end parses

/-- What a parse makes of a source text is read back from its document if this has at most 127
levels of arrays and objects, and the reader refuses every other document. -/
theorem readProgram_of_parseSource (p : Parser) {source : String}
    (hsource : source.length < Nat.pow 2 64) :
    ∀ r ∈ p.parseSource source, readProgram (programDocument r.nodes) =
      if programLevels r.nodes ≤ maxLevels then some r.nodes else none :=
  fun _ hr => readProgram_of_holding (relocate_nodes hsource hr) (isProper_of_nodes hr)

def guardedReturn : String :=
  "try \x7b return . \x7d catch $e \x7b print \"é\\n\" plus 2.50 . return '\\t' . \x7d"

/-- The program is read back, since its document has few levels. -/
theorem readProgram_of_parseSource_guardedReturn :
    guardedReturn.length < Nat.pow 2 64 ∧ ∃ r ∈ ({} : Parser).parseSource guardedReturn,
      r.nodes.length = 1 ∧ readProgram (programDocument r.nodes) = some r.nodes := by
  have hlength : guardedReturn.length < Nat.pow 2 64 := by decide
  have hparse : ∃ r ∈ ({} : Parser).parseSource guardedReturn,
      r.nodes.length = 1 ∧ programLevels r.nodes ≤ maxLevels := by
    decide +kernel
  obtain ⟨r, hr, hnodes, hlevels⟩ := hparse
  refine ⟨hlength, r, hr, hnodes, ?_⟩
  rw [readProgram_of_parseSource {} hlength r hr, if_pos hlevels]

def deepNegation : String :=
  "print " ++ String.join (List.replicate 41 "not ") ++ "true ."

/-- The program is parsed without a problem, but the reader refuses its document. -/
theorem readProgram_ne_of_deepNegation :
    ∃ r ∈ ({} : Parser).parseSource deepNegation, r.isClean = true ∧
      readProgram (programDocument r.nodes) ≠ some r.nodes := by
  have hlength : deepNegation.length < Nat.pow 2 64 := by decide +kernel
  have hparse : ∃ r ∈ ({} : Parser).parseSource deepNegation,
      r.isClean = true ∧ ¬ programLevels r.nodes ≤ maxLevels := by
    decide +kernel
  obtain ⟨r, hr, hclean, hlevels⟩ := hparse
  refine ⟨r, hr, hclean, ?_⟩
  rw [readProgram_of_holding (relocate_nodes hlength hr) (isProper_of_nodes hr), if_neg hlevels]
  exact Option.some_ne_none _ ∘ Eq.symm

end Prose
