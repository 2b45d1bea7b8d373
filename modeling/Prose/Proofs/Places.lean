import Prose.Parser
import Prose.Proofs.Block.Parallel
import Prose.Proofs.Condense.Relocation

/-! Programs in other places. No decision of a parse depends on where a token was written: the same
tokens in other places give the same statements, problems and log entries in these places. -/
namespace Prose

open Session

/-- A log entry of a parse and the same entry of the parse in other places. Some entries begin with
a place, others tell of none. -/
inductive LogEntry.Corresponds (ρ : Relocation) (e e' : LogEntry) : Prop
  | same (h : e = e')
  | located (h : Relocated ρ e e')

theorem LogEntry.Corresponds.level {ρ : Relocation} {e e' : LogEntry} (h : Corresponds ρ e e') :
    e.level = e'.level := by
  cases h with
  | same h => rw [h]
  | located h =>
    cases h
    rfl

structure Parsed.Corresponds (ρ : Relocation) (r r' : Parsed) : Prop where
  nodes : r'.nodes = relocate ρ r.nodes
  errors : r'.errors = relocate ρ r.errors
  logs : List.Forall₂ (LogEntry.Corresponds ρ) r.logs r'.logs

namespace Parser

def opening (name : String) (count condensed : Nat) : String :=
  "parsing `" ++ name ++ "`: " ++ toString count ++ " tokens (" ++ toString condensed ++
    " after condensing)"

def closing (statements errors : Nat) : String :=
  "parsed " ++ toString statements ++ " statements with " ++ toString errors ++ " errors"

theorem run_program (count : Nat) (cs : List Token) (σ : Session) :
    (program count cs).run σ =
      let (nodes, τ) := (Parse.block .standard (.ofTokens cs)).run
        (σ.log .debug (opening σ.options.sourceName count cs.length))
      (nodes, τ.log .info (closing nodes.length τ.errors.size)) := rfl

variable {ρ : Relocation}

/-- The condensed tokens are read between two log entries that tell of no place. -/
theorem corresponds_program (hρ : ρ.offset = 0) (p : Parser) (count : Nat) (cs : List Token) :
    Parsed.Corresponds ρ
      (collect ((program count cs).run p.session).1 ((program count cs).run p.session).2)
      (collect ((program count (relocate ρ cs)).run p.session).1
        ((program count (relocate ρ cs)).run p.session).2) := by
  -- A program begins at the index 0, so the indices of its slices stay what they are.
  have hslice : Slice.ofTokens (relocate ρ cs) = relocate ρ (Slice.ofTokens cs) := by
    change Slice.mk 0 _ = Slice.mk (0 + ρ.offset) _
    rw [hρ]
    rfl
  rw [run_program, run_program, length_relocate_list, hslice]
  generalize hσ₀ : p.session.log .debug (opening p.session.options.sourceName count cs.length) = σ₀
  have hlogs₀ : σ₀.logs.toList =
      [⟨.debug, opening p.session.options.sourceName count cs.length⟩] := by
    rw [← hσ₀]
    rfl
  have herrors₀ : σ₀.errors.toList = [] := by
    rw [← hσ₀]
    rfl
  have hstart : Parallel ρ (.ofTokens cs) σ₀ σ₀ σ₀ σ₀ := by
    refine .start rfl rfl fun q _ _ => ?_
    rw [← hσ₀]
    rfl
  obtain ⟨hnodes, hparallel⟩ :=
    Parse.inParallel_block (g := .standard) (.refl (.ofTokens cs)) σ₀ σ₀ σ₀ σ₀ hstart
  generalize (Parse.block .standard (.ofTokens cs)).run σ₀ = here at hnodes hparallel
  generalize (Parse.block .standard (relocate ρ (.ofTokens cs))).run σ₀ = there
    at hnodes hparallel
  obtain ⟨nodes, σ⟩ := here
  obtain ⟨nodes', τ⟩ := there
  obtain ⟨ps, hσ, hτ⟩ := hparallel.errors
  obtain ⟨es, es', hes, hes', hlogs⟩ := hparallel.logs
  rw [herrors₀, List.nil_append] at hσ hτ
  refine ⟨hnodes, ?_, ?_⟩
  · exact hτ.trans (congrArg (relocate ρ) hσ.symm)
  · have hsize : τ.errors.size = σ.errors.size := by
      rw [← Array.length_toList, ← Array.length_toList, hσ, hτ, length_relocate_list]
    have hlength : nodes'.length = nodes.length := by
      rw [show nodes' = relocate ρ nodes from hnodes, length_relocate_list]
    have hcollected (σ : Session) (m : String) :
        (σ.log .info m).logs.toList = σ.logs.toList ++ [⟨.info, m⟩] := Array.toList_push
    change List.Forall₂ _ (σ.log .info _).logs.toList (τ.log .info _).logs.toList
    rw [hcollected, hcollected, hes, hes', hlogs₀, hsize, hlength]
    refine List.rel_append (List.rel_append (.cons (.same rfl) .nil) ?_) (.cons (.same rfl) .nil)
    exact hlogs.imp fun _ _ => .located

/-- Tokens in other places are parsed as the same program in these places, or fail to be parsed in
the same way. -/
theorem corresponds_parse (hρ : ρ.offset = 0) (p : Parser) (ts : List Token) :
    Option.Rel (Parsed.Corresponds ρ) (p.parse ts) (p.parse (relocate ρ ts)) := by
  rw [parse, parse, condense_relocate, length_relocate_list]
  match condense ts with
  | .error (.problem e) => exact .some ⟨rfl, rfl, .nil⟩
  | .error .placesExhausted => exact .none
  | .ok cs => exact .some (corresponds_program hρ p ts.length cs)

end Parser

def Relocation.nowhere : Relocation :=
  ⟨0, fun _ => .unknown, rfl⟩

structure Token.SameWord (t u : Token) : Prop where
  kind : t.kind = u.kind
  text : t.text = u.text
  keyword : t.keyword = u.keyword

theorem Token.SameWord.relocate_eq {t u : Token} (h : t.SameWord u) :
    relocate .nowhere t = relocate .nowhere u := by
  obtain ⟨kind, text, keyword, p⟩ := t
  obtain ⟨kind', text', keyword', q⟩ := u
  obtain ⟨rfl, rfl, rfl⟩ := h
  rfl

theorem Token.relocate_eq_of_sameWords {ts us : List Token} (h : List.Forall₂ SameWord ts us) :
    relocate .nowhere ts = relocate .nowhere us := by
  induction h with
  | nil => rfl
  | cons ht _ ih => exact congrArg₂ List.cons ht.relocate_eq ih

/-- What a problem tells without its places: its class, the rule that raised it, its wording, the
hint, and the texts of the tokens at fault. -/
def Problem.wording (p : Problem) : Problem.Code × String × String × Option String × List String :=
  (p.code, p.origin, p.message, p.help, p.tokens.map (·.text))

theorem Problem.wording_relocate (ρ : Relocation) (p : Problem) :
    (relocate ρ p).wording = p.wording := by
  have htexts : (relocate ρ p.tokens).map (·.text) = p.tokens.map (·.text) := by
    rw [relocate_list, List.map_map]
    rfl
  have hmessage : (relocate ρ p).message = p.message := by
    simp only [message]
    rw [show (relocate ρ p).tokens = relocate ρ p.tokens from rfl, Token.render_relocate]
    rfl
  rw [wording, wording, hmessage]
  exact congrArg (fun texts => (p.code, p.origin, p.message, p.help, texts)) htexts

/-- Two parses produced the same but for places: the same statements, problems that are the same and
have the same wording, and log entries of the same levels. -/
structure Parsed.SameButPlaces (r r' : Parsed) : Prop where
  nodes : relocate .nowhere r.nodes = relocate .nowhere r'.nodes
  errors : relocate .nowhere r.errors = relocate .nowhere r'.errors
  wording : r.errors.map Problem.wording = r'.errors.map Problem.wording
  levels : r.logs.map (·.level) = r'.logs.map (·.level)

theorem Parsed.Corresponds.levels {ρ : Relocation} {r r' : Parsed} (h : r.Corresponds ρ r') :
    r'.logs.map (·.level) = r.logs.map (·.level) := by
  have hall : ∀ {es es' : List LogEntry}, List.Forall₂ (LogEntry.Corresponds ρ) es es' →
      es'.map (·.level) = es.map (·.level) := by
    intro es es' hes
    induction hes with
    | nil => rfl
    | cons he _ ih => exact congrArg₂ List.cons he.level.symm ih
  exact hall h.logs

theorem Parsed.Corresponds.sameButPlaces {r r' q : Parsed} (h : r.Corresponds .nowhere q)
    (h' : r'.Corresponds .nowhere q) : r.SameButPlaces r' where
  nodes := h.nodes.symm.trans h'.nodes
  errors := h.errors.symm.trans h'.errors
  wording := by
    have hwording (r : Parsed) :
        (relocate .nowhere r.errors).map Problem.wording = r.errors.map Problem.wording := by
      rw [relocate_list, List.map_map]
      exact List.map_congr_left fun p _ => p.wording_relocate .nowhere
    rw [← hwording r, ← hwording r', ← h.errors, ← h'.errors]
  levels := h.levels.symm.trans h'.levels

/-- Layout does not matter: two lists of the same words, written in any places, are parsed as the
same program. -/
theorem Parser.parse_sameWords (p : Parser) {ts us : List Token}
    (h : List.Forall₂ Token.SameWord ts us) :
    Option.Rel Parsed.SameButPlaces (p.parse ts) (p.parse us) := by
  -- Without their places both lists are the same, so each parse corresponds to one and the same.
  have hts := corresponds_parse (ρ := .nowhere) rfl p ts
  have hus := corresponds_parse (ρ := .nowhere) rfl p us
  rw [Token.relocate_eq_of_sameWords h] at hts
  generalize p.parse ts = r at hts
  generalize p.parse us = r' at hus
  generalize p.parse (relocate .nowhere us) = there at hts hus
  cases hts with
  | none =>
    cases hus
    exact .none
  | some hr =>
    cases hus with
    | some hr' => exact .some (hr.sameButPlaces hr')

def scatteredWords : List Token :=
  (tokenize "$a plus 1 .\n  print ( ." "t").toOption.getD []

def gatheredWords : List Token :=
  scatteredWords.map fun t => { t with position := ⟨7, 1, "u"⟩ }

/-- The problems point at other places. -/
theorem parse_sameWords_scatteredWords :
    List.Forall₂ Token.SameWord scatteredWords gatheredWords ∧
      ∃ r r', ({} : Parser).parse scatteredWords = some r ∧
        ({} : Parser).parse gatheredWords = some r' ∧ r.errors ≠ r'.errors ∧
          r.SameButPlaces r' := by
  have hwords : List.Forall₂ Token.SameWord scatteredWords gatheredWords :=
    List.forall₂_map_right_iff.mpr (List.forall₂_same.mpr fun _ _ => ⟨rfl, rfl, rfl⟩)
  have hsame := Parser.parse_sameWords {} hwords
  have herrors : (({} : Parser).parse scatteredWords).map (·.errors) ≠
      (({} : Parser).parse gatheredWords).map (·.errors) := by
    decide +kernel
  refine ⟨hwords, ?_⟩
  generalize ({} : Parser).parse scatteredWords = p at hsame herrors
  generalize ({} : Parser).parse gatheredWords = q at hsame herrors
  cases hsame with
  | none => exact absurd rfl herrors
  | some h => exact ⟨_, _, rfl, rfl, fun heq => herrors (congrArg some heq), h⟩

end Prose
