import Mathlib.Data.List.Nodup
import Prose.Parser
import Prose.Proofs.Session.Quiet

namespace Prose

namespace Event

def problem? : Event → Option Problem
  | error p => some p
  | log _ => none

def entry? : Event → Option LogEntry
  | error _ => none
  | log e => some e

end Event

namespace Delivery

/-- Events as `n` observers are told of them: all observers of the first one in the order of their
subscription, then all of the next one. -/
def inTurn (n : Nat) (events : List Event) : List Delivery :=
  events.flatMap fun e => (List.range n).map (Delivery.mk · e)

theorem inTurn_append (n : Nat) (es fs : List Event) :
    inTurn n (es ++ fs) = inTurn n es ++ inTurn n fs :=
  List.flatMap_append

/-- An observer is told of an event once. -/
theorem events_deliveries {n i : Nat} (hi : i < n) (e : Event) :
    (((List.range n).map (Delivery.mk · e)).filter (·.observer == i)).map (·.event) = [e] := by
  have hone : (List.range n).filter (· == i) = [i] := by
    rw [List.filter_beq, List.count_eq_one_of_mem List.nodup_range (List.mem_range.mpr hi)]
    rfl
  rw [List.filter_map, List.map_map]
  change ((List.range n).filter (· == i)).map (fun _ => e) = [e]
  rw [hone]
  rfl

theorem events_inTurn {n i : Nat} (hi : i < n) (events : List Event) :
    ((inTurn n events).filter (·.observer == i)).map (·.event) = events := by
  induction events with
  | nil => rfl
  | cons e es ih =>
    change (((List.range n).map (Delivery.mk · e) ++ inTurn n es).filter (·.observer == i)).map
      (·.event) = e :: es
    rw [List.filter_append, List.map_append, events_deliveries hi, ih]
    rfl

end Delivery

namespace Session

/-- Between the states all observers were told of the events, and these are what was reported and
logged. -/
structure Told (events : List Event) (σ τ : Session) : Prop where
  observers : τ.observers = σ.observers
  deliveries : τ.deliveries.toList = σ.deliveries.toList ++ Delivery.inTurn σ.observers events
  errors : τ.errors.toList = σ.errors.toList ++ events.filterMap Event.problem?
  logs : τ.logs.toList = σ.logs.toList ++ events.filterMap Event.entry?

def Tells (σ τ : Session) : Prop :=
  ∃ events, Told events σ τ

variable {σ τ υ : Session} {es fs : List Event}

theorem Told.trans (h : Told es σ τ) (h' : Told fs τ υ) : Told (es ++ fs) σ υ where
  observers := h'.observers.trans h.observers
  deliveries := by
    rw [h'.deliveries, h.deliveries, h.observers, Delivery.inTurn_append, List.append_assoc]
  errors := by rw [h'.errors, h.errors, List.filterMap_append, List.append_assoc]
  logs := by rw [h'.logs, h.logs, List.filterMap_append, List.append_assoc]

/-- Sessions that are alike differ by nothing that could be told. -/
theorem Alike.told (h : σ.Alike τ) : Told [] σ τ where
  observers := h.observers
  deliveries := by rw [h.deliveries]; exact (List.append_nil _).symm
  errors := by rw [h.errors]; exact (List.append_nil _).symm
  logs := by rw [h.logs]; exact (List.append_nil _).symm

theorem told_notify (σ : Session) (e : Event) :
    (σ.notify e).deliveries.toList = σ.deliveries.toList ++ Delivery.inTurn σ.observers [e] := by
  simp [notify, Delivery.inTurn]

theorem told_log (σ : Session) (level : LogLevel) (message : String) :
    Told [.log ⟨level, message⟩] σ (σ.log level message) where
  observers := rfl
  deliveries := told_notify (σ.record _) _
  errors := (List.append_nil _).symm
  logs := Array.toList_push

theorem told_report (σ : Session) (p : Problem) : Told [.error p] σ (σ.report p) where
  observers := rfl
  deliveries := told_notify (σ.record _) _
  errors := Array.toList_push
  logs := (List.append_nil _).symm

theorem isLasting_tells : IsLasting Tells where
  refl σ := ⟨[], (Alike.refl σ).told⟩
  trans := fun ⟨es, hes⟩ ⟨fs, hfs⟩ => ⟨es ++ fs, hes.trans hfs⟩
  record σ _ _ := ⟨[], (alike_record σ _).told⟩
  log σ level message := ⟨_, told_log σ level message⟩
  report σ p := ⟨_, told_report σ p⟩
  atDepth := fun _ ⟨es, h⟩ => ⟨es, h.observers, h.deliveries, h.errors, h.logs⟩
  leave := fun ⟨es, h⟩ => ⟨es, h.observers, h.deliveries, h.errors, h.logs⟩

end Session

open Session Parse

/-- A block tells the observers of all that happens in it. -/
theorem Parse.tells_block (g : Grammar) (s : Slice) : Lasts Tells (block g s) :=
  lasts_blockWithin isLasting_tells (fun part _ σ => ⟨[], (alike_read part σ).told⟩) s.length s
    (.refl s)

theorem Parser.tells_program (count : Nat) (tokens : List Token) :
    Lasts Tells (program count tokens) := by
  have hlog (level : LogLevel) (message : Session → String) :
      Lasts Tells (modify fun σ => σ.log level (message σ)) :=
    fun σ => isLasting_tells.log σ level (message σ)
  refine .get_bind fun σ => .bind isLasting_tells (hlog _ _) fun _ => ?_
  refine .bind isLasting_tells (tells_block _ _) fun nodes => ?_
  exact .bind isLasting_tells (hlog _ _) fun _ => .pure isLasting_tells _

namespace Parsed

/-- Each of the `n` observers heard the same events, each event before the next one. The problems among
them are those of the parse, and so are the log entries, both in their order. -/
def IsHeardBy (n : Nat) (r : Parsed) : Prop :=
  ∃ events : List Event, r.deliveries = Delivery.inTurn n events ∧
    (∀ i < n, (r.deliveries.filter (·.observer == i)).map (·.event) = events) ∧
    events.filterMap Event.problem? = r.errors ∧ events.filterMap Event.entry? = r.logs

theorem isHeardBy_of_inTurn {n : Nat} {r : Parsed} (events : List Event)
    (hdeliveries : r.deliveries = Delivery.inTurn n events)
    (herrors : events.filterMap Event.problem? = r.errors)
    (hlogs : events.filterMap Event.entry? = r.logs) : r.IsHeardBy n := by
  refine ⟨events, hdeliveries, fun i hi => ?_, herrors, hlogs⟩
  rw [hdeliveries]
  exact Delivery.events_inTurn hi events

end Parsed

namespace Parser

/-- A problem that ends a parse is all that is told of it. -/
theorem isHeardBy_abort (p : Parser) (e : Problem) : (p.abort e).IsHeardBy p.observers := by
  refine Parsed.isHeardBy_of_inTurn [.error e] ?_ rfl rfl
  exact told_notify (p.session.record (.aborted e)) (.error e)

theorem isHeardBy_of_parse {p : Parser} {tokens : List Token} {r : Parsed}
    (h : p.parse tokens = some r) : r.IsHeardBy p.observers := by
  unfold parse at h
  match hcondensed : condense tokens with
  | .error (.problem e) =>
    rw [hcondensed] at h
    cases h
    exact isHeardBy_abort p e
  | .error .placesExhausted =>
    rw [hcondensed] at h
    cases h
  | .ok condensed =>
    rw [hcondensed] at h
    cases h
    -- The session starts without problems, entries or deliveries.
    obtain ⟨events, htold⟩ := tells_program tokens.length condensed p.session
    exact Parsed.isHeardBy_of_inTurn events htold.deliveries htold.errors.symm htold.logs.symm

/-- Whatever tokens or source text a parser is given, its observers hear of the same events in turn,
and these are the problems and the log entries that it answers with. -/
theorem isHeardBy_of_input (p : Parser) :
    (∀ tokens, ∀ r ∈ p.parse tokens, r.IsHeardBy p.observers) ∧
      ∀ source, ∀ r ∈ p.parseSource source, r.IsHeardBy p.observers := by
  refine ⟨fun tokens r hr => isHeardBy_of_parse hr, fun source r hr => ?_⟩
  simp only [parseSource, Option.mem_def] at hr
  match htokens : tokenize source p.options.sourceName with
  | .error e =>
    rw [htokens] at hr
    cases hr
    exact isHeardBy_abort p _
  | .ok tokens =>
    rw [htokens] at hr
    exact isHeardBy_of_parse hr

/-- Two observers of a value that is not used, a sentence that is none and one without its `.` hear ten
times; those of a text that is never closed hear twice. -/
theorem isHeardBy_of_input_unusedValue :
    (∃ r ∈ ({ observers := 2 } : Parser).parseSource "1 . $a $b . print 2",
      (r.errors.length = 1 ∧ r.logs.length = 4 ∧ r.deliveries.length = 10) ∧ r.IsHeardBy 2) ∧
    (∃ r ∈ ({ observers := 2 } : Parser).parseSource "\"open",
      (r.errors.length = 1 ∧ r.logs.length = 0 ∧ r.deliveries.length = 2) ∧ r.IsHeardBy 2) ∧
    ∃ r ∈ ({ observers := 2 } : Parser).parse [], r.IsHeardBy 2 := by
  obtain ⟨htokens, hsource⟩ := isHeardBy_of_input { observers := 2 }
  have hunused : ∃ r ∈ ({ observers := 2 } : Parser).parseSource "1 . $a $b . print 2",
      r.errors.length = 1 ∧ r.logs.length = 4 ∧ r.deliveries.length = 10 := by decide +kernel
  have hopen : ∃ r ∈ ({ observers := 2 } : Parser).parseSource "\"open",
      r.errors.length = 1 ∧ r.logs.length = 0 ∧ r.deliveries.length = 2 := by decide +kernel
  have hempty : ∃ r, r ∈ ({ observers := 2 } : Parser).parse [] := ⟨_, rfl⟩
  obtain ⟨r, hr, hcounts⟩ := hunused
  obtain ⟨r', hr', hcounts'⟩ := hopen
  obtain ⟨r'', hr''⟩ := hempty
  exact ⟨⟨r, hr, hcounts, hsource _ r hr⟩, ⟨r', hr', hcounts', hsource _ r' hr'⟩, r'', hr'',
    htokens _ r'' hr''⟩

end Parser

end Prose
