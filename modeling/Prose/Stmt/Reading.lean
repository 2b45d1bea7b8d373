import Prose.Expr.Reading
import Prose.Stmt.Form

namespace Prose

namespace Stmt

/-- What a form of statements asks: the reading of an expression, the statements of a block inside a
construct, or that an unused value be noted. -/
inductive Question where
  | reading (s : Slice)
  | block (origin : String) (whole : List Token) (inner : Slice)
  | unusedValue (e : Expr) (shown : List Token)

@[reducible]
def Question.Reply : Question → Type
  | reading _ => Reading
  | block .. => List Stmt
  | unusedValue .. => Unit

abbrev Query := Inquiry Question Question.Reply

def ofExpr {α : Type} (q : Expr.Query α) : Query α :=
  q.translate fun s => .question (Question.reading s)

def required (origin name : String) (part : Slice) (whole : List Token) : Query Expr :=
  ofExpr (Expr.required origin name part whole)

def readBlock (origin : String) (whole : List Token) (inner : Slice) : Query (List Stmt) :=
  .question (Question.block origin whole inner)

/-- The required body of a construct: a block in brackets with or without a closing `.`, or a plain
run of statements. -/
def requiredBody (origin : String) (part : Slice) (whole : List Token) : Query (List Stmt) :=
  let trimmed := part.withoutTerminator
  if trimmed.isEmpty then .fail (Expr.missingPart origin "a body" whole)
  else readBlock origin whole ((trimmed.enclosed .blockStart).getD part)

def requiredBlock (origin : String) (part : Slice) (whole : List Token) : Query (List Stmt) :=
  if part.isEmpty then .fail (Expr.missingPart origin "a block" whole)
  else
    match part.enclosed .blockStart with
    | some inner => readBlock origin part.tokens inner
    | none =>
      .fail ((Expr.missingPart origin "a block" part.tokens).withHelp
        "wrap the statements in `\x7b \x7d` or `execute the following ; … fin`")

def requiredName (origin what : String) (part : Slice) (whole : List Token) :
    Except Problem String :=
  if part.isEmpty then .error (Expr.missingPart origin what whole)
  else
    match part.name? with
    | some n => .ok n
    | none =>
      .error ((Expr.invalidPart origin what part.tokens).withHelp
        "names start with `$`, as in `$total`")

theorem length_of_requiredName {origin what : String} {part : Slice} {whole : List Token}
    {n : String} (h : requiredName origin what part whole = .ok n) : part.length = 1 := by
  rw [requiredName] at h
  split at h
  · cases h
  · split at h
    · rename_i hname
      exact Slice.length_of_name? hname
    · cases h

def singleName (origin what : String) (part : Slice) (whole : List Token) :
    Except Problem { _n : String // part.length = 1 } :=
  match h : requiredName origin what part whole with
  | .ok n => .ok ⟨n, length_of_requiredName h⟩
  | .error p => .error p

def ofExcept {α : Type} : Except Problem α → Query α
  | .ok a => .done a
  | .error p => .fail p

def requiredParams (origin : String) (part : Slice) (whole : List Token) :
    Except Problem (List Param) :=
  if part.isEmpty then .error (Expr.missingPart origin "at least one name after `with`" whole)
  else
    (part.split .comma).mapM fun piece => do
      let ⟨name, h⟩ ← singleName origin "a name" piece whole
      return ⟨name, piece.place (h ▸ Nat.zero_lt_one)⟩

def optionalParams (origin noun : String) (help : Option String) (part : Slice)
    (whole : List Token) : Except Problem (List Param) :=
  if part.isEmpty then .ok []
  else if h : part.startsWith .withWord then
    requiredParams origin (part.onward 1 (part.length_pos_of_startsWith h)) whole
  else
    .error { Expr.missingPart origin ("`with` before the " ++ noun) part.tokens with help }

def readBlockStatement (s : Slice) : Query (Option Stmt) :=
  match s.withoutTerminator.inside .blockStart with
  | none => pure none
  | some ⟨inner, h⟩ => do
    have hlength : 0 < s.length := Slice.length_pos_of_withoutTerminator (Slice.length_pos_of_inside h)
    let body ← readBlock "parse_block_statement" s.tokens inner
    pure (some (.block (s.place hlength) body))

/-- Reads `define entry point as BODY`. -/
def readEntryPoint (s : Slice) : Query (Option Stmt) :=
  let origin := "parse_entry_point"
  match s.seekBehind .defineEntryPoint .asWord with
  | none => pure none
  | some asAt =>
    if asAt.1 ≠ 1 then
      .fail { cause := .unrecognized "words before `as`", origin, tokens := asAt.before.tokens }
    else do
      let body ← requiredBody origin asAt.behind s.tokens
      pure (some (.entryPoint asAt.place body))

/-- Reads `define function $name with $a , $b as BODY`. -/
def readFunctionDefinition (s : Slice) : Query (Option Stmt) :=
  let origin := "parse_function_definition"
  match s.seekBehind .defineFunction .asWord with
  | none => pure none
  | some asAt => do
    let header := asAt.before
    let ⟨name, h⟩ ← ofExcept (singleName origin "a function name" (header.take 1) s.tokens)
    let params ← ofExcept (optionalParams origin "parameters"
      (some "write `define function $name with $a , $b as …`")
      (header.onward 1 (header.length_pos_of_take h)) s.tokens)
    let body ← requiredBody origin asAt.behind s.tokens
    pure (some (.functionDefinition asAt.place name params body))

/-- Reads `define structure $Name with $a , $b .` -/
def readStructureDefinition (s : Slice) : Query (Option Stmt) :=
  let origin := "parse_structure_definition"
  let body := s.withoutTerminator
  if h : body.startsWith .defineStructure then do
    let name ← ofExcept (requiredName origin "a structure name" (body.extract 1 2) s.tokens)
    let fields ← ofExcept (optionalParams origin "fields" none (body.drop 2) s.tokens)
    pure (some (.structureDefinition (s.place (Slice.length_pos_of_trimmed_startsWith h)) name fields))
  else pure none

/-- The pieces of a slice from index `start` on that end where a block end, whose indices are given,
is followed by a further clause. -/
def clausePieces (s : Slice) (start : Nat) :
    (ends : List Nat) → s.AreCuts start ends → List Slice
  | [], h => [s.onward start h]
  | i :: is, h =>
    match s.tokens[i + 1]? with
    | some t =>
      if t.keyword = .otherwiseIf ∨ t.keyword = .otherwise then
        s.between start (i + 1) h.first_succ :: clausePieces s (i + 1) is h.behind
      else clausePieces s start is h.without
    | none => clausePieces s start is h.without

def clauses (s : Slice) : List Slice :=
  clausePieces s 0 (s.allOf .blockEnd) (s.areCuts_allOf .blockEnd)

def conditionalOrigin : String := "parse_conditional"

def chainProblem (fault : ChainFault) (tokens : List Token) : Problem :=
  { cause := .chain fault, origin := conditionalOrigin, tokens }

/-- Reads `if C then BODY` or `otherwise if C then BODY`. A condition that is missing or cannot be
read is a fault of the chain. -/
def readClause (clause : Slice) : Query (Expr × List Stmt) :=
  match clause.seek .thenWord 1 with
  | none =>
    let fault := .withoutThen ((clause.head?.map (·.text)).getD "")
    .fail ((chainProblem fault clause.tokens).withHelp "write `if CONDITION then ...`")
  | some thenAt => do
    let part := thenAt.before
    let condition ← ofExpr (Expr.requiredOr (chainProblem (.missing "a condition") clause.tokens)
      (chainProblem (.invalid "a condition") part.tokens) part)
    let body ← requiredBody conditionalOrigin thenAt.behind clause.tokens
    pure (condition, body)

/-- The clauses behind the first: any number of `otherwise if`, and at the end perhaps one
`otherwise`. -/
def readFurtherClauses : List Slice → Query (List Branch × Option (List Stmt))
  | [] => pure ([], none)
  | clause :: rest =>
    if h : clause.startsWith .otherwiseIf then do
      let (condition, body) ← readClause clause
      let (branches, elseBody) ← readFurtherClauses rest
      pure (.mk (clause.place (clause.length_pos_of_startsWith h)) condition body :: branches, elseBody)
    else if h : clause.startsWith .otherwise then
      if rest.isEmpty then do
        let part := clause.onward 1 (clause.length_pos_of_startsWith h)
        let body ← requiredBody conditionalOrigin part clause.tokens
        pure ([], some body)
      else .fail (chainProblem .otherwiseNotLast clause.tokens)
    else .fail (chainProblem .unexpectedClause clause.tokens)

def readConditional (chain : List Slice) : Query Stmt :=
  match chain.flatMap clauses with
  | [] => .fail (chainProblem .empty [])
  | first :: rest =>
    if h : first.startsWith .ifWord then do
      have hlength := first.length_pos_of_startsWith h
      let (condition, body) ← readClause first
      let (branches, elseBody) ← readFurtherClauses rest
      pure (.conditional (first.place hlength) condition body branches elseBody)
    else .fail (chainProblem .withoutIf first.tokens)

def readIf (s : Slice) : Query (Option Stmt) :=
  if s.startsWith .ifWord then some <$> readConditional [s] else pure none

/-- Reads `LEAD C do BODY`. -/
def readConditionLoop (lead : Keyword) (origin : String)
    (loop : Position → Expr → List Stmt → Stmt) (s : Slice) : Query (Option Stmt) :=
  match s.seekBehind lead .doWord with
  | none => pure none
  | some doAt => do
    let condition ← required origin "a condition" doAt.before s.tokens
    let body ← requiredBody origin doAt.behind s.tokens
    pure (some (loop doAt.place condition body))

/-- Reads `do BLOCK while C .` and `do BLOCK until C .` -/
def readDoLoop (s : Slice) : Query (Option Stmt) :=
  let origin := "parse_do_loop"
  let body := s.withoutTerminator
  if body.startsWith .doWord ∧ (body.drop 1).startsWith .blockStart then
    match body.seekClose 1 with
    | none => .fail { cause := .blocks .doNeverClosed, origin, tokens := s.tokens }
    | some close =>
      let place := s.place close.length_pos_of_withoutTerminator
      let tail := close.behind
      if h : tail.startsWith .whileWord ∨ tail.startsWith .untilWord then do
        have htail := h.elim tail.length_pos_of_startsWith tail.length_pos_of_startsWith
        let condition ← required origin "a condition" (tail.onward 1 htail) s.tokens
        let block ← readBlock origin s.tokens close.before
        pure (some (if tail.startsWith .whileWord then .doWhile place block condition
          else .doUntil place block condition))
      else pure none
  else pure none

/-- Reads `for each $x in E do BODY`. -/
def readForEach (s : Slice) : Query (Option Stmt) :=
  let origin := "parse_for_each"
  match s.seekBehind .forEach .inWord with
  | none => pure none
  | some inAt =>
    match s.seek .doWord (inAt.1 + 1) with
    | none => pure none
    | some doAt => do
      let name ← ofExcept (requiredName origin "a loop variable" inAt.before s.tokens)
      let iterable ← required origin "a list after `in`" doAt.before s.tokens
      let body ← requiredBody origin doAt.behind s.tokens
      pure (some (.forEach inAt.place name iterable body))

def readOptional (origin name : String) (part : Option Slice) (whole : List Token) :
    Query (Option Expr) :=
  match part with
  | none => pure none
  | some part => some <$> required origin name part whole

/-- Reads `for $i from A to B by S do BODY`. -/
def readForRange (s : Slice) : Query (Option Stmt) :=
  let origin := "parse_for_range"
  match s.seekBehind .forWord .fromWord with
  | none => pure none
  | some fromAt =>
    match s.seek .to (fromAt.1 + 1) with
    | none => pure none
    | some toAt =>
      match s.seek .doWord (toAt.1 + 1) with
      | none => pure none
      | some doAt => do
        let name ← ofExcept (requiredName origin "a loop variable" fromAt.before s.tokens)
        let start ← required origin "a start after `from`" toAt.before s.tokens
        let (stopPart, stepPart) :=
          match doAt.upTo.seek .byWord (toAt.1 + 1) with
          | some byAt => (byAt.before, some byAt.behind)
          | none => (doAt.before, none)
        let stop ← required origin "an end after `to`" stopPart s.tokens
        let step ← readOptional origin "a step after `by`" stepPart s.tokens
        let body ← requiredBody origin doAt.behind s.tokens
        pure (some (.forRange doAt.place name start stop step body))

/-- Reads `repeat E times BODY`. -/
def readRepeat (s : Slice) : Query (Option Stmt) :=
  let origin := "parse_repeat"
  match s.seekBehind .repeatWord .times with
  | none => pure none
  | some timesAt => do
    let count ← required origin "a count" timesAt.before s.tokens
    let body ← requiredBody origin timesAt.behind s.tokens
    pure (some (.repeatLoop timesAt.place count body))

/-- The name and the block of a handler. A first token with the kind of a name is taken for one,
also where it has no name. -/
def handlerName (handler : Slice) : Option String × Slice :=
  match handler.tokens with
  | t :: ts =>
    if t.kind = .identifier then (t.name?, ⟨handler.start + 1, ts⟩) else (none, handler)
  | [] => (none, handler)

/-- Reads `try BLOCK catch $e BLOCK finally BLOCK`. -/
def readTry (s : Slice) : Query (Option Stmt) :=
  let origin := "parse_try"
  let all := s.withoutTerminator
  match all.seekBehind .tryWord .catchWord with
  | none => pure none
  | some catchAt => do
    let finallyAt := all.seek .finallyWord (catchAt.1 + 1)
    let body ← requiredBlock origin catchAt.before s.tokens
    let handlerPart :=
      match finallyAt with
      | some i => i.before
      | none => catchAt.behind
    let (errorName, part) := handlerName handlerPart
    let handler ← requiredBlock origin part s.tokens
    let cleanup ←
      match finallyAt with
      | some i => some <$> requiredBlock origin i.behind s.tokens
      | none => pure none
    let place := s.place catchAt.length_pos_of_withoutTerminator
    pure (some (.tryCatch place body errorName handler cleanup))

/-- Reads `set TARGET equal to E .`, where the target is a name or an element of a list. -/
def readAssignment (s : Slice) : Query (Option Stmt) :=
  let origin := "parse_assignment"
  let body := s.withoutTerminator
  match body.seekBehind .set .equalTo with
  | none => pure none
  | some equalAt => do
    let place := s.place equalAt.length_pos_of_withoutTerminator
    let part := equalAt.before
    let value := required origin "a value after `equal to`" equalAt.behind s.tokens
    match ← required origin "a variable to set" part s.tokens with
    | target@(.identifier ..) | target@(.index ..) => do
      pure (some (.assignment place target (← value)))
    | _ =>
      .fail ((Expr.invalidPart origin "assignment target" part.tokens).withHelp
        "only a `$name` or a list item can be set")

/-- Reads `let $x be E .` -/
def readDeclaration (s : Slice) : Query (Option Stmt) :=
  let origin := "parse_declaration"
  let body := s.withoutTerminator
  match body.seekBehind .letWord .be with
  | none => pure none
  | some beAt => do
    let place := s.place beAt.length_pos_of_withoutTerminator
    let name ← ofExcept (requiredName origin "a variable name" beAt.before s.tokens)
    let value ← required origin "a value after `be`" beAt.behind s.tokens
    pure (some (.declaration place name value))

/-- Reads `increment $x by E .` and `decrement $x by E .` -/
def readIncrement (s : Slice) : Query (Option Stmt) :=
  let origin := "parse_increment"
  let body := s.withoutTerminator
  if h : body.startsWith .increment ∨ body.startsWith .decrement then do
    have hbody := h.elim body.length_pos_of_startsWith body.length_pos_of_startsWith
    let place := s.place (Slice.length_pos_of_withoutTerminator hbody)
    let byAt := body.seek .byWord 1
    let part :=
      match byAt with
      | some i => i.before
      | none => body.onward 1 hbody
    let name ← ofExcept (requiredName origin "a variable name" part s.tokens)
    let amount ←
      match byAt with
      | some i => some <$> required origin "an amount after `by`" i.behind s.tokens
      | none => pure none
    pure (some (if body.startsWith .increment then .increment place name amount
      else .decrement place name amount))
  else pure none

/-- Reads `swap $a and $b .` -/
def readSwap (s : Slice) : Query (Option Stmt) :=
  let origin := "parse_swap"
  let body := s.withoutTerminator
  match body.seekBehind .swap .andWord with
  | none => pure none
  | some andAt => do
    let place := s.place andAt.length_pos_of_withoutTerminator
    let left ← ofExcept (requiredName origin "a variable before `and`" andAt.before s.tokens)
    let right ← ofExcept (requiredName origin "a variable after `and`" andAt.behind s.tokens)
    pure (some (.swap place left right))

/-- Reads `LEAD E SEPARATOR E .` -/
def readPair (lead separator : Keyword) (origin first second : String)
    (pair : Position → Expr → Expr → Stmt) (s : Slice) : Query (Option Stmt) :=
  let body := s.withoutTerminator
  match body.seekBehind lead separator with
  | none => pure none
  | some i => do
    let place := s.place i.length_pos_of_withoutTerminator
    let value ← required origin first i.before s.tokens
    let list ← required origin second i.behind s.tokens
    pure (some (pair place value list))

/-- Reads `LEAD E .` -/
def readValue (leads : List Keyword) (origin : String) (statement : Position → Expr → Stmt)
    (s : Slice) : Query (Option Stmt) :=
  let body := s.withoutTerminator
  if h : leads.any body.startsWith then
    have hbody : 0 < body.length := by
      obtain ⟨k, -, hk⟩ := List.any_eq_true.mp h
      exact body.length_pos_of_startsWith hk
    do
    let value ← required origin "a value" (body.onward 1 hbody) s.tokens
    pure (some (statement (s.place (Slice.length_pos_of_withoutTerminator hbody)) value))
  else pure none

/-- Reads `return E .` and `return .` -/
def readReturn (s : Slice) : Query (Option Stmt) :=
  let body := s.withoutTerminator
  if h : body.startsWith .returnWord then
    have hbody := body.length_pos_of_startsWith h
    let place := s.place (Slice.length_pos_of_withoutTerminator hbody)
    if body.length = 1 then pure (some (.returning place none))
    else do
      let value ← required "parse_return" "a value" (body.onward 1 hbody) s.tokens
      pure (some (.returning place (some value)))
  else pure none

def readBare (lead : Keyword) (origin : String) (statement : Position → Stmt) (s : Slice) :
    Query (Option Stmt) :=
  let body := s.withoutTerminator
  if h : body.startsWith lead then
    have hbody := body.length_pos_of_startsWith h
    if 1 < body.length then
      .fail { cause := .unrecognized ("words after `" ++ (body.lead hbody).text ++ "`"),
              origin, tokens := (body.onward 1 hbody).tokens }
    else pure (some (statement (s.place (Slice.length_pos_of_withoutTerminator hbody))))
  else pure none

/-- Reads `import "module" .` -/
def readImport (s : Slice) : Query (Option Stmt) :=
  let origin := "parse_import"
  let body := s.withoutTerminator
  if h : body.startsWith .importWord then
    have hbody := body.length_pos_of_startsWith h
    let module := body.onward 1 hbody
    let invalid := (Expr.invalidPart origin "module name" module.tokens).withHelp
      "module names are quoted: `import \"math\" .`"
    match module.tokens with
    | [] => .fail (Expr.missingPart origin "a module name" s.tokens)
    | [t] =>
      if t.kind = .string then
        match t.unescaped with
        | .ok name =>
          pure (some (.importing (s.place (Slice.length_pos_of_withoutTerminator hbody)) name))
        | .error fault => .fail { cause := .literal fault, origin, tokens := [t] }
      else .fail invalid
    | _ => .fail invalid
  else pure none

/-- Reads `read into $x .` -/
def readReadInto (s : Slice) : Query (Option Stmt) :=
  let body := s.withoutTerminator
  if h : body.startsWith .readInto then do
    have hbody := body.length_pos_of_startsWith h
    let place := s.place (Slice.length_pos_of_withoutTerminator hbody)
    let part := body.onward 1 hbody
    let name ← ofExcept (requiredName "parse_read_into" "a variable name" part s.tokens)
    pure (some (.readInto place name))
  else pure none

/-- Any expression as a statement; an empty slice has none. A value that is not the result of a call
is noted as unused. -/
def readExpressionStatement (s : Slice) : Query (Option Stmt) :=
  if h : s.isEmpty then pure none
  else do
    let body := s.withoutTerminator
    match ← ofExpr (Expr.read body) with
    | none => pure none
    | some (_, e) => do
      match e with
      | .call .. => pure ()
      | _ => .question (Question.unusedValue e body.tokens)
      pure (some (.expression (s.place (s.length_pos_of_not_isEmpty h)) e))

def Form.read : Form → Slice → Query (Option Stmt)
  | block => readBlockStatement
  | entryPoint => readEntryPoint
  | functionDefinition => readFunctionDefinition
  | structureDefinition => readStructureDefinition
  | conditional => readIf
  | whileLoop => readConditionLoop .whileWord "parse_while" .whileLoop
  | untilLoop => readConditionLoop .untilWord "parse_until" .untilLoop
  | doLoop => readDoLoop
  | forEach => readForEach
  | forRange => readForRange
  | repeatLoop => readRepeat
  | tryCatch => readTry
  | assignment => readAssignment
  | declaration => readDeclaration
  | increment => readIncrement
  | print => readValue [.print, .display] "parse_print" .print
  | returning => readReturn
  | breaking => readBare .breakWord "parse_break" .breaking
  | continuing => readBare .continueWord "parse_continue" .continuing
  | exiting => readBare .exit "parse_exit" .exiting
  | throwing => readValue [.throw, .raise] "parse_throw" .throwing
  | assertion => readValue [.assert] "parse_assert" .assertion
  | importing => readImport
  | listAdd => readPair .add .to "parse_list_add" "a value to add" "a list after `to`" .listAdd
  | listRemove =>
    readPair .remove .fromWord "parse_list_remove" "a value to remove" "a list after `from`"
      .listRemove
  | swap => readSwap
  | readInto => readReadInto
  | expression => readExpressionStatement

end Stmt

end Prose
