import Prose.Proofs.Slice.Depth
import Prose.Stmt.Reading

namespace Prose.Stmt

open Slice

theorem requiredName_eq_map_singleName (origin what : String) (part : Slice) (whole : List Token) :
    requiredName origin what part whole = (singleName origin what part whole).map (·.1) := by
  unfold singleName
  split <;> assumption

theorem requiredParams_eq (origin : String) (part : Slice) (whole : List Token) :
    requiredParams origin part whole =
    (if part.isEmpty then .error (Expr.missingPart origin "at least one name after `with`" whole)
    else
      (part.split .comma).mapM fun piece => do
        let name ← requiredName origin "a name" piece whole
        return ⟨name, piece.position⟩) := by
  simp only [requiredParams, requiredName_eq_map_singleName]
  split
  · rfl
  · congr 1
    funext piece
    cases singleName origin "a name" piece whole with
    | error p => rfl
    | ok n => exact congrArg (fun place => Except.ok (Param.mk n.1 place)) (place_eq ..)

theorem optionalParams_eq (origin noun : String) (help : Option String) (part : Slice)
    (whole : List Token) :
    optionalParams origin noun help part whole =
    (if part.isEmpty then .ok []
    else if part.startsWith .withWord then requiredParams origin (part.drop 1) whole
    else
      .error { Expr.missingPart origin ("`with` before the " ++ noun) part.tokens with help }) := by
  simp only [optionalParams, dite_eq_ite, onward_eq_drop]

theorem readBlockStatement_eq (s : Slice) : readBlockStatement s =
    (match s.withoutTerminator.enclosed .blockStart with
    | none => pure none
    | some inner => do
      let body ← readBlock "parse_block_statement" s.tokens inner
      pure (some (.block s.position body))) := by
  rw [readBlockStatement, enclosed_eq_map_inside]
  cases s.withoutTerminator.inside .blockStart with
  | none => rfl
  | some inner => simp only [place_eq, Option.map_some]

theorem readEntryPoint_eq (s : Slice) : readEntryPoint s =
    (let origin := "parse_entry_point"
    match if s.startsWith .defineEntryPoint then s.first .asWord 1 else none with
    | none => pure none
    | some asAt =>
      if asAt ≠ 1 then
        .fail
          { cause := .unrecognized "words before `as`", origin, tokens := (s.extract 1 asAt).tokens }
      else do
        let body ← requiredBody origin (s.drop (asAt + 1)) s.tokens
        pure (some (.entryPoint s.position body))) := by
  refine s.match_seekBehind .defineEntryPoint .asWord _ fun asAt => ?_
  simp only [Index.place_eq]
  rfl

theorem readFunctionDefinition_eq (s : Slice) : readFunctionDefinition s =
    (let origin := "parse_function_definition"
    match if s.startsWith .defineFunction then s.first .asWord 1 else none with
    | none => pure none
    | some asAt => do
      let header := s.extract 1 asAt
      let name ← ofExcept (requiredName origin "a function name" (header.take 1) s.tokens)
      let params ← ofExcept (optionalParams origin "parameters"
        (some "write `define function $name with $a , $b as …`") (header.drop 1) s.tokens)
      let body ← requiredBody origin (s.drop (asAt + 1)) s.tokens
      pure (some (.functionDefinition s.position name params body))) := by
  refine s.match_seekBehind .defineFunction .asWord _ fun asAt => ?_
  simp only [requiredName_eq_map_singleName, Index.before_eq]
  cases singleName "parse_function_definition" "a function name" ((s.extract 1 asAt.1).take 1)
      s.tokens with
  | error p => rfl
  | ok name =>
    simp only [Index.place_eq]
    rfl

theorem readStructureDefinition_eq (s : Slice) : readStructureDefinition s =
    (let origin := "parse_structure_definition"
    let body := s.withoutTerminator
    if body.startsWith .defineStructure then do
      let name ← ofExcept (requiredName origin "a structure name" (body.extract 1 2) s.tokens)
      let fields ← ofExcept (optionalParams origin "fields" none (body.drop 2) s.tokens)
      pure (some (.structureDefinition s.position name fields))
    else pure none) := by
  simp only [readStructureDefinition, dite_eq_ite, place_eq]

def clausesFrom (s : Slice) (start : Nat) : List Nat → List Slice
  | [] => [s.drop start]
  | i :: is =>
    match s.tokens[i + 1]? with
    | some t =>
      if t.keyword = .otherwiseIf ∨ t.keyword = .otherwise then
        s.extract start (i + 1) :: clausesFrom s (i + 1) is
      else clausesFrom s start is
    | none => clausesFrom s start is

theorem clausePieces_eq_clausesFrom (s : Slice) {start : Nat} {ends : List Nat}
    (h : s.AreCuts start ends) : clausePieces s start ends h = clausesFrom s start ends := by
  induction ends generalizing start with
  | nil => rfl
  | cons i is ih =>
    simp only [clausePieces, ih, clausesFrom]
    rfl

theorem clauses_eq_clausesFrom (s : Slice) : clauses s = clausesFrom s 0 (s.allOf .blockEnd) :=
  clausePieces_eq_clausesFrom s _

theorem readClause_eq (clause : Slice) : readClause clause =
    (match clause.first .thenWord 1 with
    | none =>
      let fault := .withoutThen ((clause.head?.map (·.text)).getD "")
      .fail ((chainProblem fault clause.tokens).withHelp "write `if CONDITION then ...`")
    | some thenAt => do
      let part := clause.extract 1 thenAt
      let condition ← ofExpr (Expr.requiredOr (chainProblem (.missing "a condition") clause.tokens)
        (chainProblem (.invalid "a condition") part.tokens) part)
      let body ← requiredBody conditionalOrigin (clause.drop (thenAt + 1)) clause.tokens
      pure (condition, body)) := by
  rw [readClause, first_eq_map_seek]
  cases clause.seek .thenWord 1 <;> rfl

theorem readFurtherClauses_cons (clause : Slice) (rest : List Slice) :
    readFurtherClauses (clause :: rest) =
    (if clause.startsWith .otherwiseIf then do
      let (condition, body) ← readClause clause
      let (branches, elseBody) ← readFurtherClauses rest
      pure (.mk clause.position condition body :: branches, elseBody)
    else if clause.startsWith .otherwise then
      if rest.isEmpty then do
        let body ← requiredBody conditionalOrigin (clause.drop 1) clause.tokens
        pure ([], some body)
      else .fail (chainProblem .otherwiseNotLast clause.tokens)
    else .fail (chainProblem .unexpectedClause clause.tokens)) := by
  simp only [readFurtherClauses, dite_eq_ite, place_eq]
  rfl

theorem readConditional_eq (chain : List Slice) : readConditional chain =
    (match chain.flatMap clauses with
    | [] => .fail (chainProblem .empty [])
    | first :: rest =>
      if first.startsWith .ifWord then do
        let (condition, body) ← readClause first
        let (branches, elseBody) ← readFurtherClauses rest
        pure (.conditional first.position condition body branches elseBody)
      else .fail (chainProblem .withoutIf first.tokens)) := by
  rw [readConditional]
  cases chain.flatMap clauses with
  | nil => rfl
  | cons first rest => simp only [dite_eq_ite, place_eq]

theorem readConditionLoop_eq (lead : Keyword) (origin : String)
    (loop : Position → Expr → List Stmt → Stmt) (s : Slice) :
    readConditionLoop lead origin loop s =
    (match if s.startsWith lead then s.first .doWord 1 else none with
    | none => pure none
    | some doAt => do
      let condition ← required origin "a condition" (s.extract 1 doAt) s.tokens
      let body ← requiredBody origin (s.drop (doAt + 1)) s.tokens
      pure (some (loop s.position condition body))) := by
  refine s.match_seekBehind lead .doWord _ fun doAt => ?_
  simp only [Index.place_eq]
  rfl

theorem readDoLoop_eq (s : Slice) : readDoLoop s =
    (let origin := "parse_do_loop"
    let body := s.withoutTerminator
    if body.startsWith .doWord ∧ (body.drop 1).startsWith .blockStart then
      match body.matchingClose 1 with
      | none => .fail { cause := .blocks .doNeverClosed, origin, tokens := s.tokens }
      | some close =>
        let tail := body.drop (close + 1)
        if tail.startsWith .whileWord ∨ tail.startsWith .untilWord then do
          let condition ← required origin "a condition" (tail.drop 1) s.tokens
          let block ← readBlock origin s.tokens (body.extract 2 close)
          pure (some (if tail.startsWith .whileWord then .doWhile s.position block condition
            else .doUntil s.position block condition))
        else pure none
    else pure none) := by
  simp only [readDoLoop, matchingClose_eq_map_seekClose]
  split
  · cases s.withoutTerminator.seekClose 1 with
    | none => rfl
    | some close =>
      simp only [place_eq, Option.map_some]
      rfl
  · rfl

theorem readForEach_eq (s : Slice) : readForEach s =
    (let origin := "parse_for_each"
    match if s.startsWith .forEach then s.first .inWord 1 else none with
    | none => pure none
    | some inAt =>
      match s.first .doWord (inAt + 1) with
      | none => pure none
      | some doAt => do
        let name ← ofExcept (requiredName origin "a loop variable" (s.extract 1 inAt) s.tokens)
        let iterable ← required origin "a list after `in`" (s.extract (inAt + 1) doAt) s.tokens
        let body ← requiredBody origin (s.drop (doAt + 1)) s.tokens
        pure (some (.forEach s.position name iterable body))) := by
  refine s.match_seekBehind .forEach .inWord _ fun inAt => ?_
  rw [first_eq_map_seek]
  cases s.seek .doWord (inAt.1 + 1) with
  | none => rfl
  | some doAt =>
    simp only [Index.place_eq, Option.map_some]
    rfl

def readLoopStep (origin : String) (s : Slice) (byAt : Option Nat) (stop : Nat) (name : String) :
    Query (Option Expr) :=
  match byAt with
  | none => pure none
  | some i => some <$> required origin name (s.extract (i + 1) stop) s.tokens

theorem readForRange_eq (s : Slice) : readForRange s =
    (let origin := "parse_for_range"
    match if s.startsWith .forWord then s.first .fromWord 1 else none with
    | none => pure none
    | some fromAt =>
      match s.first .to (fromAt + 1) with
      | none => pure none
      | some toAt =>
        match s.first .doWord (toAt + 1) with
        | none => pure none
        | some doAt => do
          let byAt := (s.take doAt).first .byWord (toAt + 1)
          let name ← ofExcept (requiredName origin "a loop variable" (s.extract 1 fromAt) s.tokens)
          let start ← required origin "a start after `from`" (s.extract (fromAt + 1) toAt) s.tokens
          let stop ←
            required origin "an end after `to`" (s.extract (toAt + 1) (byAt.getD doAt)) s.tokens
          let step ← readLoopStep origin s byAt doAt "a step after `by`"
          let body ← requiredBody origin (s.drop (doAt + 1)) s.tokens
          pure (some (.forRange s.position name start stop step body))) := by
  refine s.match_seekBehind .forWord .fromWord _ fun fromAt => ?_
  simp only [first_eq_map_seek]
  cases s.seek .to (fromAt.1 + 1) with
  | none => rfl
  | some toAt =>
    simp only [Option.map_some]
    cases s.seek .doWord (toAt.1 + 1) with
    | none => rfl
    | some doAt =>
      simp only [Index.place_eq, Option.map_some, Index.upTo_eq]
      cases (s.take doAt.1).seek .byWord (toAt.1 + 1) with
      | none => rfl
      | some byAt =>
        -- The `by` stands in front of `do`: what is in front of it is the same in the whole slice.
        have hlength : (s.take doAt.1).length ≤ doAt.1 := by
          rw [length_take]
          exact Nat.min_le_left ..
        have hbefore : byAt.1 ≤ doAt.1 := Nat.le_trans (Nat.le_of_lt byAt.2.2) hlength
        simp only [Index.before_eq, extract_take s hbefore]
        rfl

theorem readRepeat_eq (s : Slice) : readRepeat s =
    (let origin := "parse_repeat"
    match if s.startsWith .repeatWord then s.first .times 1 else none with
    | none => pure none
    | some timesAt => do
      let count ← required origin "a count" (s.extract 1 timesAt) s.tokens
      let body ← requiredBody origin (s.drop (timesAt + 1)) s.tokens
      pure (some (.repeatLoop s.position count body))) := by
  refine s.match_seekBehind .repeatWord .times _ fun timesAt => ?_
  simp only [Index.place_eq]
  rfl

theorem handlerName_eq (handler : Slice) : handlerName handler =
    (match handler.tokens with
    | t :: _ => if t.kind = .identifier then (t.name?, handler.drop 1) else (none, handler)
    | [] => (none, handler)) := by
  obtain ⟨a, _ | ⟨t, ts⟩⟩ := handler <;> rfl

theorem readTry_eq (s : Slice) : readTry s =
    (let origin := "parse_try"
    let all := s.withoutTerminator
    match if all.startsWith .tryWord then all.first .catchWord 1 else none with
    | none => pure none
    | some catchAt => do
      let finallyAt := all.first .finallyWord (catchAt + 1)
      let body ← requiredBlock origin (all.extract 1 catchAt) s.tokens
      let (errorName, part) := handlerName (all.extract (catchAt + 1) (finallyAt.getD all.length))
      let handler ← requiredBlock origin part s.tokens
      let cleanup ←
        match finallyAt with
        | some i => some <$> requiredBlock origin (all.drop (i + 1)) s.tokens
        | none => pure none
      pure (some (.tryCatch s.position body errorName handler cleanup))) := by
  refine s.withoutTerminator.match_seekBehind .tryWord .catchWord _ fun catchAt => ?_
  simp only [place_eq, first_eq_map_seek]
  cases s.withoutTerminator.seek .finallyWord (catchAt.1 + 1) with
  | none =>
    simp only [Option.map_none, Option.getD_none, extract_length]
    rfl
  | some finallyAt => rfl

theorem readAssignment_eq (s : Slice) : readAssignment s =
    (let origin := "parse_assignment"
    let body := s.withoutTerminator
    match if body.startsWith .set then body.first .equalTo 1 else none with
    | none => pure none
    | some equalAt => do
      let part := body.extract 1 equalAt
      let value := required origin "a value after `equal to`" (body.drop (equalAt + 1)) s.tokens
      match ← required origin "a variable to set" part s.tokens with
      | target@(.identifier ..) | target@(.index ..) => do
        pure (some (.assignment s.position target (← value)))
      | _ =>
        .fail ((Expr.invalidPart origin "assignment target" part.tokens).withHelp
          "only a `$name` or a list item can be set")) := by
  refine s.withoutTerminator.match_seekBehind .set .equalTo _ fun equalAt => ?_
  simp only [place_eq]
  rfl

theorem readDeclaration_eq (s : Slice) : readDeclaration s =
    (let origin := "parse_declaration"
    let body := s.withoutTerminator
    match if body.startsWith .letWord then body.first .be 1 else none with
    | none => pure none
    | some beAt => do
      let name ← ofExcept (requiredName origin "a variable name" (body.extract 1 beAt) s.tokens)
      let value ← required origin "a value after `be`" (body.drop (beAt + 1)) s.tokens
      pure (some (.declaration s.position name value))) := by
  refine s.withoutTerminator.match_seekBehind .letWord .be _ fun beAt => ?_
  simp only [place_eq]
  rfl

theorem readIncrement_eq (s : Slice) : readIncrement s =
    (let origin := "parse_increment"
    let body := s.withoutTerminator
    if body.startsWith .increment ∨ body.startsWith .decrement then do
      let byAt := body.first .byWord 1
      let part := body.extract 1 (byAt.getD body.length)
      let name ← ofExcept (requiredName origin "a variable name" part s.tokens)
      let amount ←
        match byAt with
        | some i => some <$> required origin "an amount after `by`" (body.drop (i + 1)) s.tokens
        | none => pure none
      pure (some (if body.startsWith .increment then .increment s.position name amount
        else .decrement s.position name amount))
    else pure none) := by
  simp only [readIncrement, first_eq_map_seek, place_eq]
  cases s.withoutTerminator.seek .byWord 1 with
  | none =>
    simp only [onward_eq_drop, dite_eq_ite, Option.map_none, Option.getD_none, extract_length]
  | some byAt => rfl

theorem readSwap_eq (s : Slice) : readSwap s =
    (let origin := "parse_swap"
    let body := s.withoutTerminator
    match if body.startsWith .swap then body.first .andWord 1 else none with
    | none => pure none
    | some andAt => do
      let left ←
        ofExcept (requiredName origin "a variable before `and`" (body.extract 1 andAt) s.tokens)
      let right ←
        ofExcept (requiredName origin "a variable after `and`" (body.drop (andAt + 1)) s.tokens)
      pure (some (.swap s.position left right))) := by
  refine s.withoutTerminator.match_seekBehind .swap .andWord _ fun andAt => ?_
  simp only [place_eq]
  rfl

theorem readPair_eq (lead separator : Keyword) (origin first second : String)
    (pair : Position → Expr → Expr → Stmt) (s : Slice) :
    readPair lead separator origin first second pair s =
    (let body := s.withoutTerminator
    match if body.startsWith lead then body.first separator 1 else none with
    | none => pure none
    | some i => do
      let value ← required origin first (body.extract 1 i) s.tokens
      let list ← required origin second (body.drop (i + 1)) s.tokens
      pure (some (pair s.position value list))) := by
  refine s.withoutTerminator.match_seekBehind lead separator _ fun i => ?_
  simp only [place_eq]
  rfl

theorem readValue_eq (leads : List Keyword) (origin : String) (statement : Position → Expr → Stmt)
    (s : Slice) :
    readValue leads origin statement s =
    (let body := s.withoutTerminator
    if leads.any body.startsWith then do
      let value ← required origin "a value" (body.drop 1) s.tokens
      pure (some (statement s.position value))
    else pure none) := by
  simp only [readValue, place_eq]
  rfl

theorem readReturn_eq (s : Slice) : readReturn s =
    (let body := s.withoutTerminator
    if body.startsWith .returnWord then
      if body.length = 1 then pure (some (.returning s.position none))
      else do
        let value ← required "parse_return" "a value" (body.drop 1) s.tokens
        pure (some (.returning s.position (some value)))
    else pure none) := by
  simp only [readReturn, place_eq]
  rfl

theorem readBare_eq (lead : Keyword) (origin : String) (statement : Position → Stmt) (s : Slice) :
    readBare lead origin statement s =
    (let body := s.withoutTerminator
    if body.startsWith lead then
      if 1 < body.length then
        .fail { cause := .unrecognized ("words after `" ++ (body.head?.map (·.text)).getD "" ++ "`"),
                origin, tokens := (body.drop 1).tokens }
      else pure (some (statement s.position))
    else pure none) := by
  simp only [readBare]
  by_cases hlead : s.withoutTerminator.startsWith lead = true
  · simp only [dif_pos hlead, if_pos hlead, place_eq, onward_eq_drop,
      head?_eq_lead _ (length_pos_of_startsWith _ hlead), Option.map_some, Option.getD_some]
  · rw [dif_neg hlead, if_neg hlead]

theorem readImport_eq (s : Slice) : readImport s =
    (let origin := "parse_import"
    let body := s.withoutTerminator
    let invalid := (Expr.invalidPart origin "module name" (body.drop 1).tokens).withHelp
      "module names are quoted: `import \"math\" .`"
    if body.startsWith .importWord then
      match (body.drop 1).tokens with
      | [] => .fail (Expr.missingPart origin "a module name" s.tokens)
      | [t] =>
        if t.kind = .string then
          match t.unescaped with
          | .ok name => pure (some (.importing s.position name))
          | .error fault => .fail { cause := .literal fault, origin, tokens := [t] }
        else .fail invalid
      | _ => .fail invalid
    else pure none) := by
  simp only [readImport, place_eq]
  rfl

theorem readReadInto_eq (s : Slice) : readReadInto s =
    (let body := s.withoutTerminator
    if body.startsWith .readInto then do
      let name ← ofExcept (requiredName "parse_read_into" "a variable name" (body.drop 1) s.tokens)
      pure (some (.readInto s.position name))
    else pure none) := by
  simp only [readReadInto, place_eq]
  rfl

theorem readExpressionStatement_eq (s : Slice) : readExpressionStatement s =
    (if s.isEmpty then pure none
    else do
      let body := s.withoutTerminator
      match ← ofExpr (Expr.read body) with
      | none => pure none
      | some (_, e) => do
        match e with
        | .call .. => pure ()
        | _ => .question (Question.unusedValue e body.tokens)
        pure (some (.expression s.position e))) := by
  simp only [readExpressionStatement, place_eq]
  rfl

end Prose.Stmt
