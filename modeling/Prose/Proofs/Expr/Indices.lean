import Prose.Expr.Reading
import Prose.Proofs.Slice.Depth

/-! The forms of expressions by their indices alone. A form takes its parts out of a slice with a
proof that they are there; what it reads does not depend on the proof. -/
namespace Prose.Expr

open Slice

theorem readParenthesized_eq (s : Slice) : readParenthesized s =
    (match s.enclosed .openParen with
    | none => pure none
    | some inner => do
      let e ← required "parse_parenthesized" "an expression inside `( )`" inner s.tokens
      pure (some (.grouping s.position e))) := by
  rw [readParenthesized, enclosed_eq_map_inside]
  cases s.inside .openParen with
  | none => rfl
  | some inner => simp only [place_eq, Option.map_some]

theorem readArticle_eq (s : Slice) : readArticle s =
    (match s.tokens with
    | article :: _ :: _ =>
      if article.keyword.isArticle then do
        match ← operand Form.identifier.level .after (s.drop 1) with
        | .bound e => pure (some (e.movedTo article.position))
        | _ => pure none
      else pure none
    | _ => pure none) := by
  rw [readArticle]
  obtain ⟨a, _ | ⟨article, _ | ⟨t, ts⟩⟩⟩ := s <;> rfl

theorem readTernaryFrom_succ (n : Nat) (s : Slice) : readTernaryFrom (n + 1) s =
    (match s.first .thenWord 1 with
    | none => pure none
    | some thenAt =>
      match (s.drop (thenAt + 1)).firstOf [.otherwise, .otherwiseIf] with
      | none => pure none
      | some (offset, branch) => do
        let origin := "parse_ternary"
        let elseAt := thenAt + 1 + offset
        let condition ← required origin "a condition" (s.extract 1 thenAt) s.tokens
        let thenValue ←
          required origin "a value after `then`" (s.extract (thenAt + 1) elseAt) s.tokens
        let elseValue ←
          if branch = .otherwiseIf then do
            let rest := s.drop elseAt
            match ← readTernaryFrom n rest with
            | some e => pure e
            | none =>
              .fail (missingPart origin "`then` and `otherwise` after `otherwise if`" rest.tokens)
          else required origin "a value after `otherwise`" (s.drop (elseAt + 1)) s.tokens
        pure (some (.ternary s.position condition thenValue elseValue))) := by
  rw [readTernaryFrom, first_eq_map_seek]
  cases s.seek .thenWord 1 with
  | none => rfl
  | some thenAt =>
    simp only [Option.map_some, firstOf_eq_map_seekOf, Index.behind_eq]
    cases (s.drop (thenAt.1 + 1)).seekOf [.otherwise, .otherwiseIf] with
    | none => rfl
    | some found =>
      -- Behind `then` the indices begin at zero again; in the whole slice they go on.
      simp only [Index.before_eq, Index.onward_eq, Index.place_eq, Option.map_some, drop_drop,
        ← take_drop]
      rfl

theorem readArms_cons (whole : List Token) (arm : Slice) (arms : List Slice) :
    readArms whole (arm :: arms) =
    (let origin := "parse_match"
    match arm.first .gives 0 with
    | none => .fail (missingPart origin "`gives`" (if arm.isEmpty then whole else arm.tokens))
    | some givesAt => do
      let result ← required origin "a result after `gives`" (arm.drop (givesAt + 1)) arm.tokens
      if givesAt = 1 ∧ arm.startsWith .otherwise then
        if arms.isEmpty then pure ([], some result)
        else
          .fail ((invalidPart origin "arm order" arm.tokens).withHelp
            "`otherwise gives` must be the last arm")
      else do
        let pattern ← required origin "a pattern before `gives`" (arm.take givesAt) arm.tokens
        let (rest, fallback) ← readArms whole arms
        pure ((pattern, result) :: rest, fallback)) := by
  rw [readArms, first_eq_map_seek]
  cases arm.seek .gives 0 <;> rfl

theorem readSelection_eq (s : Slice) : readSelection s =
    (match if s.startsWith .matchWord then s.first .withWord 1 else none with
    | none => pure none
    | some withAt => do
      let origin := "parse_match"
      let subject ← required origin "a value to match" (s.extract 1 withAt) s.tokens
      let arms := s.drop (withAt + 1)
      if arms.isEmpty then .fail (missingPart origin "at least one `gives` arm" s.tokens)
      else do
        let (arms, fallback) ← readArms s.tokens (arms.split .comma)
        pure (some (.selection s.position subject arms fallback))) := by
  refine s.match_seekBehind .matchWord .withWord _ fun withAt => ?_
  simp only [Index.place_eq]
  rfl

def readSplit (s : Slice) (l : OperatorLevel) : List Nat → Query (Option Expr)
  | [] => pure none
  | i :: is =>
    match if i = 0 ∨ i + 1 = s.length then none
      else s.tokens[i]?.bind fun t => l.operators.lookup t.keyword with
    | none => readSplit s l is
    | some op => do
      match ← operand l.level .before (s.take i) with
      | .bound left =>
        match ← operand l.level .after (s.drop (i + 1)) with
        | .bound right => pure (some (.binary s.position left op right))
        | _ => readSplit s l is
      | _ => readSplit s l is

theorem chooseSplit_eq_readSplit (s : Slice) (l : OperatorLevel) (is : List (s.Index 0)) :
    chooseSplit s l is = readSplit s l (is.map (·.1)) := by
  induction is with
  | nil => rfl
  | cons i is ih => simp only [chooseSplit, Index.place_eq, ih, List.map_cons, readSplit]; rfl

theorem readOperators_eq (l : OperatorLevel) (s : Slice) : readOperators l s =
    readSplit s l (if l.groupsRight then s.positionsOf (l.operators.map (·.1))
      else (s.positionsOf (l.operators.map (·.1))).reverse) := by
  simp only [readOperators, chooseSplit_eq_readSplit, positionsOf_eq_map_seekAny,
    apply_ite (List.map _), List.map_reverse]

theorem readUnary_eq (op : UnaryOp) (s : Slice) : readUnary op s =
    (if s.startsWith (unaryLead op) ∧ 2 ≤ s.length then do
      match ← requiredOperand (unaryOrigin op) "operand" (unaryLevel op) .after (s.drop 1)
          s.tokens with
      | some e => pure (some (.unary s.position op e))
      | none => pure none
    else pure none) := by
  obtain ⟨a, _ | ⟨t, ts⟩⟩ := s <;> rfl

def phraseHint (s : Slice) : String :=
  "write it as `" ++ (s.head?.map (·.text)).getD "" ++ " A and B`"

theorem phraseHelp_lead (s : Slice) (h : 0 < s.length) : phraseHelp (s.lead h) = phraseHint s := by
  rw [phraseHint, head?_eq_lead s h]
  rfl

def readPhraseSplit (p : ArithmeticPhrase) (s operands : Slice) (looser : Bool) :
    List Nat → Query (Option Expr)
  | [] =>
    if looser then pure none
    else .fail ((invalidPart p.origin "operands" s.tokens).withHelp (phraseHint s))
  | i :: is => do
    match ← read (operands.take i) with
    | none => readPhraseSplit p s operands looser is
    | some (_, left) =>
      match ← operand p.level .after (operands.drop (i + 1)) with
      | .bound right => pure (some (.binary s.position left p.op right))
      | .looser => readPhraseSplit p s operands true is
      | .unread => readPhraseSplit p s operands looser is

theorem choosePhraseSplit_eq_readPhraseSplit (p : ArithmeticPhrase) {s operands : Slice}
    (h : 0 < s.length) (looser : Bool) (is : List (operands.Index 0)) :
    choosePhraseSplit p (s.lead h) s.tokens operands looser is =
      readPhraseSplit p s operands looser (is.map (·.1)) := by
  induction is generalizing looser with
  | nil => rw [choosePhraseSplit, phraseHelp_lead, List.map_nil, readPhraseSplit]
  | cons i is ih =>
    simp only [choosePhraseSplit, ih, List.map_cons, readPhraseSplit, ← s.place_eq h]
    rfl

theorem readPhrase_eq (p : ArithmeticPhrase) (s : Slice) : readPhrase p s =
    (let operands := s.drop 1
    let ands := if s.startsWith p.lead then operands.allOf .andWord else []
    let inner := ands.filter fun i => 0 < i && i + 1 < operands.length
    if ands.isEmpty then pure none
    else if inner.isEmpty then
      .fail ((missingPart p.origin "an operand on each side of `and`" s.tokens).withHelp
        (phraseHint s))
    else readPhraseSplit p s operands false inner) := by
  rw [readPhrase]
  by_cases hlead : s.startsWith p.lead = true
  · simp only [dif_pos hlead, if_pos hlead, allOf_eq_map_seekAll, List.filter_map,
      List.isEmpty_map, phraseHelp_lead, choosePhraseSplit_eq_readPhraseSplit, onward_eq_drop]
    rfl
  · simp only [dif_neg hlead, if_neg hlead, List.isEmpty_nil, if_true]

theorem readTypeCheck_eq (s : Slice) : readTypeCheck s =
    (match (s.allOf .isA).getLast? with
    | none => pure none
    | some i =>
      if i = 0 ∨ i + 1 = s.length then pure none
      else do
        let origin := "parse_type_check"
        let typeName ← requiredType origin (s.drop (i + 1)) s.tokens
        match ← requiredOperand origin "a value to test" Form.typeCheck.level .before (s.take i)
            s.tokens with
        | some e => pure (some (.typeCheck s.position e typeName))
        | none => pure none) := by
  rw [readTypeCheck, allOf_eq_map_seekAll, List.getLast?_map]
  cases (s.seekAll .isA).getLast? with
  | none => rfl
  | some i =>
    simp only [Index.place_eq, Option.map_some]
    rfl

theorem readNullCheck_eq (s : Slice) : readNullCheck s =
    (let negated? : Option Bool :=
      match s.tokens.getLast?.map (·.keyword) with
      | some Keyword.isNull => some false
      | some Keyword.isNotNull => some true
      | _ => none
    match negated? with
    | none => pure none
    | some negated =>
      if s.length ≤ 1 then pure none
      else do
        match ← requiredOperand "parse_null_check" "a value to test" Form.nullCheck.level .before
            (s.take (s.length - 1)) s.tokens with
        | some e => pure (some (.nullCheck s.position e negated))
        | none => pure none) := by
  obtain ⟨a, _ | ⟨t, ts⟩⟩ := s <;> rfl

theorem readCast_eq (s : Slice) : readCast s =
    (match if s.startsWith .cast then s.first .asA 1 else none with
    | none => pure none
    | some asAt => do
      let origin := "parse_cast"
      let e ← required origin "a value to cast" (s.extract 1 asAt) s.tokens
      let target ← requiredType origin (s.drop (asAt + 1)) s.tokens
      pure (some (.cast s.position e target))) := by
  refine s.match_seekBehind .cast .asA _ fun asAt => ?_
  simp only [Index.place_eq]
  rfl

theorem readSlice_eq (s : Slice) : readSlice s =
    (match if s.startsWith .slice then s.first .fromWord 1 else none with
    | none => pure none
    | some fromAt =>
      match s.first .to (fromAt + 1) with
      | none => pure none
      | some toAt => do
        let origin := "parse_slice"
        let collection ← required origin "a list to slice" (s.extract 1 fromAt) s.tokens
        let start ←
          required origin "a start after `from`" (s.extract (fromAt + 1) toAt) s.tokens
        match ← requiredOperand origin "an end after `to`" Form.slice.level .after
            (s.drop (toAt + 1)) s.tokens with
        | some stop => pure (some (.slice s.position collection start stop))
        | none => pure none) := by
  refine s.match_seekBehind .slice .fromWord _ fun fromAt => ?_
  rw [first_eq_map_seek]
  cases s.seek .to (fromAt.1 + 1) with
  | none => rfl
  | some toAt =>
    simp only [Index.place_eq, Option.map_some]
    rfl

theorem readIndex_eq (s : Slice) : readIndex s =
    (let origin := "parse_index"
    if s.startsWith .item ∨ s.startsWith .element then
      match s.first .of 1 with
      | none => pure none
      | some ofAt => do
        let index ← required origin "a position" (s.extract 1 ofAt) s.tokens
        readCollection s s.position index (s.drop (ofAt + 1))
    else
      match s.tokens with
      | first :: noun :: preposition :: _ =>
        if first.keyword = .ordinal ∧ (noun.keyword = .item ∨ noun.keyword = .element) ∧
            preposition.keyword = .of then do
          let index ← literalOr origin first first.ordinalValue
          readCollection s s.position index (s.drop 3)
        else pure none
      | _ => pure none) := by
  rw [readIndex]
  split
  · rw [first_eq_map_seek]
    cases s.seek .of 1 with
    | none => rfl
    | some ofAt =>
      simp only [Index.place_eq, Option.map_some]
      rfl
  · obtain ⟨a, _ | ⟨t, _ | ⟨u, _ | ⟨v, ts⟩⟩⟩⟩ := s <;> rfl

theorem readCall_eq (s : Slice) : readCall s =
    (let origin := "parse_call"
    match if s.startsWith .call then s.tokens.drop 1 else [] with
    | [] => pure none
    | f :: rest =>
      match f.name? with
      | none =>
        .fail ((invalidPart origin "function name" [f]).withHelp
          "function names start with `$`, as in `call $greet`")
      | some callee =>
        match rest with
        | [] => pure (some (.call s.position callee []))
        | [t] =>
          if t.keyword = .withWord then .fail (missingPart origin "arguments after `with`" s.tokens)
          else .fail (missingPart origin "`with` before the arguments" s.tokens)
        | t :: _ =>
          if t.keyword = .withWord then do
            match ← readItems origin "an argument" Form.call.level s.tokens
                ((s.drop 3).split .comma) with
            | some arguments => pure (some (.call s.position callee arguments))
            | none => pure none
          else .fail (missingPart origin "`with` before the arguments" s.tokens)) := by
  obtain ⟨a, ts⟩ := s
  rw [readCall]
  by_cases hlead : Slice.startsWith ⟨a, ts⟩ .call = true
  · rw [if_pos hlead, if_pos hlead]
    obtain _ | ⟨lead, _ | ⟨f, _ | ⟨t, _ | ⟨u, rest⟩⟩⟩⟩ := ts <;> rfl
  · rw [if_neg hlead, if_neg hlead]

theorem readList_eq (s : Slice) : readList s =
    (if s.length = 1 ∧ s.startsWith .emptyList then pure (some (.list s.position []))
    else if 2 ≤ s.length ∧ s.startsWith .listOf then do
      match ← readItems "parse_list_literal" "a list item" Form.list.level s.tokens
          ((s.drop 1).split .comma) with
      | some items => pure (some (.list s.position items))
      | none => pure none
    else pure none) := by
  obtain ⟨a, _ | ⟨t, ts⟩⟩ := s <;> rfl

theorem readIdentifier_eq (s : Slice) : readIdentifier s =
    (pure (s.name?.map (.identifier s.position))) := by
  obtain ⟨a, _ | ⟨t, _ | ⟨u, ts⟩⟩⟩ := s
  · rfl
  · rw [readIdentifier, readToken, Slice.name?]
    simp only
    cases t.name? <;> rfl
  · rfl

end Prose.Expr
