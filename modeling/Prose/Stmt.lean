import Prose.Expr

namespace Prose

structure Param where
  name : String
  place : Position
  deriving DecidableEq, Inhabited

mutual

/-- A statement with the place of its first token. A conditional holds its whole chain of clauses.
-/
inductive Stmt where
  | entryPoint (place : Position) (body : List Stmt)
  | functionDefinition (place : Position) (name : String) (params : List Param) (body : List Stmt)
  | structureDefinition (place : Position) (name : String) (fields : List Param)
  | block (place : Position) (body : List Stmt)
  | conditional (place : Position) (condition : Expr) (body : List Stmt) (elseIfs : List Branch)
      (elseBody : Option (List Stmt))
  | whileLoop (place : Position) (condition : Expr) (body : List Stmt)
  | untilLoop (place : Position) (condition : Expr) (body : List Stmt)
  | doWhile (place : Position) (body : List Stmt) (condition : Expr)
  | doUntil (place : Position) (body : List Stmt) (condition : Expr)
  | forEach (place : Position) (name : String) (iterable : Expr) (body : List Stmt)
  | forRange (place : Position) (name : String) (start stop : Expr) (step : Option Expr)
      (body : List Stmt)
  | repeatLoop (place : Position) (count : Expr) (body : List Stmt)
  | tryCatch (place : Position) (body : List Stmt) (errorName : Option String)
      (handler : List Stmt) (cleanup : Option (List Stmt))
  | returning (place : Position) (value : Option Expr)
  | breaking (place : Position)
  | continuing (place : Position)
  | exiting (place : Position)
  | throwing (place : Position) (value : Expr)
  | assignment (place : Position) (target value : Expr)
  | declaration (place : Position) (name : String) (value : Expr)
  | increment (place : Position) (name : String) (amount : Option Expr)
  | decrement (place : Position) (name : String) (amount : Option Expr)
  | swap (place : Position) (left right : String)
  | listAdd (place : Position) (value list : Expr)
  | listRemove (place : Position) (value list : Expr)
  | print (place : Position) (value : Expr)
  | readInto (place : Position) (name : String)
  | assertion (place : Position) (value : Expr)
  | importing (place : Position) (name : String)
  | expression (place : Position) (value : Expr)

inductive Branch where
  | mk (place : Position) (condition : Expr) (body : List Stmt)

end

namespace Stmt

instance : Inhabited Stmt := ⟨exiting .unknown⟩

def position : Stmt → Position
  | entryPoint p .. | functionDefinition p .. | structureDefinition p .. | block p ..
  | conditional p .. | whileLoop p .. | untilLoop p .. | doWhile p .. | doUntil p ..
  | forEach p .. | forRange p .. | repeatLoop p .. | tryCatch p .. | returning p .. | breaking p
  | continuing p | exiting p | throwing p .. | assignment p .. | declaration p ..
  | increment p .. | decrement p .. | swap p .. | listAdd p .. | listRemove p .. | print p ..
  | readInto p .. | assertion p .. | importing p .. | expression p .. => p

def typeName : Stmt → String
  | entryPoint .. => "EntryPoint"
  | functionDefinition .. => "FunctionDefinition"
  | structureDefinition .. => "StructureDefinition"
  | block .. => "Block"
  | conditional .. => "Conditional"
  | whileLoop .. => "While"
  | untilLoop .. => "Until"
  | doWhile .. => "DoWhile"
  | doUntil .. => "DoUntil"
  | forEach .. => "ForEach"
  | forRange .. => "ForRange"
  | repeatLoop .. => "Repeat"
  | tryCatch .. => "TryCatch"
  | returning .. => "Return"
  | breaking .. => "Break"
  | continuing .. => "Continue"
  | exiting .. => "Exit"
  | throwing .. => "Throw"
  | assignment .. => "Assignment"
  | declaration .. => "Declaration"
  | increment .. => "Increment"
  | decrement .. => "Decrement"
  | swap .. => "Swap"
  | listAdd .. => "ListAdd"
  | listRemove .. => "ListRemove"
  | print .. => "Print"
  | readInto .. => "ReadInto"
  | assertion .. => "Assert"
  | importing .. => "Import"
  | expression .. => "Expression"

end Stmt

end Prose
