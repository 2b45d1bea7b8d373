namespace Prose

inductive LogLevel where
  | debug | info | warning | error
  deriving DecidableEq, Inhabited

namespace LogLevel

def rank : LogLevel → Nat
  | debug => 0
  | info => 1
  | warning => 2
  | error => 3

instance : Ord LogLevel := ⟨fun a b => compare a.rank b.rank⟩

def word : LogLevel → String
  | debug => "debug"
  | info => "info"
  | warning => "warning"
  | error => "error"

def name : LogLevel → String
  | debug => "Debug"
  | info => "Info"
  | warning => "Warning"
  | error => "Error"

def label : LogLevel → String
  | debug => "DEBUG"
  | info => "INFO"
  | warning => "WARN"
  | error => "ERROR"

end LogLevel

structure LogEntry where
  level : LogLevel
  message : String
  deriving DecidableEq, Inhabited

end Prose
