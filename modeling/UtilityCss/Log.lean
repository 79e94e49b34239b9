/-! The log of a run, as data: every activity returns the lines that it writes. -/
namespace UtilityCss

inductive LogLevel where
  | error | warn | info | debug
  deriving DecidableEq, Repr

namespace LogLevel

def name : LogLevel → String
  | error => "ERROR"
  | warn => "WARN"
  | info => "INFO"
  | debug => "DEBUG"

/-- The graver the level, the lower its rank. -/
def rank : LogLevel → Nat
  | error => 1
  | warn => 2
  | info => 3
  | debug => 4

end LogLevel

structure LogLine where
  level : LogLevel
  message : String
  deriving DecidableEq, Repr

namespace LogLine

def error (message : String) : LogLine := ⟨.error, message⟩
def warn (message : String) : LogLine := ⟨.warn, message⟩
def info (message : String) : LogLine := ⟨.info, message⟩
def debug (message : String) : LogLine := ⟨.debug, message⟩

def text (l : LogLine) : String := l.level.name ++ " " ++ l.message

end LogLine

abbrev Log := List LogLine

end UtilityCss
