import LetLang.Diagnostic
import LetLang.Power

/-!
Log records of a parse. A record is kept as what happened; `Record.level` and `Record.message` say
how it is shown.
-/

namespace LetLang.Log

inductive Level where
  | error | warn | info | debug | trace
  deriving DecidableEq, Inhabited

namespace Level

/-- Most urgent first. -/
def all : List Level := [error, warn, info, debug, trace]

def rank : Level → Nat
  | error => 1
  | warn => 2
  | info => 3
  | debug => 4
  | trace => 5

def name : Level → String
  | error => "ERROR"
  | warn => "WARN"
  | info => "INFO"
  | debug => "DEBUG"
  | trace => "TRACE"

end Level

/-- The least urgent level to show; `none` shows nothing. -/
abbrev Filter := Option Level

namespace Filter

def admits : Filter → Level → Bool
  | none, _ => false
  | some most, level => level.rank ≤ most.rank

/-- A level's name or `off`, in capital or small letters. -/
def ofName? (text : String) : Option Filter :=
  if text.toUpper = "OFF" then some none
  else (Level.all.find? (·.name == text.toUpper)).map some

end Filter

inductive Record where
  | parsing (bytes : Nat)
  | token (token : Token)
  | statement (current : Token)
  | fault (diagnostic : Diagnostic)
  | operator (text : String) (power : Power)
  | parsed (statements faults : Nat)
  deriving DecidableEq, Inhabited

namespace Record

def level : Record → Level
  | parsing _ | parsed .. => .info
  | statement _ | fault _ => .debug
  | token _ | operator .. => .trace

def message : Record → String
  | parsing bytes => s!"parsing {bytes} bytes"
  | token t => s!"token {t.display} at {t.span.start}"
  | statement current => s!"statement at {current.display}"
  | fault d => s!"parse error at {d.span.start}..{d.span.stop}: {d.message}"
  | operator text power => s!"infix {text} at {power.name}"
  | parsed statements faults => s!"parsed {statements} statements with {faults} errors"

end Record

/-- The records that a filter admits, in order. -/
def visible (filter : Filter) (records : List Record) : List Record :=
  records.filter fun r => filter.admits r.level

end LetLang.Log
