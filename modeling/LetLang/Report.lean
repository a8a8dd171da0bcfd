import LetLang.Diagnostic
import LetLang.Text.Line

/-!
Reports of diagnostics: the headline, the name of the source, and the line at fault with a row
below it that points at the token. Leading spaces and tabs of the line are not shown.
-/

namespace LetLang

open Text (Location)

structure Report where
  diagnostic : Diagnostic
  label : String
  location : Location
  /-- Characters of the token at fault; one for an empty span. -/
  width : Nat

namespace Report

def isIndent (c : Char) : Bool := c == ' ' || c == '\t'

def ofDiagnostic (source : List Char) (label : String) (d : Diagnostic) : Report where
  diagnostic := d
  label
  location := Location.ofPosition source d.span.start
  width :=
    if d.span.isEmpty then 1
    else
      match Text.slice? d.span.start d.span.stop source with
      | some token => token.length
      | none => d.span.size

def number (r : Report) : String := toString r.location.line

def fill (c : Char) (n : Nat) : String := String.ofList (List.replicate n c)

/-- Blanks as wide as the number of the line, and a bar. -/
def gutter (r : Report) : String := fill ' ' (r.number.length + 1) ++ "|"

/-- The shown part of the line. -/
def excerpt (r : Report) : List Char :=
  Text.trimEnd Text.isBlank (r.location.text.dropWhile isIndent)

/-- Characters between the start of the shown line and the token. -/
def dashes (r : Report) : Nat :=
  Text.column r.location.text r.location.offset - (r.location.text.takeWhile isIndent).length

def carets (r : Report) : Nat := max 1 r.width

def rows (r : Report) : List String :=
  [ s!"Error: {r.diagnostic.headline}",
    s!"-> {r.label}",
    r.gutter,
    s!"{r.number} | {String.ofList r.excerpt}",
    r.gutter ++ " " ++ fill '-' r.dashes ++ fill '^' r.carets ]

/-- The rows, each with a line feed. -/
def render (r : Report) : String := String.join (r.rows.map (· ++ "\n"))

end Report

end LetLang
