import Mlog.Source.Span

/-! # Diagnostics

    What is told to the author of a program that cannot be compiled: a
    message, the place it is about if there is one, any number of notes, and
    at most one piece of advice. -/

namespace Mlog

/-- A problem report. -/
structure Diagnostic where
  message : String
  span : Option Span
  notes : List String
  help : Option String
deriving DecidableEq, Repr

namespace Diagnostic

/-- A report about a place in the source text. -/
def located (message : String) (span : Span) : Diagnostic := ⟨message, some span, [], none⟩

/-- A report about no place in particular. -/
def general (message : String) : Diagnostic := ⟨message, none, [], none⟩

/-- Adds a note after those there are. -/
def withNote (d : Diagnostic) (note : String) : Diagnostic :=
  { d with notes := d.notes ++ [note] }

/-- Gives advice, in place of any given before. -/
def withHelp (d : Diagnostic) (help : String) : Diagnostic := { d with help := some help }

end Diagnostic

end Mlog
