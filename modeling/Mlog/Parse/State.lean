import Mlog.Parse.Fault
import Mlog.Token.Lexed

/-! # Reading tokens

    The state of a parse: a token under the cursor and those ahead of it, the
    comments not passed yet, and the faults found so far.  The cursor moves
    forward only and never leaves the last token.

    A parser never fails: it reports faults and goes on, so that one run
    finds as many as it can.  Only when the program is nested too deeply does
    it give up (`ParseState.abort`): the rest of the tokens is skipped, and
    no more faults are reported.

    `iterate` is the one loop that all repetitions of the grammar use. -/

namespace Mlog

/-! ## Section 1: The state -/

/-- The state of a parse. -/
structure ParseState where
  /-- The token under the cursor. -/
  current : Located Token
  /-- The tokens after it. -/
  ahead : List (Located Token)
  /-- The comments that have not been passed yet. -/
  comments : List Comment
  /-- The faults found so far, the latest one first. -/
  faults : List (Located SyntaxFault)
  /-- Has the parse been given up? -/
  aborted : Bool

namespace ParseState

/-- Moves the cursor to the next token, if there is one. -/
def advance (s : ParseState) : ParseState :=
  match s.ahead with
  | [] => s
  | t :: ts => { s with current := t, ahead := ts }

/-- Moves the cursor past tokens of one kind, up to the last token. -/
def skipAll (token : Token) (s : ParseState) : ParseState :=
  go s.current s.ahead
where
  go (current : Located Token) : List (Located Token) → ParseState
    | [] => { s with current := current, ahead := [] }
    | t :: ts =>
      if current.value = token then go t ts else { s with current := current, ahead := t :: ts }

/-- The last token. -/
def lastToken (s : ParseState) : Located Token := s.ahead.getLastD s.current

/-- Notes a fault, unless the parse has been given up. -/
def report (fault : SyntaxFault) (span : Span) (s : ParseState) : ParseState :=
  if s.aborted then s else { s with faults := ⟨fault, span⟩ :: s.faults }

/-- Gives the parse up: the cursor moves to the last token. -/
def abort (s : ParseState) : ParseState :=
  { s.report .tooDeep s.current.span with aborted := true, current := s.lastToken, ahead := [] }

/-- Does a comment start before the token under the cursor? -/
def isPassed (s : ParseState) (c : Comment) : Bool := decide (c.span.start < s.current.span.start)

/-- The comments before the token under the cursor. -/
def passedComments (s : ParseState) : List Comment := s.comments.takeWhile s.isPassed

/-- Drops the comments before the token under the cursor. -/
def skipComments (s : ParseState) : ParseState :=
  { s with comments := s.comments.dropWhile s.isPassed }

/-- The tokens with an end-of-file token after them, unless they end in one. -/
def closed (tokens : List (Located Token)) : List (Located Token) :=
  match tokens.getLast? with
  | some t => if t.value = .eof then tokens else tokens ++ [endOfFile t.span.stop]
  | none => [endOfFile 0]

/-- The state before the first token. -/
def start (tokens : List (Located Token)) (comments : List Comment) : ParseState :=
  let tokens := closed tokens
  { current := tokens.headD (endOfFile 0), ahead := tokens.tail, comments, faults := [],
    aborted := false }

end ParseState

/-! ## Section 2: Steps -/

/-- A step of a parse. -/
abbrev Parse := StateM ParseState

namespace Parse

/-- The token under the cursor. -/
def peek : Parse Token := return (← get).current.value

/-- The place of the token under the cursor. -/
def here : Parse Span := return (← get).current.span

/-- Moves to the next token. -/
def advance : Parse Unit := modify ParseState.advance

/-- Moves past a token if it is the one under the cursor; was it? -/
def eat (token : Token) : Parse Bool :=
  modifyGet fun s => if s.current.value = token then (true, s.advance) else (false, s)

/-- Notes a fault at a place. -/
def reportAt (fault : SyntaxFault) (span : Span) : Parse Unit := modify (·.report fault span)

/-- Notes a fault at the token under the cursor. -/
def report (fault : SyntaxFault) : Parse Unit := modify fun s => s.report fault s.current.span

/-- Moves past a token that has to be there. -/
def expect (token : Token) : Parse Unit := do
  unless ← eat token do
    report (.expected token (← peek))

/-- Moves past a name that has to be there; the empty name if it is not. -/
def expectName : Parse String := do
  match ← peek with
  | .ident name => advance; return name
  | found => report (.expectedName found); return ""

/-- Drops the comments before the token under the cursor. -/
def skipComments : Parse Unit := modify ParseState.skipComments

/-- Takes the comments before the token under the cursor. -/
def takeComments : Parse (List Comment) := modifyGet fun s => (s.passedComments, s.skipComments)

/-! ## Section 3: Repetition -/

/-- Repeats a step that hands on a value, until it asks for an end by `none`
    or a round has moved past no token. -/
def iterate {α : Type} (step : α → Parse (Option α)) (a : α) : Parse α := fun s =>
  match step a s with
  | (none, s') => (a, s')
  | (some b, s') =>
    if s'.ahead.length < s.ahead.length then iterate step b s' else (b, s')
termination_by s => s.ahead.length

end Parse

end Mlog
