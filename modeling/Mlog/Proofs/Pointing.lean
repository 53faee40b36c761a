import Mlog.Proofs.Quotation
import Mlog.Proofs.Totality

/-! # Reports point into the source

    Wherever the parser notes a fault, be it after any amount of recovery, the
    place that it notes runs from the start of a token to the end of a token:
    it is the place of the token under the cursor, of one that was under it
    before, or of such a token and an assignment sign merged.  So the reports
    about a source text have places within it that cut no character.

    * `Span.Among tokens span`: the span runs from the start of one of the
      tokens to the end of one.
    * `sticky_pointed`: that faults are noted at such spans only is kept by all
      moves of a parse, and so by all parsers.
    * `reports_point_into_source`: what that says of a source text. -/

namespace Mlog

/-! ## Section 1: Spans between tokens -/

/-- The span runs from the start of a token to the end of a token, and not
    backwards. -/
structure Span.Among (tokens : List (Located Token)) (span : Span) : Prop where
  start : ∃ t ∈ tokens, t.span.start = span.start
  stop : ∃ t ∈ tokens, t.span.stop = span.stop
  le : span.start ≤ span.stop

/-- Merging two such spans gives such a span, wherever the two are. -/
theorem Span.Among.merge {tokens : List (Located Token)} {a b : Span} (ha : a.Among tokens)
    (hb : b.Among tokens) : (a.merge b).Among tokens where
  start := by
    show ∃ t ∈ tokens, t.span.start = min a.start b.start
    rcases Nat.le_total a.start b.start with hle | hle
    · rw [Nat.min_eq_left hle]
      exact ha.start
    · rw [Nat.min_eq_right hle]
      exact hb.start
  stop := by
    show ∃ t ∈ tokens, t.span.stop = max a.stop b.stop
    rcases Nat.le_total a.stop b.stop with hle | hle
    · rw [Nat.max_eq_right hle]
      exact hb.stop
    · rw [Nat.max_eq_left hle]
      exact ha.stop
  le := by
    show min a.start b.start ≤ max a.stop b.stop
    have hle := ha.le
    omega

/-- The tokens from the cursor on, and the faults noted so far, have such
    spans. -/
structure ParseState.Pointed (tokens : List (Located Token)) (s : ParseState) : Prop where
  remaining : ∀ t ∈ s.remaining, t.span.Among tokens
  faults : ∀ f ∈ s.faults, f.span.Among tokens

namespace ParseState.Pointed

variable {tokens : List (Located Token)} {s s' : ParseState}

theorem current (h : s.Pointed tokens) : s.current.span.Among tokens :=
  h.remaining _ List.mem_cons_self

/-- Moving on without noting a fault. -/
theorem later (h : s.Pointed tokens) (hremaining : s'.remaining <:+ s.remaining)
    (hfaults : s'.faults = s.faults) : s'.Pointed tokens where
  remaining := fun t ht => h.remaining t (hremaining.subset ht)
  faults := by
    rw [hfaults]
    exact h.faults

theorem report (h : s.Pointed tokens) (fault : SyntaxFault) {span : Span}
    (hspan : span.Among tokens) : (s.report fault span).Pointed tokens := by
  unfold ParseState.report
  split
  · exact h
  · refine ⟨h.remaining, fun f hf => ?_⟩
    rcases List.mem_cons.mp hf with rfl | hf
    · exact hspan
    · exact h.faults f hf

theorem abort (h : s.Pointed tokens) : s.abort.Pointed tokens where
  remaining := fun t ht => h.remaining t ((Goes.abort s).remaining.subset ht)
  faults := (h.report .tooDeep h.current).faults

end ParseState.Pointed

/-- The places between tokens. -/
def Places.among (tokens : List (Located Token)) : Places := ⟨Span.Among tokens, .merge⟩

/-- Faults that are noted at places between tokens point at tokens. -/
theorem sticky_pointed (tokens : List (Located Token)) :
    Sticky (.among tokens) (ParseState.Pointed tokens) where
  advance := fun {s} h => h.later (ParseState.Goes.advance s).remaining s.faults_advance
  skipAll := fun {s} token h =>
    h.later (ParseState.Goes.skipAll s token).remaining (faults_skipAll s token).1
  skipComments := fun {s} h => h.later (ParseState.Goes.skipComments s).remaining rfl
  report := fun fault _ hspan h => h.report fault hspan
  abort := fun h => h.abort
  here := fun h => h.current

/-! ## Section 2: Source texts -/

/-- The place is one of the source text and cuts no character. -/
structure Span.Inside (source : String) (span : Span) : Prop where
  le : span.start ≤ span.stop
  stop_le : span.stop ≤ source.utf8ByteSize
  boundary_start : IsBoundary source span.start
  boundary_stop : IsBoundary source span.stop

/-- The offset is one that a token starts at, or a run of characters that no
    token can be made of. -/
def IsStart (source : String) (i : Nat) : Prop :=
  (∃ t ∈ (lex source).tokens, t.span.start = i) ∨ ∃ f ∈ (lex source).faults, f.span.start = i

theorem inside_of_mem_piecesOf {source : String} {p : Located Piece} (h : p ∈ piecesOf source) :
    p.span.Inside source := by
  obtain ⟨hstands, _, hne⟩ := stands_of_mem_piecesOf h
  exact ⟨Nat.le_of_lt (hstands.start_lt_stop hne), hstands.stop_le, hstands.boundary_start,
    hstands.boundary_stop⟩

theorem closed_tokens_lex (source : String) :
    ParseState.closed (lex source).tokens = (lex source).tokens := by
  obtain ⟨before, last, htokens, heof, _⟩ := closed_lex source
  simp [ParseState.closed, htokens, heof]

section

variable {source : String} (hsize : source.utf8ByteSize < UInt32.size)
include hsize

theorem inside_of_mem_tokens {t : Located Token} (h : t ∈ (lex source).tokens) :
    t.span.Inside source := by
  rw [lex_eq_lexWide hsize, tokens_lexWide, List.mem_append, List.mem_singleton] at h
  rcases h with h | rfl
  · obtain ⟨p, hp, hsort⟩ := List.mem_filterMap.mp h
    rw [span_token? p t hsort]
    exact inside_of_mem_piecesOf hp
  · -- the end of the file is an empty place behind the last byte
    exact ⟨Nat.le_refl _, Nat.le_refl _, boundary_end source, boundary_end source⟩

theorem inside_of_mem_faults {f : Located LexicalFault} (h : f ∈ (lex source).faults) :
    f.span.Inside source := by
  rw [lex_eq_lexWide hsize] at h
  obtain ⟨p, hp, hsort⟩ := List.mem_filterMap.mp h
  rw [span_fault? p f hsort]
  exact inside_of_mem_piecesOf hp

/-- Of the two ends of a span between tokens, each is that of a token. -/
theorem Span.Among.inside {span : Span} (h : span.Among (lex source).tokens) :
    span.Inside source := by
  obtain ⟨first, hfirst, hstart⟩ := h.start
  obtain ⟨last, hlast, hstop⟩ := h.stop
  have hfirst' := inside_of_mem_tokens hsize hfirst
  have hlast' := inside_of_mem_tokens hsize hlast
  exact
    { le := h.le
      stop_le := hstop ▸ hlast'.stop_le
      boundary_start := hstart ▸ hfirst'.boundary_start
      boundary_stop := hstop ▸ hlast'.boundary_stop }

/-- Before the first token of a source text no fault has been noted, and all
    tokens are ahead. -/
theorem ParseState.pointed_start (comments : List Comment) :
    (start (lex source).tokens comments).Pointed (lex source).tokens where
  remaining := by
    intro t ht
    rw [remaining_start, closed_tokens_lex] at ht
    exact ⟨⟨t, ht, rfl⟩, ⟨t, ht, rfl⟩, (inside_of_mem_tokens hsize ht).le⟩
  faults := fun f hf => absurd hf List.not_mem_nil

/-- The faults that the parser finds in a source text are between tokens. -/
theorem among_of_parse {faults : List (Located SyntaxFault)}
    (h : parse (lex source).tokens (lex source).comments = .error faults)
    {f : Located SyntaxFault} (hf : f ∈ faults) : f.span.Among (lex source).tokens := by
  have hprogram : KeepsAt (.among (lex source).tokens) Grammar.program :=
    Grammar.keeps_statements _
  have hpointed := hprogram.keeps (sticky_pointed _)
    (ParseState.pointed_start hsize (lex source).comments)
  rw [parse_eq] at h
  split at h
  · cases h
  · cases h
    exact hpointed.faults f (List.mem_reverse.mp hf)

end

/-- Every report about a source text that is no program has a place, if the text
    has fewer than 2 ^ 32 bytes: it lies within the text, cuts no character, and
    starts where a token or a rejected run of characters starts. -/
theorem reports_point_into_source {source : String} {reports : List Diagnostic}
    (hsize : source.utf8ByteSize < UInt32.size) (h : parseSource source = .error reports) :
    ∀ report ∈ reports, ∃ span, report.span = some span ∧ span.Inside source ∧
      IsStart source span.start := by
  intro report hreport
  unfold parseSource at h
  dsimp only at h
  split at h
  · cases hparse : parse (lex source).tokens (lex source).comments with
    | ok e =>
      rw [hparse] at h
      cases h
    | error faults =>
      rw [hparse] at h
      cases h
      obtain ⟨f, hf, rfl⟩ := List.mem_map.mp hreport
      have hamong := among_of_parse hsize hparse hf
      exact ⟨f.span, rfl, hamong.inside hsize, .inl hamong.start⟩
  · cases h
    obtain ⟨f, hf, rfl⟩ := List.mem_map.mp hreport
    exact ⟨f.span, rfl, inside_of_mem_faults hsize hf, .inr ⟨f, hf, rfl⟩⟩

/-- A text with a literal as the target of an assignment, two signs before a
    name, and a parenthesis that is not closed. -/
def misplaced : String := "\"é\" = (--x"

/-- The reports about it: the target is found last, but stands first. -/
def misplacedReports : List Diagnostic :=
  [SyntaxFault.diagnostic ⟨.negation, ⟨8, 9⟩⟩,
    SyntaxFault.diagnostic ⟨.expected (.symbol .rparen) .eof, ⟨11, 11⟩⟩,
    SyntaxFault.diagnostic ⟨.badTarget (.str "é"), ⟨0, 6⟩⟩]

theorem misplaced_point_into_source :
    misplaced.utf8ByteSize < UInt32.size ∧ parseSource misplaced = .error misplacedReports ∧
      ∀ report ∈ misplacedReports, ∃ span, report.span = some span ∧ span.Inside misplaced ∧
        IsStart misplaced span.start := by
  have hsize : misplaced.utf8ByteSize < UInt32.size := by decide
  have hparse : parseSource misplaced = .error misplacedReports := by decide +kernel
  exact ⟨hsize, hparse, reports_point_into_source hsize hparse⟩

end Mlog
