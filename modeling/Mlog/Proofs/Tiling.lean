import Mathlib.Data.List.Pairwise
import Mlog.Proofs.Pieces
import Mlog.Token.Lexed

/-! # Lexed texts tile their source

    Nothing of a source text is lost and nothing is read twice: the tokens,
    the comments and the reported faults stand at places that do not overlap,
    each kind in the order of the text, and all bytes outside these places are
    blanks.

    * `Stands source span text`: the characters `text` stand at the place
      `span` of the source.  From it follow the bytes of the place, and that it
      begins and ends between two characters.
    * `stands_of_mem_locate`, `pairwise_locate`, `exists_covering`: pieces in a
      row stand where they were located, one behind the other and without gaps.
    * `Lexed.Tiles`: all that is said above of a lexed text.
    * `lex_eq_lexWide`: offsets are cut to 32 bits, so a text has to be shorter
      than that for its places to be right. -/

namespace Mlog

/-! ## Section 1: Places and bytes -/

/-- The place ends before the other one starts. -/
def Span.Before (a b : Span) : Prop := a.stop ≤ b.start

/-- The places have no byte in common. -/
def Span.Disjoint (a b : Span) : Prop := a.Before b ∨ b.Before a

/-- The byte with a given offset is within the place. -/
def Span.Covers (span : Span) (i : Nat) : Prop := span.start ≤ i ∧ i < span.stop

/-- The bytes of a source text at a place. -/
def slice (source : String) (span : Span) : ByteArray :=
  source.toUTF8.extract span.start span.stop

/-- An offset that is not inside the bytes of one character. -/
def IsBoundary (source : String) (i : Nat) : Prop := String.Pos.Raw.IsValid source ⟨i⟩

/-- The bytes of the characters that separate tokens: space, tab, line feed,
    form feed and carriage return. -/
def blankBytes : List UInt8 := [0x20, 0x09, 0x0A, 0x0C, 0x0D]

theorem mem_blankBytes {c : Char} (hc : isBlank c = true) {b : UInt8}
    (hb : b ∈ String.utf8EncodeChar c) : b ∈ blankBytes := by
  simp only [isBlank, Bool.or_eq_true, beq_iff_eq] at hc
  have hall : (String.utf8EncodeChar c).all (fun b => decide (b ∈ blankBytes)) = true := by
    rcases hc with (((rfl | rfl) | rfl) | rfl) | rfl <;> decide
  exact of_decide_eq_true (List.all_eq_true.mp hall b hb)

/-- The end of a text is not inside a character. -/
theorem boundary_end (source : String) : IsBoundary source source.utf8ByteSize :=
  String.Pos.Raw.isValid_iff_exists_append.mpr ⟨source, "", by simp, rfl⟩

theorem byteLength_eq (cs : List Char) : byteLength cs = (String.ofList cs).utf8ByteSize := by
  induction cs with
  | nil => rfl
  | cons c cs ih =>
    rw [byteLength_cons, ih, ← List.singleton_append, String.ofList_append,
      String.utf8ByteSize_append, ← String.singleton_eq_ofList, String.utf8ByteSize_singleton]

theorem byteLength_toList (s : String) : byteLength s.toList = s.utf8ByteSize := by
  rw [byteLength_eq, String.ofList_toList]

theorem byteLength_pos {cs : List Char} (h : cs ≠ []) : 0 < byteLength cs := by
  obtain ⟨c, rest, rfl⟩ := List.exists_cons_of_ne_nil h
  have hc := c.utf8Size_pos
  rw [byteLength_cons]
  omega

/-! ## Section 2: Standing at a place -/

/-- The characters stand at the place of the source text. -/
def Stands (source : String) (span : Span) (text : List Char) : Prop :=
  ∃ before after, source.toList = before ++ text ++ after ∧
    span = ⟨byteLength before, byteLength before + byteLength text⟩

namespace Stands

variable {source : String} {span : Span} {text : List Char}

theorem eq_append (h : Stands source span text) :
    ∃ before after, source = before ++ String.ofList text ++ after ∧
      span.start = before.utf8ByteSize ∧
      span.stop = before.utf8ByteSize + (String.ofList text).utf8ByteSize := by
  obtain ⟨before, after, hsource, rfl⟩ := h
  refine ⟨String.ofList before, String.ofList after, ?_, byteLength_eq before, ?_⟩
  · rw [← String.ofList_append, ← String.ofList_append, ← hsource, String.ofList_toList]
  · show byteLength before + byteLength text = _
    rw [byteLength_eq, byteLength_eq]

/-- The bytes at the place are those of the characters. -/
theorem slice_eq (h : Stands source span text) :
    slice source span = (String.ofList text).toUTF8 := by
  obtain ⟨before, after, rfl, hstart, hstop⟩ := h.eq_append
  unfold slice
  simp only [String.toUTF8_eq_toByteArray, String.toByteArray_append, hstart, hstop,
    ← String.size_toByteArray]
  rw [ByteArray.extract_append, ByteArray.extract_append_eq_right rfl rfl]
  simp

theorem boundary_start (h : Stands source span text) : IsBoundary source span.start := by
  obtain ⟨before, after, hsource, hstart, _⟩ := h.eq_append
  apply String.Pos.Raw.isValid_iff_exists_append.mpr
  exact ⟨before, String.ofList text ++ after, by rw [hsource, String.append_assoc], by
    rw [hstart]; rfl⟩

theorem boundary_stop (h : Stands source span text) : IsBoundary source span.stop := by
  obtain ⟨before, after, hsource, _, hstop⟩ := h.eq_append
  apply String.Pos.Raw.isValid_iff_exists_append.mpr
  exact ⟨before ++ String.ofList text, after, hsource, by
    rw [hstop, ← String.utf8ByteSize_append]; rfl⟩

theorem stop_le (h : Stands source span text) : span.stop ≤ source.utf8ByteSize := by
  obtain ⟨before, after, rfl, _, hstop⟩ := h.eq_append
  rw [hstop, String.utf8ByteSize_append, String.utf8ByteSize_append]
  omega

theorem start_lt_stop (h : Stands source span text) (hne : text ≠ []) :
    span.start < span.stop := by
  obtain ⟨before, after, _, rfl⟩ := h
  have hpos := byteLength_pos hne
  show byteLength before < byteLength before + byteLength text
  omega

/-- The places of a text with fewer than 2 ^ 32 bytes are kept as they are. -/
theorem narrow_eq_self (h : Stands source span text) (hsize : source.utf8ByteSize < UInt32.size) :
    span.narrow = span := by
  have hstop := Nat.lt_of_le_of_lt h.stop_le hsize
  obtain ⟨before, after, _, rfl⟩ := h
  exact Span.narrow_eq_self (Nat.lt_of_le_of_lt (Nat.le_add_right _ _) hstop) hstop

/-- The bytes at a place of blanks are blank. -/
theorem blank_byte (h : Stands source span text) (hblank : ∀ c ∈ text, isBlank c = true) {i : Nat}
    (hi : span.Covers i) (hsize : i < source.toUTF8.size) :
    source.toUTF8[i] ∈ blankBytes := by
  have hslice := h.slice_eq
  rw [String.toUTF8_eq_toByteArray, String.toByteArray_ofList] at hslice
  obtain ⟨hstart, hstop⟩ := hi
  have hinside : i - span.start < (slice source span).size := by
    rw [slice, ByteArray.size_extract]
    omega
  -- the byte is one of the bytes that the blanks are encoded by
  have hbyte : source.toUTF8[i] = (slice source span)[i - span.start] := by
    simp only [slice, ByteArray.getElem_extract]
    congr 1
    omega
  have hmem : (slice source span)[i - span.start] ∈ text.flatMap String.utf8EncodeChar := by
    simp only [hslice, List.utf8Encode, List.getElem_toByteArray]
    exact List.getElem_mem _
  obtain ⟨c, hc, hb⟩ := List.mem_flatMap.mp hmem
  rw [hbyte]
  exact mem_blankBytes (hblank c hc) hb

end Stands

/-! ## Section 3: Pieces in a row -/

/-- Each of the pieces of a text stands where it was located. -/
theorem stands_of_mem_locate {source : String} {before : List Char} {ps : List Piece}
    (hsource : source.toList = before ++ ps.flatMap Piece.text) {p : Located Piece}
    (h : p ∈ locate (byteLength before) ps) :
    p.value ∈ ps ∧ Stands source p.span p.value.text := by
  induction ps generalizing before with
  | nil => exact absurd h List.not_mem_nil
  | cons first others ih =>
    rw [List.flatMap_cons] at hsource
    rcases List.mem_cons.mp h with rfl | h
    · exact ⟨List.mem_cons_self, before, others.flatMap Piece.text, by simp [hsource], rfl⟩
    · -- the first piece is part of what stands before the others
      have hbefore : source.toList = (before ++ first.text) ++ others.flatMap Piece.text := by
        rw [hsource, List.append_assoc]
      obtain ⟨hmem, hstands⟩ := ih hbefore (by rwa [byteLength_append])
      exact ⟨List.mem_cons_of_mem _ hmem, hstands⟩

theorem start_le_of_mem_locate {offset : Nat} {ps : List Piece} {p : Located Piece}
    (h : p ∈ locate offset ps) : offset ≤ p.span.start := by
  induction ps generalizing offset with
  | nil => exact absurd h List.not_mem_nil
  | cons first others ih =>
    rcases List.mem_cons.mp h with rfl | h
    · exact Nat.le_refl _
    · exact Nat.le_trans (Nat.le_add_right ..) (ih h)

/-- The pieces are located one behind the other. -/
theorem pairwise_locate (offset : Nat) (ps : List Piece) :
    (locate offset ps).Pairwise fun a b => a.span.Before b.span := by
  induction ps generalizing offset with
  | nil => exact .nil
  | cons first others ih =>
    apply List.Pairwise.cons
    · intro p hp
      exact start_le_of_mem_locate hp
    · exact ih _

/-- There are no gaps between the pieces. -/
theorem exists_covering {offset : Nat} {ps : List Piece} {i : Nat} (hle : offset ≤ i)
    (hlt : i < offset + byteLength (ps.flatMap Piece.text)) :
    ∃ p ∈ locate offset ps, p.span.Covers i := by
  induction ps generalizing offset with
  | nil => exact absurd hlt (Nat.not_lt.mpr hle)
  | cons first others ih =>
    rw [List.flatMap_cons, byteLength_append] at hlt
    by_cases hfirst : i < offset + byteLength first.text
    · exact ⟨_, List.mem_cons_self, hle, hfirst⟩
    · have hbehind : offset + byteLength first.text ≤ i := Nat.le_of_not_lt hfirst
      obtain ⟨p, hp, hcovers⟩ := ih hbehind (by omega)
      exact ⟨p, List.mem_cons_of_mem _ hp, hcovers⟩

/-! ## Section 4: Lexed texts -/

/-- The text of a token that is written as it stands in the source; a string
    literal is not. -/
def Token.spelling? : Token → Option String
  | keyword k => some k.spelling
  | symbol s => some s.spelling
  | number text => some text
  | ident name => some name
  | str _ => none
  | eof => none

/-- The places of the tokens before the end of the file, of the comments, and of
    the reported faults. -/
def Lexed.places (lexed : Lexed) : List Span :=
  lexed.tokens.dropLast.map Located.span ++ lexed.comments.map Located.span ++
    lexed.diagnostics.filterMap Diagnostic.span

@[simp] theorem span_diagnostic (fault : Located LexicalFault) :
    (LexicalFault.diagnostic fault).span = some fault.span := rfl

/-- The reports stand where the faults are. -/
theorem filterMap_span_diagnostics (lexed : Lexed) :
    lexed.diagnostics.filterMap Diagnostic.span = lexed.faults.map Located.span := by
  unfold Lexed.diagnostics
  rw [List.filterMap_map]
  show lexed.faults.filterMap (some ∘ Located.span) = _
  rw [List.filterMap_eq_map]

/-- A lexed text and its source fit together; see the head of the module. -/
structure Lexed.Tiles (lexed : Lexed) (source : String) : Prop where
  /-- The end of the file comes last, behind the last byte, and nowhere else. -/
  closed : lexed.tokens.getLast? = some ⟨.eof, ⟨source.utf8ByteSize, source.utf8ByteSize⟩⟩ ∧
    ∀ t ∈ lexed.tokens.dropLast, t.value ≠ .eof
  /-- Every report has a place. -/
  located : ∀ d ∈ lexed.diagnostics, d.span.isSome
  /-- The places cover at least one byte, and bytes of the source only. -/
  nonempty : ∀ span ∈ lexed.places, span.start < span.stop ∧ span.stop ≤ source.utf8ByteSize
  /-- No byte is in two places. -/
  disjoint : lexed.places.Pairwise Span.Disjoint
  /-- Tokens, comments and reports are each in the order of the text. -/
  ordered : (lexed.tokens.map Located.span).Pairwise Span.Before ∧
    (lexed.comments.map Located.span).Pairwise Span.Before ∧
    (lexed.diagnostics.filterMap Diagnostic.span).Pairwise Span.Before
  /-- Every byte is in one of the places or is a blank. -/
  covered : ∀ i (_ : i < source.toUTF8.size),
    (∃ span ∈ lexed.places, span.Covers i) ∨ source.toUTF8[i] ∈ blankBytes
  /-- Places begin and end between two characters. -/
  boundaries : ∀ span ∈ lexed.tokens.map Located.span ++ lexed.places,
    IsBoundary source span.start ∧ IsBoundary source span.stop
  /-- Names, numbers, keywords and symbols are the bytes at their places. -/
  spelled : ∀ t ∈ lexed.tokens, ∀ text, t.value.spelling? = some text →
    slice source t.span = text.toUTF8
  /-- A comment is the rest of a line after two slashes, and its text is that
      rest, trimmed. -/
  commented : ∀ c ∈ lexed.comments, ∃ rest : String,
    slice source c.span = ("//" ++ rest).toUTF8 ∧ '\n' ∉ rest.toList ∧ c.value = Text.trim rest

/-- Each piece of a source stands at its place, is written as its kind says and
    covers something. -/
theorem stands_of_mem_piecesOf {source : String} {p : Located Piece} (h : p ∈ piecesOf source) :
    Stands source p.span p.value.text ∧ p.value.Written ∧ p.value.text ≠ [] := by
  have hsource : source.toList = [] ++ (cut source.toList).flatMap Piece.text := by
    rw [flatMap_text_cut, List.nil_append]
  obtain ⟨hmem, hstands⟩ := stands_of_mem_locate hsource h
  exact ⟨hstands, written_of_mem_cut hmem⟩

/-! ## Section 5: Sorting keeps the places -/

theorem token?_eq_some {p : Located Piece} {t : Located Token} (h : p.token? = some t) :
    p.value.kind = .token t.value ∧ t.span = p.span := by
  unfold Located.token? at h
  split at h
  · rename_i token hkind
    obtain rfl := Option.some.inj h
    exact ⟨hkind, rfl⟩
  · exact absurd h (by simp)

theorem comment?_eq_some {p : Located Piece} {c : Comment} (h : p.comment? = some c) :
    p.value.kind = .comment c.value ∧ c.span = p.span := by
  unfold Located.comment? at h
  split at h
  · rename_i text hkind
    obtain rfl := Option.some.inj h
    exact ⟨hkind, rfl⟩
  · exact absurd h (by simp)

theorem fault?_eq_some {p : Located Piece} {f : Located LexicalFault} (h : p.fault? = some f) :
    p.value.kind = .fault f.value ∧ f.span = p.span := by
  unfold Located.fault? at h
  split at h
  · rename_i fault hkind
    obtain rfl := Option.some.inj h
    exact ⟨hkind, rfl⟩
  · exact absurd h (by simp)

section

variable {α β : Type} {f : Located Piece → Option (Located α)}
  {g : Located Piece → Option (Located β)}

/-- The places of the pieces of a source that are of one sort. -/
def placesOf (f : Located Piece → Option (Located α)) (source : String) : List Span :=
  ((piecesOf source).filterMap f).map Located.span

theorem mem_placesOf (hf : ∀ p x, f p = some x → x.span = p.span) {source : String} {span : Span}
    (h : span ∈ placesOf f source) : ∃ p ∈ piecesOf source, p.span = span ∧ (f p).isSome := by
  obtain ⟨x, hx, rfl⟩ := List.mem_map.mp h
  obtain ⟨p, hp, hfp⟩ := List.mem_filterMap.mp hx
  exact ⟨p, hp, (hf p x hfp).symm, by rw [hfp]; rfl⟩

/-- Pieces of one sort are in the order of the text. -/
theorem pairwise_placesOf (hf : ∀ p x, f p = some x → x.span = p.span) (source : String) :
    (placesOf f source).Pairwise Span.Before := by
  unfold placesOf
  rw [List.pairwise_map, List.pairwise_filterMap]
  apply (pairwise_locate 0 (cut source.toList)).imp
  intro a b hab x hx y hy
  rw [hf a x hx, hf b y hy]
  exact hab

/-- Different pieces have no byte in common. -/
theorem disjoint_of_mem_piecesOf {source : String} {p q : Located Piece}
    (hp : p ∈ piecesOf source) (hq : q ∈ piecesOf source) (hne : p ≠ q) :
    p.span.Disjoint q.span := by
  have hsymm : Std.Symm fun a b : Located Piece => a.span.Disjoint b.span :=
    ⟨fun _ _ hab => hab.symm⟩
  have hpairs := (pairwise_locate 0 (cut source.toList)).imp (S := fun a b : Located Piece =>
    a.span.Disjoint b.span) fun hab => .inl hab
  exact hpairs.forall hp hq hne

/-- Pieces of different sorts have no byte in common. -/
theorem disjoint_placesOf (hf : ∀ p x, f p = some x → x.span = p.span)
    (hg : ∀ p x, g p = some x → x.span = p.span)
    (hsorts : ∀ p, (f p).isSome → (g p).isSome → False) {source : String} {a b : Span}
    (ha : a ∈ placesOf f source) (hb : b ∈ placesOf g source) : a.Disjoint b := by
  obtain ⟨p, hp, rfl, hfp⟩ := mem_placesOf hf ha
  obtain ⟨q, hq, rfl, hgq⟩ := mem_placesOf hg hb
  apply disjoint_of_mem_piecesOf hp hq
  rintro rfl
  exact hsorts p hfp hgq

end

/-! ## Section 6: The tiling -/

theorem tokens_lexWide (source : String) :
    (lexWide source).tokens =
      (piecesOf source).filterMap Located.token? ++ [endOfFile source.utf8ByteSize] := by
  rw [← byteLength_toList]
  rfl

theorem dropLast_tokens_lexWide (source : String) :
    (lexWide source).tokens.dropLast = (piecesOf source).filterMap Located.token? := by
  rw [tokens_lexWide, List.dropLast_concat]

theorem places_lexWide (source : String) :
    (lexWide source).places =
      placesOf Located.token? source ++ placesOf Located.comment? source ++
        placesOf Located.fault? source := by
  unfold Lexed.places
  rw [dropLast_tokens_lexWide, filterMap_span_diagnostics]
  rfl

theorem span_token? (p : Located Piece) (t : Located Token) (h : p.token? = some t) :
    t.span = p.span := (token?_eq_some h).2

theorem span_comment? (p : Located Piece) (c : Comment) (h : p.comment? = some c) :
    c.span = p.span := (comment?_eq_some h).2

theorem span_fault? (p : Located Piece) (f : Located LexicalFault) (h : p.fault? = some f) :
    f.span = p.span := (fault?_eq_some h).2

/-- A place is that of a piece. -/
theorem exists_piece_of_mem_places {source : String} {span : Span}
    (h : span ∈ (lexWide source).places) : ∃ p ∈ piecesOf source, p.span = span := by
  rw [places_lexWide, List.mem_append, List.mem_append] at h
  rcases h with (h | h) | h
  · obtain ⟨p, hp, hspan, _⟩ := mem_placesOf span_token? h
    exact ⟨p, hp, hspan⟩
  · obtain ⟨p, hp, hspan, _⟩ := mem_placesOf span_comment? h
    exact ⟨p, hp, hspan⟩
  · obtain ⟨p, hp, hspan, _⟩ := mem_placesOf span_fault? h
    exact ⟨p, hp, hspan⟩

theorem disjoint_places (source : String) : (lexWide source).places.Pairwise Span.Disjoint := by
  have hbefore : ∀ {l : List Span}, l.Pairwise Span.Before → l.Pairwise Span.Disjoint :=
    fun h => h.imp fun hab => .inl hab
  rw [places_lexWide, List.pairwise_append, List.pairwise_append]
  -- within one sort by order, and between two since a piece is of one kind
  refine ⟨⟨hbefore (pairwise_placesOf span_token? source),
    hbefore (pairwise_placesOf span_comment? source), ?_⟩,
    hbefore (pairwise_placesOf span_fault? source), ?_⟩
  · intro a ha b hb
    apply disjoint_placesOf span_token? span_comment? _ ha hb
    intro p
    unfold Located.token? Located.comment?
    cases p.value.kind <;> simp
  · intro a ha b hb
    rcases List.mem_append.mp ha with ha | ha
    · apply disjoint_placesOf span_token? span_fault? _ ha hb
      intro p
      unfold Located.token? Located.fault?
      cases p.value.kind <;> simp
    · apply disjoint_placesOf span_comment? span_fault? _ ha hb
      intro p
      unfold Located.comment? Located.fault?
      cases p.value.kind <;> simp

/-- The place of a piece that is no run of blanks is one of the places. -/
theorem mem_places_or_blank {source : String} {p : Located Piece} (hp : p ∈ piecesOf source) :
    p.span ∈ (lexWide source).places ∨ p.value.kind = .blank := by
  rw [places_lexWide, List.mem_append, List.mem_append]
  unfold placesOf
  cases hkind : p.value.kind with
  | blank => exact .inr rfl
  | token t =>
    have hsort : p.token? = some ⟨t, p.span⟩ := by simp [Located.token?, hkind]
    exact .inl (.inl (.inl (List.mem_map.mpr ⟨_, List.mem_filterMap.mpr ⟨p, hp, hsort⟩, rfl⟩)))
  | comment text =>
    have hsort : p.comment? = some ⟨text, p.span⟩ := by simp [Located.comment?, hkind]
    exact .inl (.inl (.inr (List.mem_map.mpr ⟨_, List.mem_filterMap.mpr ⟨p, hp, hsort⟩, rfl⟩)))
  | fault f =>
    have hsort : p.fault? = some ⟨f, p.span⟩ := by simp [Located.fault?, hkind]
    exact .inl (.inr (List.mem_map.mpr ⟨_, List.mem_filterMap.mpr ⟨p, hp, hsort⟩, rfl⟩))

theorem covered_lexWide (source : String) (i : Nat) (hi : i < source.toUTF8.size) :
    (∃ span ∈ (lexWide source).places, span.Covers i) ∨ source.toUTF8[i] ∈ blankBytes := by
  have hsize : i < 0 + byteLength ((cut source.toList).flatMap Piece.text) := by
    rw [flatMap_text_cut, byteLength_toList, Nat.zero_add]
    exact hi
  obtain ⟨p, hp, hcovers⟩ := exists_covering (Nat.zero_le i) hsize
  rcases mem_places_or_blank hp with hplace | hblank
  · exact .inl ⟨p.span, hplace, hcovers⟩
  · obtain ⟨hstands, hwritten, _⟩ := stands_of_mem_piecesOf hp
    unfold Piece.Written at hwritten
    rw [hblank] at hwritten
    exact .inr (hstands.blank_byte hwritten hcovers hi)

/-- A token is the end of the file, or it stands in the source as it is
    written. -/
theorem written_of_mem_tokens {source : String} {t : Located Token}
    (ht : t ∈ (lexWide source).tokens) :
    t.value = .eof ∨ ∃ cs, Stands source t.span cs ∧ t.value.Written cs := by
  rw [tokens_lexWide, List.mem_append, List.mem_singleton] at ht
  rcases ht with ht | rfl
  · obtain ⟨p, hp, hsort⟩ := List.mem_filterMap.mp ht
    obtain ⟨hkind, hspan⟩ := token?_eq_some hsort
    obtain ⟨hstands, hwritten, _⟩ := stands_of_mem_piecesOf hp
    unfold Piece.Written at hwritten
    rw [hkind] at hwritten
    exact .inr ⟨p.value.text, hspan ▸ hstands, hwritten⟩
  · exact .inl rfl

/-- No piece of a source text is the end of the file. -/
theorem value_ne_eof {source : String} {t : Located Token}
    (ht : t ∈ (piecesOf source).filterMap Located.token?) : t.value ≠ .eof := by
  intro heof
  obtain ⟨p, hp, hsort⟩ := List.mem_filterMap.mp ht
  obtain ⟨_, hwritten, _⟩ := stands_of_mem_piecesOf hp
  unfold Piece.Written at hwritten
  rw [(token?_eq_some hsort).1, heof] at hwritten
  exact hwritten

/-- A token that is written as it stands is the bytes at its place. -/
theorem spelled_lexWide {source : String} {t : Located Token} (ht : t ∈ (lexWide source).tokens)
    {text : String} (htext : t.value.spelling? = some text) :
    slice source t.span = text.toUTF8 := by
  rcases written_of_mem_tokens ht with heof | ⟨cs, hstands, hwritten⟩
  · exact absurd htext (by simp [heof, Token.spelling?])
  · -- what is written is the spelling, character by character
    have hchars : cs = text.toList := by
      cases hvalue : t.value with
      | keyword k => simp_all [Token.Written, Token.spelling?]
      | symbol s => simp_all [Token.Written, Token.spelling?]
      | number text => simp_all [Token.Written, Token.spelling?]
      | ident name => simp_all [Token.Written, Token.spelling?]
      | str text => simp [hvalue, Token.spelling?] at htext
      | eof => simp [hvalue, Token.spelling?] at htext
    rw [hstands.slice_eq, hchars, String.ofList_toList]

theorem commented_lexWide {source : String} {c : Comment} (hc : c ∈ (lexWide source).comments) :
    ∃ rest : String, slice source c.span = ("//" ++ rest).toUTF8 ∧ '\n' ∉ rest.toList ∧
      c.value = Text.trim rest := by
  obtain ⟨p, hp, hsort⟩ := List.mem_filterMap.mp hc
  obtain ⟨hkind, hspan⟩ := comment?_eq_some hsort
  obtain ⟨hstands, hwritten, _⟩ := stands_of_mem_piecesOf hp
  unfold Piece.Written at hwritten
  rw [hkind] at hwritten
  obtain ⟨rest, htext, hline, hvalue⟩ := hwritten
  refine ⟨String.ofList rest, ?_, by rwa [String.toList_ofList], hvalue⟩
  rw [hspan, hstands.slice_eq, htext]
  congr 1
  rw [← String.toList_inj]
  simp

/-- With offsets of any size lexing tiles every source text. -/
theorem tiles_lexWide (source : String) : (lexWide source).Tiles source where
  closed := by
    rw [tokens_lexWide, List.dropLast_concat]
    exact ⟨by simp [endOfFile], fun t ht => value_ne_eof ht⟩
  located := by
    intro d hd
    obtain ⟨f, _, rfl⟩ := List.mem_map.mp hd
    rfl
  nonempty := by
    intro span hspan
    obtain ⟨p, hp, rfl⟩ := exists_piece_of_mem_places hspan
    obtain ⟨hstands, _, hne⟩ := stands_of_mem_piecesOf hp
    exact ⟨hstands.start_lt_stop hne, hstands.stop_le⟩
  disjoint := disjoint_places source
  ordered := by
    rw [filterMap_span_diagnostics, tokens_lexWide, List.map_append, List.pairwise_append]
    refine ⟨⟨pairwise_placesOf span_token? source, List.pairwise_singleton .., ?_⟩,
      pairwise_placesOf span_comment? source, pairwise_placesOf span_fault? source⟩
    -- the end of the file is behind all tokens
    intro a ha b hb
    obtain rfl := List.mem_singleton.mp hb
    obtain ⟨p, hp, rfl, _⟩ := mem_placesOf span_token? ha
    exact (stands_of_mem_piecesOf hp).1.stop_le
  covered := covered_lexWide source
  boundaries := by
    intro span hspan
    have hplaces : ∀ span ∈ (lexWide source).places,
        IsBoundary source span.start ∧ IsBoundary source span.stop := by
      intro span hspan
      obtain ⟨p, hp, rfl⟩ := exists_piece_of_mem_places hspan
      obtain ⟨hstands, _⟩ := stands_of_mem_piecesOf hp
      exact ⟨hstands.boundary_start, hstands.boundary_stop⟩
    rcases List.mem_append.mp hspan with hspan | hspan
    · rw [tokens_lexWide, List.map_append, List.mem_append] at hspan
      rcases hspan with hspan | hspan
      · apply hplaces
        rw [places_lexWide]
        exact List.mem_append_left _ (List.mem_append_left _ hspan)
      · obtain rfl := List.mem_singleton.mp hspan
        exact ⟨boundary_end source, boundary_end source⟩
    · exact hplaces span hspan
  spelled := fun t ht text htext => spelled_lexWide ht htext
  commented := fun c hc => commented_lexWide hc

/-! ## Section 7: Offsets in 32 bits -/

theorem tokens_lex (source : String) :
    (lex source).tokens = ((piecesOf source).filterMap Located.token?).map Located.narrow ++
      [(endOfFile source.utf8ByteSize).narrow] := by
  show (lexWide source).tokens.map Located.narrow = _
  rw [tokens_lexWide, List.map_append]
  rfl

/-- Places that are kept as they are change nothing. -/
theorem map_narrow_eq_self {α : Type} {xs : List (Located α)}
    (h : ∀ x ∈ xs, x.span.narrow = x.span) : xs.map Located.narrow = xs := by
  have hsame : ∀ x ∈ xs, x.narrow = id x := by
    intro x hx
    unfold Located.narrow
    rw [h x hx]
    rfl
  rw [List.map_congr_left hsame, List.map_id]

/-- A text with fewer than 2 ^ 32 bytes is lexed as if offsets were of any size. -/
theorem lex_eq_lexWide {source : String} (hsize : source.utf8ByteSize < UInt32.size) :
    lex source = lexWide source := by
  -- every place found in the source ends within it, so narrowing loses nothing
  have hsort : ∀ {α : Type} {f : Located Piece → Option (Located α)},
      (∀ p x, f p = some x → x.span = p.span) → ∀ x ∈ (piecesOf source).filterMap f,
        x.span.narrow = x.span := by
    intro α f hf x hx
    obtain ⟨p, hp, hfp⟩ := List.mem_filterMap.mp hx
    rw [hf p x hfp]
    exact (stands_of_mem_piecesOf hp).1.narrow_eq_self hsize
  have htokens : (lexWide source).tokens.map Located.narrow = (lexWide source).tokens := by
    apply map_narrow_eq_self
    intro t ht
    rw [tokens_lexWide, List.mem_append, List.mem_singleton] at ht
    -- the pieces, and the end of the file
    rcases ht with ht | rfl
    · exact hsort span_token? t ht
    · exact Span.narrow_eq_self hsize hsize
  have hcomments : (lexWide source).comments.map Located.narrow = (lexWide source).comments :=
    map_narrow_eq_self (hsort span_comment?)
  have hfaults : (lexWide source).faults.map Located.narrow = (lexWide source).faults :=
    map_narrow_eq_self (hsort span_fault?)
  unfold lex Lexed.narrow
  rw [htokens, hcomments, hfaults]

/-- Lexing tiles every source text with fewer than 2 ^ 32 bytes. -/
theorem lex_tiles_source {source : String} (hsize : source.utf8ByteSize < UInt32.size) :
    (lex source).Tiles source := by
  rw [lex_eq_lexWide hsize]
  exact tiles_lexWide source

/-- A text with a comment behind a name, a lone sign, a broken string and a
    character that no token can be made of. -/
def broken : String := "é & x // half\n\"open\n1.5"

theorem broken_tiled : broken.utf8ByteSize < UInt32.size ∧ (lex broken).Tiles broken := by
  have hsize : broken.utf8ByteSize < UInt32.size := by decide
  exact ⟨hsize, lex_tiles_source hsize⟩

end Mlog
