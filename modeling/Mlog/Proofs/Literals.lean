import Mlog.Proofs.Lexing
import Mlog.Proofs.Lowering
import Mlog.Proofs.Quotation

/-! # String literals in the source and in the code

    A string literal of a source text is read without its quotes and escapes, and
    the operand of the generated code has them again.  Nothing changes on the way:
    the operand is the literal as it stands in the source, byte for byte.  And an
    operand is a literal: read as a source text, it is one token with the text that
    it was made from.  Where in the source a literal stands is known from its span only
    if the source has fewer than 2 ^ 32 bytes.

    * `escape_unescape`: the escapes of a literal are found again.
    * `cut_quoted`: a text in quotes is one piece.
    * `mem_lexWide_padded`, `slice_padded`: a literal behind blanks, and the first bytes
      of its source. -/

namespace Mlog

/-! ## Section 1: From the source to the code -/

/-- In what is split off as the inside of a literal every quote has a backslash before
    it, so writing undoes reading. -/
theorem escape_unescape {cs inside after : List Char} (h : splitString cs = (inside, after)) :
    Text.escape (Text.unescape inside) = inside := by
  fun_induction splitString cs generalizing inside after with
  | case1 cs inside' after' heq ih =>
    cases h
    rw [Text.unescape, Text.escape_quote, ih heq]
  | case2 c cs _ hstop =>
    cases h
    rfl
  | case3 c cs hescape hstop inside' after' heq ih =>
    cases h
    have hquote : c ≠ '"' := fun hc => hstop (.inl hc)
    rw [Text.unescape, Text.escape_cons_of_ne hquote, ih heq]
    -- a backslash and a quote would have been read together
    intro rest hc hinside
    have hcs := splitString_append cs
    rw [heq, hinside] at hcs
    exact hescape _ hc hcs.symm
  | case4 =>
    cases h
    rfl

/-- The bytes at the place of a string literal are its text, quoted. -/
theorem slice_literal {source : String} {t : Located Token} {text : String}
    (h : t ∈ (lexWide source).tokens) (htext : t.value = .str text) :
    slice source t.span = (Text.quoted text).toUTF8 ∧
      (source.utf8ByteSize < UInt32.size → t.span.narrow = t.span) := by
  obtain ⟨rest, inside, after, hsplit, hstands, rfl⟩ := stands_literal h htext
  refine ⟨?_, hstands.narrow_eq_self⟩
  rw [hstands.slice_eq, Text.quoted, String.toList_ofList, escape_unescape hsplit]

/-! ## Section 2: From the code to the source -/

/-- A text in quotes is one piece. -/
theorem cut_quoted {text : String} (hline : '\n' ∉ text.toList)
    (hlast : text.toList.getLast? ≠ some '\\') :
    cut (Text.quoted text).toList = [⟨(Text.quoted text).toList, .token (.str text)⟩] := by
  have hread : ReadAs (Text.quoted text).toList (.str text) [] := readAs_quoted hline hlast
  obtain ⟨c, tail, chars, hchars, hpiece⟩ := hread
  rw [List.append_nil] at hpiece
  -- the piece covers all of the text
  have hall := firstPiece_append c tail
  rw [hpiece, List.append_nil] at hall
  rw [hchars, cut_cons, hpiece, cut_nil, ← hall]

theorem lexWide_quoted {text : String} (hline : '\n' ∉ text.toList)
    (hlast : text.toList.getLast? ≠ some '\\') :
    lexWide (Text.quoted text) =
      { tokens := [⟨.str text, ⟨0, (Text.quoted text).utf8ByteSize⟩⟩,
          endOfFile (Text.quoted text).utf8ByteSize]
        comments := []
        faults := [] } := by
  unfold lexWide piecesOf
  rw [cut_quoted hline hlast, byteLength_toList]
  simp [locate, Located.token?, Located.comment?, Located.fault?, byteLength_toList]

/-! ## Section 3: There and back -/

/-- The operand that lowering a string puts into the code, whatever names have been given
    out before. -/
def EmitsString (text operand : String) : Prop :=
  ∀ names, ∃ result,
    ((lower (.str text)).runFrom names).1 = .ok ⟨some result, [.set result operand]⟩

theorem emitsString_quoted (text : String) : EmitsString text (Text.quoted text) := by
  intro names
  exact ⟨names.freshTemp.1, rfl⟩

/-- String literals survive compilation.  The operand of a literal is the literal as it
    stands in the source, quotes and escapes included.  The span of the token is its
    place there, if the source has fewer than 2 ^ 32 bytes, and in general the last 32 bits
    of it.  And an operand made from a text of one line that does not end in a backslash is
    read as the literal with that text, with nothing else and no fault. -/
theorem literals_survive :
    (∀ (source : String) (t : Located Token) (text : String),
      t ∈ (lex source).tokens → t.value = .str text →
      ∃ operand place, EmitsString text operand ∧ operand.toUTF8 = slice source place ∧
        t.span = place.narrow ∧ (source.utf8ByteSize < UInt32.size → t.span = place)) ∧
    (∀ text : String, '\n' ∉ text.toList → text.toList.getLast? ≠ some '\\' →
      ∃ operand, EmitsString text operand ∧
        lex operand = Lexed.narrow
          { tokens := [⟨.str text, ⟨0, operand.utf8ByteSize⟩⟩, endOfFile operand.utf8ByteSize]
            comments := []
            faults := [] }) := by
  constructor
  · intro source t text ht htext
    obtain ⟨wide, hwide, rfl⟩ := List.mem_map.mp ht
    obtain ⟨hslice, hnarrow⟩ := slice_literal hwide htext
    exact ⟨Text.quoted text, wide.span, emitsString_quoted text, hslice.symm, rfl, hnarrow⟩
  · intro text hline hlast
    refine ⟨Text.quoted text, emitsString_quoted text, ?_⟩
    rw [lex, lexWide_quoted hline hlast]

/-! ## Section 4: A literal behind 2 ^ 32 blanks -/

theorem EmitsString.eq_quoted {text operand : String} (h : EmitsString text operand) :
    operand = Text.quoted text := by
  obtain ⟨result, hresult⟩ := h Names.none
  have hemits : ((lower (.str text)).runFrom Names.none).1 =
      .ok ⟨some "tmp0", [.set "tmp0" (Text.quoted text)]⟩ := rfl
  rw [hemits] at hresult
  simp_all [Instruction.set]

/-- A text of one letter in quotes, behind blanks. -/
def padded (blanks : Nat) : String := String.ofList (List.replicate blanks ' ' ++ "\"a\"".toList)

theorem cut_padded {blanks : Nat} (h : 0 < blanks) :
    cut (padded blanks).toList =
      [⟨List.replicate blanks ' ', .blank⟩, ⟨"\"a\"".toList, .token (.str "a")⟩] := by
  obtain ⟨n, rfl⟩ := Nat.exists_eq_succ_of_ne_zero (Nat.ne_of_gt h)
  have hsplit : splitRun isBlank (List.replicate n ' ' ++ "\"a\"".toList) =
      (List.replicate n ' ', "\"a\"".toList) :=
    splitRun_of_run (fun c hc => by rw [List.eq_of_mem_replicate hc]; rfl) (ends_cons rfl)
  have hfirst : firstPiece ' ' (List.replicate n ' ' ++ "\"a\"".toList) =
      (⟨' ' :: List.replicate n ' ', .blank⟩, "\"a\"".toList) := by
    simp only [firstPiece, hsplit]
    rfl
  rw [padded, String.toList_ofList, List.replicate_succ, List.cons_append, cut_cons, hfirst]
  have hliteral : cut "\"a\"".toList = [⟨"\"a\"".toList, .token (.str "a")⟩] :=
    @cut_quoted "a" (by decide) (by decide)
  rw [hliteral]

theorem byteLength_blanks (n : Nat) : byteLength (List.replicate n ' ') = n := by
  induction n with
  | zero => rfl
  | succ n ih =>
    rw [List.replicate_succ, byteLength_cons, ih, Nat.add_comm]
    rfl

theorem mem_lexWide_padded {blanks : Nat} (h : 0 < blanks) :
    ⟨.str "a", ⟨blanks, blanks + 3⟩⟩ ∈ (lexWide (padded blanks)).tokens := by
  have hpieces : piecesOf (padded blanks) =
      [⟨⟨List.replicate blanks ' ', .blank⟩, ⟨0, blanks⟩⟩,
        ⟨⟨"\"a\"".toList, .token (.str "a")⟩, ⟨blanks, blanks + 3⟩⟩] := by
    rw [piecesOf, cut_padded h]
    simp only [locate, byteLength_blanks, Nat.zero_add]
    rfl
  rw [tokens_lexWide, hpieces]
  exact List.mem_append_left _ List.mem_cons_self

theorem slice_padded {blanks : Nat} (h : 3 ≤ blanks) :
    slice (padded blanks) ⟨0, 3⟩ = "   ".toUTF8 := by
  obtain ⟨n, rfl⟩ := Nat.exists_eq_add_of_le h
  have hstands : Stands (padded (3 + n)) ⟨0, 3⟩ "   ".toList := by
    refine ⟨[], List.replicate n ' ' ++ "\"a\"".toList, ?_, rfl⟩
    rw [padded, String.toList_ofList, ← List.replicate_append_replicate, List.append_assoc]
    rfl
  rw [hstands.slice_eq, String.ofList_toList]

/-- Offsets start again at zero: the span of a literal behind 2 ^ 32 blanks is that of the
    first three of these blanks. -/
theorem literal_behind_blanks_misplaced :
    ¬ ∀ (source : String) (t : Located Token) (text : String),
      t ∈ (lex source).tokens → t.value = .str text →
      ∃ operand, EmitsString text operand ∧ operand.toUTF8 = slice source t.span := by
  intro h
  have hmem : ⟨.str "a", ⟨0, 3⟩⟩ ∈ (lex (padded UInt32.size)).tokens :=
    List.mem_map_of_mem (mem_lexWide_padded (by decide))
  obtain ⟨operand, hemits, hbytes⟩ := h _ _ "a" hmem rfl
  rw [hemits.eq_quoted, slice_padded (by decide)] at hbytes
  revert hbytes
  decide

end Mlog
