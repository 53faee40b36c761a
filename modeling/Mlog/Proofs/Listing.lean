import Mlog.Proofs.CommentParsing
import Mlog.Proofs.Parts
import Mlog.Proofs.Quotation

/-! # Listings can be read back

    A listing has one line for each instruction.  In a line the keyword and the
    operands are written as they are with spaces between, so an operand could run
    into the next one, or a line into the next.  For the programs of source texts
    this never happens: names, numbers and words have no spaces in them, and a
    string is between quotes, of which the reader knows where the second one is.

    * `Text.words`: the words of a line, cut at the spaces outside quotes.
    * `words_text`: an instruction with legible operands can be read back from its
      line.
    * `listing_lossless`: the listings of source texts. -/

namespace Mlog

/-! ## Section 1: Words of a line -/

namespace Text

/-- Puts a character before the first word. -/
def pushFirst (c : Char) : List (List Char) → List (List Char)
  | [] => [[c]]
  | word :: words => (c :: word) :: words

/-- Cuts at the spaces outside quotes; the flag tells whether the text starts
    inside quotes.  There `\"` does not end them. -/
def cutWords : Bool → List Char → List (List Char)
  | _, [] => [[]]
  | true, '\\' :: '"' :: cs => pushFirst '\\' (pushFirst '"' (cutWords true cs))
  | inside, c :: cs =>
    if c = ' ' ∧ inside = false then [] :: cutWords false cs
    else pushFirst c (cutWords (if c = '"' then !inside else inside) cs)

/-- The words of a line. -/
def words (line : String) : List String := (cutWords false line.toList).map String.ofList

theorem foldr_pushFirst (cs word : List Char) (others : List (List Char)) :
    cs.foldr pushFirst (word :: others) = (cs ++ word) :: others := by
  induction cs with
  | nil => rfl
  | cons c cs ih => rw [List.foldr_cons, ih]; rfl

theorem cutWords_space (cs : List Char) : cutWords false (' ' :: cs) = [] :: cutWords false cs := by
  simp [cutWords]

theorem cutWords_quote (inside : Bool) (cs : List Char) :
    cutWords inside ('"' :: cs) = pushFirst '"' (cutWords (!inside) cs) := by
  cases inside <;> simp [cutWords]

theorem cutWords_escaped (cs : List Char) :
    cutWords true ('\\' :: '"' :: cs) = pushFirst '\\' (pushFirst '"' (cutWords true cs)) := by
  simp [cutWords]

/-- Any other character is part of its word. -/
theorem cutWords_cons {inside : Bool} {c : Char} {cs : List Char} (hquote : c ≠ '"')
    (hspace : inside = false → c ≠ ' ')
    (hescape : inside = true → c = '\\' → cs.head? ≠ some '"') :
    cutWords inside (c :: cs) = pushFirst c (cutWords inside cs) := by
  have hnot : ¬ (c = ' ' ∧ inside = false) := fun h => hspace h.2 h.1
  rw [cutWords, if_neg hnot, if_neg hquote]
  intro rest hinside hc hcs
  exact hescape hinside hc (by rw [hcs]; rfl)

/-- The characters stay one word, whatever follows them. -/
def IsWord (cs : List Char) : Prop :=
  ∀ rest, cutWords false (cs ++ rest) = cs.foldr pushFirst (cutWords false rest)

theorem cutWords_word {cs : List Char} (h : IsWord cs) : cutWords false cs = [cs] := by
  have hcut := h []
  rw [List.append_nil] at hcut
  rw [hcut, show cutWords false [] = [[]] from rfl, foldr_pushFirst, List.append_nil]

theorem cutWords_word_space {cs : List Char} (h : IsWord cs) (rest : List Char) :
    cutWords false (cs ++ ' ' :: rest) = cs :: cutWords false rest := by
  rw [h, cutWords_space, foldr_pushFirst, List.append_nil]

/-- Words with spaces between are cut apart again. -/
theorem cutWords_intercalate {ws : List (List Char)} (hne : ws ≠ []) (hws : ∀ w ∈ ws, IsWord w) :
    cutWords false ([' '].intercalate ws) = ws := by
  induction ws with
  | nil => exact absurd rfl hne
  | cons w ws ih =>
    obtain ⟨hw, hothers⟩ := List.forall_mem_cons.mp hws
    by_cases hlast : ws = []
    · rw [hlast, List.intercalate_singleton]
      exact cutWords_word hw
    · rw [List.intercalate_cons_of_ne_nil hlast, List.append_assoc, List.singleton_append,
        cutWords_word_space hw, ih hlast hothers]

/-! ## Section 2: Legible operands -/

/-- Without spaces, quotes and line breaks. -/
def isBare (cs : List Char) : Bool :=
  !cs.isEmpty && cs.all fun c => c != ' ' && c != '"' && c != '\n'

/-- An operand that can be found again in a listing. -/
structure Legible (cs : List Char) : Prop where
  nonempty : cs ≠ []
  line : '\n' ∉ cs
  word : IsWord cs

theorem isBare_iff {cs : List Char} :
    isBare cs = true ↔ cs ≠ [] ∧ ∀ c ∈ cs, c ≠ ' ' ∧ c ≠ '"' ∧ c ≠ '\n' := by
  simp [isBare, and_assoc]

theorem legible_of_isBare {cs : List Char} (h : isBare cs = true) : Legible cs := by
  obtain ⟨hne, hchars⟩ := isBare_iff.mp h
  refine ⟨hne, fun hmem => (hchars _ hmem).2.2 rfl, ?_⟩
  intro rest
  clear hne h
  induction cs with
  | nil => rfl
  | cons c cs ih =>
    obtain ⟨⟨hspace, hquote, _⟩, hothers⟩ := List.forall_mem_cons.mp hchars
    rw [List.cons_append, cutWords_cons hquote (fun _ => hspace) (by simp), ih hothers]
    rfl

/-- A text that is written between quotes goes on to the second one. -/
theorem cutWords_escape {cs : List Char} (h : cs.getLast? ≠ some '\\') (rest : List Char) :
    cutWords true (escape cs ++ '"' :: rest) =
      (escape cs ++ ['"']).foldr pushFirst (cutWords false rest) := by
  induction cs with
  | nil => exact cutWords_quote true rest
  | cons c cs ih =>
    have hlast : cs.getLast? ≠ some '\\' := by
      intro hcs
      apply h
      rw [List.getLast?_cons, hcs]
      rfl
    by_cases hquote : c = '"'
    · rw [hquote, escape_quote, List.cons_append, List.cons_append, cutWords_escaped, ih hlast]
      rfl
    · rw [escape_cons_of_ne hquote, List.cons_append, cutWords_cons hquote (by simp), ih hlast]
      · rfl
      · -- what follows a backslash is a character of the text, and no bare quote
        intro _ hc hhead
        cases cs with
        | nil => exact h (by rw [hc]; rfl)
        | cons c' cs =>
          by_cases hquote' : c' = '"'
          · rw [hquote', escape_quote] at hhead
            exact absurd hhead (by simp)
          · rw [escape_cons_of_ne hquote'] at hhead
            exact hquote' (by simpa using hhead)

theorem not_mem_escape {cs : List Char} (h : '\n' ∉ cs) : '\n' ∉ escape cs := by
  induction cs with
  | nil => exact List.not_mem_nil
  | cons c cs ih =>
    simp only [List.mem_cons, not_or] at h
    by_cases hquote : c = '"' <;> simp [escape, hquote, h.1, ih h.2]

theorem legible_quoted {text : String} (h : isQuotable text.toList = true) :
    Legible (quoted text).toList := by
  obtain ⟨hline, hlast⟩ := isQuotable_iff.mp h
  rw [quoted, String.toList_ofList]
  refine ⟨by simp, ?_, ?_⟩
  · simp [not_mem_escape hline]
  · intro rest
    rw [List.cons_append, List.cons_append, List.append_assoc, List.singleton_append,
      cutWords_quote]
    show pushFirst '"' (cutWords true _) = _
    rw [cutWords_escape hlast]
    rfl

end Text

/-! ## Section 3: Lines of a listing -/

open Text

theorem not_mem_intercalate {c sep : Char} {ws : List (List Char)} (hsep : c ≠ sep)
    (hws : ∀ w ∈ ws, c ∉ w) : c ∉ [sep].intercalate ws := by
  induction ws with
  | nil => simp
  | cons w ws ih =>
    obtain ⟨hw, hothers⟩ := List.forall_mem_cons.mp hws
    by_cases hlast : ws = []
    · simpa [hlast] using hw
    · rw [List.intercalate_cons_of_ne_nil hlast]
      simp [hw, hsep, ih hothers]

/-- An instruction whose operands can be found again in its line. -/
def Instruction.Legible (i : Instruction) : Prop := ∀ x ∈ i.operands, Text.Legible x.toList

theorem legible_keyword (o : Opcode) : Text.Legible o.keyword.toList := by
  apply legible_of_isBare
  cases o <;> decide

namespace Instruction

theorem toList_text (i : Instruction) :
    i.text.toList = [' '].intercalate ((i.opcode.keyword :: i.operands).map String.toList) := by
  simp [text]

/-- The keyword and the operands are the words of the line. -/
theorem words_text {i : Instruction} (h : i.Legible) :
    words i.text = i.opcode.keyword :: i.operands := by
  have hlegible : ∀ w ∈ (i.opcode.keyword :: i.operands).map String.toList, IsWord w := by
    intro w hw
    obtain ⟨x, hx, rfl⟩ := List.mem_map.mp hw
    rcases List.mem_cons.mp hx with rfl | hx
    · exact (legible_keyword i.opcode).word
    · exact (h x hx).word
  rw [words, i.toList_text, cutWords_intercalate (by simp) hlegible]
  simp [Function.comp_def]

theorem not_mem_text {i : Instruction} (h : i.Legible) : '\n' ∉ i.text.toList := by
  have hlegible : ∀ w ∈ (i.opcode.keyword :: i.operands).map String.toList, '\n' ∉ w := by
    intro w hw
    obtain ⟨x, hx, rfl⟩ := List.mem_map.mp hw
    rcases List.mem_cons.mp hx with rfl | hx
    · exact (legible_keyword i.opcode).line
    · exact (h x hx).line
  rw [i.toList_text]
  exact not_mem_intercalate (by decide) hlegible

/-- Instructions with the same words are the same. -/
theorem eq_of_words {i j : Instruction}
    (h : i.opcode.keyword :: i.operands = j.opcode.keyword :: j.operands) : i = j := by
  obtain ⟨hkeyword, hoperands⟩ := List.cons.inj h
  have hopcode : i.opcode = j.opcode := by
    have hfound := Opcode.ofKeyword?_keyword i.opcode
    rw [hkeyword, Opcode.ofKeyword?_keyword] at hfound
    exact (Option.some.inj hfound).symm
  cases i
  cases j
  simp_all

end Instruction

theorem toList_listing_cons (i : Instruction) (program : List Instruction) :
    (listing (i :: program)).toList = i.text.toList ++ '\n' :: (listing program).toList := by
  simp [listing]

theorem lines_listing {program : List Instruction} (h : ∀ i ∈ program, i.Legible) :
    lines (listing program) = program.map Instruction.text ++ [""] := by
  induction program with
  | nil => rfl
  | cons i program ih =>
    obtain ⟨hi, hothers⟩ := List.forall_mem_cons.mp h
    have hlines := ih hothers
    unfold lines at hlines ⊢
    rw [toList_listing_cons,
      List.splitOn_append_cons_self_of_not_mem (Instruction.not_mem_text hi), List.map_cons, hlines,
      List.map_cons, String.ofList_toList, List.cons_append]

theorem map_words_text {program : List Instruction} (h : ∀ i ∈ program, i.Legible) :
    (program.map Instruction.text).map words =
      program.map fun i => i.opcode.keyword :: i.operands := by
  rw [List.map_map]
  exact List.map_congr_left fun i hi => Instruction.words_text (h i hi)

theorem count_listing {program : List Instruction} (h : ∀ i ∈ program, i.Legible) :
    (listing program).toList.count '\n' = program.length := by
  induction program with
  | nil => rfl
  | cons i program ih =>
    obtain ⟨hi, hothers⟩ := List.forall_mem_cons.mp h
    have hline := List.count_eq_zero.mpr (Instruction.not_mem_text hi)
    rw [toList_listing_cons, List.count_append, hline, List.count_cons_self, ih hothers,
      List.length_cons, Nat.zero_add]

/-- Programs with legible operands can be told apart by their listings. -/
theorem listing_inj {p q : List Instruction} (hp : ∀ i ∈ p, i.Legible) (hq : ∀ i ∈ q, i.Legible)
    (h : listing p = listing q) : p = q := by
  -- first the lines are found again, then the words of each line
  have hlines : p.map Instruction.text = q.map Instruction.text := by
    have hlines := congrArg lines h
    rw [lines_listing hp, lines_listing hq] at hlines
    exact List.append_cancel_right hlines
  have hwords : p.map (fun i => i.opcode.keyword :: i.operands) =
      q.map fun i => i.opcode.keyword :: i.operands := by
    have hcut := congrArg (List.map words) hlines
    rwa [map_words_text hp, map_words_text hq] at hcut
  exact (List.map_inj_right fun i j => Instruction.eq_of_words).mp hwords

/-! ## Section 4: Programs of source texts -/

/-- Characters of a class without spaces, quotes and line breaks. -/
theorem isBare_of_forall {p : Char → Bool} {cs : List Char}
    (hp : p ' ' = false ∧ p '"' = false ∧ p '\n' = false) (hne : cs ≠ [])
    (hcs : ∀ c ∈ cs, p c = true) : isBare cs = true := by
  obtain ⟨hspace, hquote, hbreak⟩ := hp
  refine isBare_iff.mpr ⟨hne, ?_⟩
  intro c hc
  have hchar := hcs c hc
  refine ⟨?_, ?_, ?_⟩ <;> (intro heq; rw [heq] at hchar; simp_all)

theorem isBare_of_isName {name : String} (h : isName name = true) : isBare name.toList = true := by
  obtain ⟨c, cs, hs, hstart, hchars, _⟩ := isName_cases h
  rw [hs]
  apply isBare_of_forall (p := isNameChar) (by decide) (by simp)
  refine List.forall_mem_cons.mpr ⟨?_, hchars⟩
  simp only [isNameStart, isNameChar, Char.isAlphanum, Bool.or_eq_true] at hstart ⊢
  exact hstart.imp .inl id

theorem isBare_signed {name : String} (h : isName name = true) :
    isBare ("@" ++ name).toList = true := by
  have hname := isBare_of_isName h
  simp_all [isBare]

theorem isBare_of_isReference {name : String} (h : isReference name = true) :
    isBare name.toList = true := by
  rcases Bool.or_eq_true_iff.mp h with hname | hsigned
  · exact isBare_of_isName hname
  · obtain ⟨name, rfl, hname⟩ := isSigned_cases hsigned
    exact isBare_signed hname

/-- The characters that numbers are written with. -/
def isNumberChar (c : Char) : Bool := c.isDigit || c == '.' || c == '-'

theorem isNumberChar_of_isDigits {cs : List Char} (h : isDigits cs = true) :
    ∀ c ∈ cs, isNumberChar c = true := by
  intro c hc
  simp only [isDigits, Bool.and_eq_true, List.all_eq_true] at h
  simp [isNumberChar, h.2 c hc]

theorem isNumberChar_of_isNumeral {cs : List Char} (h : isNumeral cs = true) :
    ∀ c ∈ cs, isNumberChar c = true := by
  rcases isNumeral_cases h with hdigits | ⟨whole, fraction, rfl, hwhole, hfraction⟩
  · exact isNumberChar_of_isDigits hdigits
  · rw [List.forall_mem_append, List.forall_mem_cons]
    exact ⟨isNumberChar_of_isDigits hwhole, by decide, isNumberChar_of_isDigits hfraction⟩

theorem isBare_of_isNumber {literal : String} (h : isNumber literal = true) :
    isBare literal.toList = true := by
  have hnone : isNumeral [] = false := by decide
  -- with a sign before the digits, or without
  rcases isNumber_cases h with ⟨cs, hs, hcs⟩ | hcs
  · rw [hs]
    apply isBare_of_forall (p := isNumberChar) (by decide) (by simp)
    exact List.forall_mem_cons.mpr ⟨by decide, isNumberChar_of_isNumeral hcs⟩
  · apply isBare_of_forall (p := isNumberChar) (by decide) _ (isNumberChar_of_isNumeral hcs)
    intro hnil
    rw [hnil, hnone] at hcs
    exact absurd hcs (by decide)

/-- A word with a number behind it, as temporary variables and labels are named. -/
theorem isBare_numbered {word : String} (h : isBare word.toList = true) (k : Nat) :
    isBare (word ++ toString k).toList = true := by
  have hdigits : isBare (toString k).toList = true := by
    refine isBare_of_forall (p := Char.isDigit) (by decide) (by simp [Nat.toDigits_ne_nil]) ?_
    intro c hc
    rw [Nat.toString_eq_ofList_toDigits, String.toList_ofList] at hc
    exact Nat.isDigit_of_mem_toDigits (by decide) (by decide) hc
  rw [isBare_iff] at h hdigits ⊢
  rw [String.toList_append]
  exact ⟨by simp [h.1], List.forall_mem_append.mpr ⟨h.2, hdigits.2⟩⟩

theorem isBare_codeWords : ∀ x ∈ codeWords, isBare x.toList = true := by decide

/-- The operands that a node of a source text spells are legible, if its text
    can be put between quotes. -/
theorem Shaped.legible_spelled {site : Site} {e : Expr} (h : Shaped site e)
    (htext : ∀ text ∈ e.ownText, isQuotable text.toList = true) :
    ∀ x ∈ e.spelled, Text.Legible x.toList := by
  induction h with
  | expression _ ih | one _ ih | first _ ih => exact ih htext
  | num hliteral =>
    intro x hx
    rw [List.mem_singleton.mp hx]
    exact legible_of_isBare (isBare_of_isNumber hliteral)
  -- a text is the only operand that may have blanks, and it is put between quotes
  | @str text _ =>
    intro x hx
    rw [List.mem_singleton.mp hx]
    exact legible_quoted (htext text List.mem_cons_self)
  | var hname | assign hname | load hname | store hname =>
    intro x hx
    rw [List.mem_singleton.mp hx]
    exact legible_of_isBare (isBare_of_isName hname)
  | builtin hname | assignBuiltin hname =>
    intro x hx
    rw [List.mem_singleton.mp hx]
    exact legible_of_isBare (isBare_signed hname)
  | control hproperty htarget =>
    intro x hx
    simp only [Expr.spelled, List.mem_cons, List.not_mem_nil, or_false] at hx
    rcases hx with rfl | rfl
    · exact legible_of_isBare (isBare_of_isName hproperty)
    · exact legible_of_isBare (isBare_of_isReference htarget)
  | sensor htarget hproperty =>
    intro x hx
    simp only [Expr.spelled, List.mem_cons, List.not_mem_nil, or_false] at hx
    rcases hx with rfl | rfl
    · exact legible_of_isBare (isBare_of_isReference htarget)
    · exact legible_of_isBare (isBare_of_isReference (by simp [isReference, hproperty]))
  -- the other nodes spell nothing themselves
  | _ => exact fun x hx => absurd hx List.not_mem_nil

theorem Shaped.within {site : Site} {node e : Expr} (h : Shaped site e) (hnode : node.Within e) :
    ∃ site', Shaped site' node := by
  induction hnode generalizing site with
  | refl => exact ⟨site, h⟩
  | part hpart _ ih =>
    obtain ⟨site', hpart, _⟩ := h.part hpart
    exact ih hpart

/-- All code of a shaped tree is legible, if its texts can be put between
    quotes. -/
theorem Lowers.legible {e : Expr} {n n' : Names} {f : Fragment} {site : Site}
    (h : Lowers e n f n') (hshaped : Shaped site e)
    (htexts : ∀ text ∈ e.texts, isQuotable text.toList = true) : ∀ i ∈ f.code, i.Legible := by
  intro i hi x hx
  cases h.origin.1 i hi x hx with
  | @spelled node _ hnode hmem =>
    obtain ⟨site', hshaped'⟩ := hshaped.within hnode
    apply hshaped'.legible_spelled _ x hmem
    intro text htext
    exact htexts text (List.mem_flatMap.mpr ⟨node, Expr.mem_nodes.mpr hnode, htext⟩)
  | temp => exact legible_of_isBare (isBare_numbered (by decide) _)
  | label => exact legible_of_isBare (isBare_numbered (by decide) _)
  | word hmem => exact legible_of_isBare (isBare_codeWords x hmem)

/-- The tree of a source text without its comments has the same code. -/
theorem exists_bare {source : String} {e : Expr} (h : parseSource source = .ok e) :
    ∃ bare, parse (lex source).tokens [] = .ok bare ∧
      Lowering.SameRuns (lower e) (lower bare) := by
  have hagree := parse_agree (lex source).tokens (lex source).comments
  rw [parse_of_parseSource h] at hagree
  generalize parse (lex source).tokens [] = result at hagree
  cases hagree with
  | @trees _ bare halike => exact ⟨bare, rfl, halike.commented.codesAgree⟩

/-- The instructions of a source text are those of its tree without the comments,
    and maybe an `end`. -/
theorem lowers_of_compile {emitEnd : Bool} {source : String} {program : List Instruction}
    (h : compileToInstructions emitEnd source = .ok program) :
    ∃ bare f n', parse (lex source).tokens [] = .ok bare ∧ Lowers bare .none f n' ∧
      program = f.code ++ if emitEnd then [.end_] else [] := by
  obtain ⟨e, f, n', hparse, hlowers, rfl⟩ := lowers_of_compileToInstructions h
  -- strings are traced back to tokens in trees without comments only
  obtain ⟨bare, hbare, hruns⟩ := exists_bare hparse
  exact ⟨bare, f, n', hbare, lowers_of_run ((hruns _ _ _).mp (run_of_lowers hlowers)), rfl⟩

/-- The instructions of a source text are legible. -/
theorem legible_of_compile {emitEnd : Bool} {source : String} {program : List Instruction}
    (h : compileToInstructions emitEnd source = .ok program) : ∀ i ∈ program, i.Legible := by
  obtain ⟨bare, f, n', hparse, hlowers, rfl⟩ := lowers_of_compile h
  have hshaped : Shaped .block bare := by
    obtain ⟨hnone, rfl⟩ := parse_eq_ok_iff.mp hparse
    have hclean : (ParseState.start (lex source).tokens []).Clean :=
      ParseState.clean_start [] fun _ => spelled_of_mem_lex
    have hgives := Grammar.gives_statements (Grammar.shapedInner_level nestingLimit) .eof
    exact (hgives.ensures _ hclean hnone).2
  have hcode := hlowers.legible hshaped (quotable_of_parse hparse)
  intro i hi
  rcases List.mem_append.mp hi with hi | hi
  · exact hcode i hi
  · -- the `end` has no operands
    split at hi
    · rw [List.mem_singleton.mp hi]
      exact fun x hx => absurd hx List.not_mem_nil
    · exact absurd hi List.not_mem_nil

/-- The listing of a source text loses nothing.  No operand is empty or has a
    line break in it; the listing has one line break for each instruction; the
    words of each line are the keyword and the operands of its instruction.  So
    source texts with different instructions have different listings. -/
theorem listing_lossless {emitEnd : Bool} {source : String} {program : List Instruction}
    (h : compileToInstructions emitEnd source = .ok program) :
    (∀ i ∈ program, ∀ x ∈ i.operands, x ≠ "" ∧ '\n' ∉ x.toList) ∧
    (∃ text lines, compile emitEnd source = .ok text ∧
      text.toList.count '\n' = program.length ∧ Text.lines text = lines ++ [""] ∧
      lines.map words = program.map fun i => i.opcode.keyword :: i.operands) ∧
    ∀ emitEnd' source' program', compileToInstructions emitEnd' source' = .ok program' →
      program' ≠ program → compile emitEnd' source' ≠ compile emitEnd source := by
  have hlegible := legible_of_compile h
  have hcompile : ∀ {emitEnd source program}, compileToInstructions emitEnd source = .ok program →
      compile emitEnd source = .ok (listing program) := by
    intro emitEnd source program h
    rw [compile, h]
    rfl
  refine ⟨?_, ⟨listing program, program.map Instruction.text, hcompile h, count_listing hlegible,
    lines_listing hlegible, map_words_text hlegible⟩, ?_⟩
  · intro i hi x hx
    obtain ⟨hne, hline, _⟩ := hlegible i hi x hx
    exact ⟨fun hempty => hne (by rw [hempty]; rfl), hline⟩
  · intro emitEnd' source' program' h' hne heq
    rw [hcompile h, hcompile h'] at heq
    exact hne (listing_inj (legible_of_compile h') hlegible (Except.ok.inj heq))

/-- A text with spaces, a backslash and quotes in it is printed. -/
def quotingSource : String := "print(\"say \\\"no\\\" \\ \"); x = -1.5 // done"

def quotingProgram : List Instruction :=
  [.set "tmp0" "\"say \\\"no\\\" \\ \"", .print "tmp0", .set "tmp1" "-1.5", .set "x" "tmp1"]

theorem listing_quotingSource :
    compileToInstructions false quotingSource = .ok quotingProgram ∧
    (∃ text lines, compile false quotingSource = .ok text ∧
      text.toList.count '\n' = quotingProgram.length ∧ Text.lines text = lines ++ [""] ∧
      lines.map words = quotingProgram.map fun i => i.opcode.keyword :: i.operands) ∧
    compileToInstructions true "x = 1" =
      .ok [.set "tmp0" "1", .set "x" "tmp0", .end_] ∧
    compile true "x = 1" ≠ compile false quotingSource := by
  have hquoting : compileToInstructions false quotingSource = .ok quotingProgram := by
    decide +kernel
  have hother : compileToInstructions true "x = 1" =
      .ok [.set "tmp0" "1", .set "x" "tmp0", .end_] := by
    decide +kernel
  obtain ⟨_, hlines, hdiffer⟩ := listing_lossless hquoting
  exact ⟨hquoting, hlines, hother, hdiffer _ _ _ hother (by decide)⟩

end Mlog
