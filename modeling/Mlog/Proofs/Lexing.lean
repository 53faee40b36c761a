import Mlog.Proofs.Printable
import Mlog.Token.Lexed

/-! # The text of a printable tree and its tokens

    The text of a printable tree is cut into the tokens of the tree and
    blanks between them.

    All rules are stated for a text that goes on: what follows must not be
    something that the token would swallow, and is cut into tokens of its
    own. -/

namespace Mlog

/-! ## Section 1: Texts of tokens and blanks -/

/-- What a text is cut into, without the blanks. -/
def kindsOf (cs : List Char) : List Piece.Kind :=
  ((cut cs).map Piece.kind).filter (· ≠ .blank)

/-- The text is cut into these tokens, and blanks between them. -/
def Cuts (cs : List Char) (ts : List Token) : Prop := kindsOf cs = ts.map .token

/-- The text is read as the token, if the given rest follows it. -/
def ReadAs (cs : List Char) (t : Token) (rest : List Char) : Prop :=
  ∃ c tail text, cs = c :: tail ∧ firstPiece c (tail ++ rest) = (⟨text, .token t⟩, rest)

/-- The characters that make a name or a number longer. -/
def isWordChar (c : Char) : Bool := isNameChar c || c == '.'

/-- The characters that make a symbol longer, or make a comment of it. -/
def isSignChar (c : Char) : Bool := c == '=' || c == '*' || c == '&' || c == '|' || c == '/'

/-- What follows does not start with a character of a class. -/
def Ends (p : Char → Bool) (rest : List Char) : Prop := ∀ c ∈ rest.head?, p c = false

theorem ends_cons {p : Char → Bool} {c : Char} {cs : List Char} (h : p c = false) :
    Ends p (c :: cs) := by
  simpa [Ends] using h

theorem Ends.name {rest : List Char} (h : Ends isWordChar rest) : Ends isNameChar rest :=
  fun c hc => (Bool.or_eq_false_iff.mp (h c hc)).1

@[simp] theorem kindsOf_nil : kindsOf [] = [] := by simp [kindsOf]

/-- One piece that is not blank, and the rest of the text. -/
theorem kindsOf_cons {c : Char} {cs rest text : List Char} {kind : Piece.Kind}
    (h : firstPiece c cs = (⟨text, kind⟩, rest)) (hkind : kind ≠ .blank) :
    kindsOf (c :: cs) = kind :: kindsOf rest := by
  rw [kindsOf, cut_cons, h, List.map_cons, List.filter_cons_of_pos (by simpa using hkind), kindsOf]

/-- A blank is passed, together with all blanks after it. -/
theorem kindsOf_blank {c : Char} (hc : isBlank c = true) (cs : List Char) :
    kindsOf (c :: cs) = kindsOf cs := by
  have hpiece : ∀ {c : Char} {cs : List Char}, isBlank c = true →
      firstPiece c cs = (⟨c :: cs.takeWhile isBlank, .blank⟩, cs.dropWhile isBlank) := by
    intro c cs hc
    simp [firstPiece, hc, splitRun]
  have hrun : ∀ {c : Char} {cs : List Char}, isBlank c = true →
      kindsOf (c :: cs) = kindsOf (cs.dropWhile isBlank) := by
    intro c cs hc
    rw [kindsOf, cut_cons, hpiece hc, List.map_cons, List.filter_cons_of_neg (by simp), kindsOf]
  rw [hrun hc]
  -- the same run of blanks, whether it starts here or one character later
  cases cs with
  | nil => rfl
  | cons d ds =>
    cases hd : isBlank d with
    | false => simp [hd]
    | true => rw [hrun hd, List.dropWhile_cons, if_pos hd]

theorem ReadAs.kindsOf_eq {cs rest : List Char} {t : Token} (h : ReadAs cs t rest) :
    kindsOf (cs ++ rest) = .token t :: kindsOf rest := by
  obtain ⟨c, tail, text, rfl, hpiece⟩ := h
  exact kindsOf_cons hpiece (by simp)

theorem ReadAs.cuts {cs rest : List Char} {t : Token} {ts : List Token} (h : ReadAs cs t rest)
    (hrest : Cuts rest ts) : Cuts (cs ++ rest) (t :: ts) := by
  rw [Cuts, h.kindsOf_eq, hrest, List.map_cons]

/-! ## Section 2: Names, numbers and strings -/

section

variable {cs rest : List Char}

theorem splitRun_of_run {p : Char → Bool} (hrun : ∀ c ∈ cs, p c = true) (hrest : Ends p rest) :
    splitRun p (cs ++ rest) = (cs, rest) := by
  have hstop : rest.takeWhile p = [] ∧ rest.dropWhile p = rest := by
    cases rest with
    | nil => exact ⟨rfl, rfl⟩
    | cons c rest =>
      have hc := hrest c rfl
      simp [hc]
  rw [splitRun, List.takeWhile_append_of_pos hrun, List.dropWhile_append_of_pos hrun, hstop.1,
    hstop.2, List.append_nil]

theorem isBlank_eq_false {p : Char → Bool} {c : Char} (hc : p c = true)
    (hblanks : [' ', '\t', '\n', '\x0c', '\r'].any p = false) : isBlank c = false := by
  cases hblank : isBlank c with
  | false => rfl
  | true =>
    have hmem : c ∈ [' ', '\t', '\n', '\x0c', '\r'] := by
      simpa [isBlank, or_assoc] using hblank
    exact absurd (List.any_eq_true.mpr ⟨c, hmem, hc⟩) (by rw [hblanks]; exact Bool.false_ne_true)

theorem readAs_name {c : Char} (hstart : isNameStart c = true)
    (hrun : ∀ d ∈ cs, isNameChar d = true) (hrest : Ends isNameChar rest) :
    ReadAs (c :: cs) (nameToken (String.ofList (c :: cs))) rest := by
  have hblank := isBlank_eq_false hstart rfl
  have hslash : c ≠ '/' := by
    rintro rfl
    exact absurd hstart (by decide)
  refine ⟨c, cs, c :: cs, rfl, ?_⟩
  rw [firstPiece]
  simp [hblank, hslash, hstart, splitRun_of_run hrun hrest]

theorem readAs_ident {s : String} (hname : Text.isName s = true) (hrest : Ends isNameChar rest) :
    ReadAs s.toList (.ident s) rest := by
  obtain ⟨c, cs, hs, hstart, hrun, htoken⟩ := Text.isName_cases hname
  rw [hs, ← htoken, ← String.ofList_toList (s := s), hs]
  exact readAs_name hstart hrun hrest

theorem readAs_keyword (k : Keyword) (hrest : Ends isNameChar rest) :
    ReadAs k.spelling.toList (.keyword k) rest := by
  obtain ⟨c, cs, hs, hstart, hrun⟩ : ∃ c cs, k.spelling.toList = c :: cs ∧
      isNameStart c = true ∧ ∀ d ∈ cs, isNameChar d = true := by
    cases k <;> exact ⟨_, _, rfl, rfl, List.all_eq_true.mp rfl⟩
  have htoken : nameToken (String.ofList (c :: cs)) = .keyword k := by
    rw [← hs, String.ofList_toList, nameToken, Keyword.ofSpelling?_spelling]
  rw [hs, ← htoken]
  exact readAs_name hstart hrun hrest

theorem isNameStart_eq_false_of_isDigit {c : Char} (h : c.isDigit = true) :
    isNameStart c = false := by
  have hrange : 48 ≤ c.val ∧ c.val ≤ 57 := by simpa [Char.isDigit] using h
  have hunderscore : c ≠ '_' := by
    rintro rfl
    exact absurd h (by decide)
  -- neither a capital letter nor a small one, nor an underscore
  show (decide (c.val ≥ 65 ∧ c.val ≤ 90) || (decide (c.val ≥ 97) && decide (c.val ≤ 122)) ||
    c == '_') = false
  grind

theorem isDigit_eq_false_of_isNameChar {c : Char} (h : isNameChar c = false) :
    c.isDigit = false := by
  simp only [isNameChar, Char.isAlphanum, Bool.or_eq_false_iff] at h
  exact h.1.2

/-- A numeral is split off as a whole, with its fraction. -/
theorem splitNumber_of_isNumeral (hnumeral : Text.isNumeral cs = true)
    (hrest : Ends isWordChar rest) : splitNumber (cs ++ rest) = (cs, rest) := by
  have hdigit : Ends Char.isDigit rest :=
    fun c hc => isDigit_eq_false_of_isNameChar (hrest.name c hc)
  rcases Text.isNumeral_cases hnumeral with hdigits | ⟨whole, fraction, rfl, hwhole, hfraction⟩
  · have hrun : ∀ c ∈ cs, c.isDigit = true := by
      simp only [Text.isDigits, Bool.and_eq_true, List.all_eq_true] at hdigits
      exact hdigits.2
    simp only [splitNumber, splitRun_of_run hrun hdigit]
    split
    · -- no point follows
      exact absurd (hrest _ rfl) (by decide)
    · rfl
  · have hrun : ∀ c ∈ whole, c.isDigit = true := by
      simp only [Text.isDigits, Bool.and_eq_true, List.all_eq_true] at hwhole
      exact hwhole.2
    cases fraction with
    | nil => exact absurd hfraction (by decide)
    | cons d ds =>
      obtain ⟨hd, hds⟩ := Text.isDigits_cons.mp hfraction
      have hpoint : splitRun Char.isDigit (whole ++ '.' :: d :: (ds ++ rest)) =
          (whole, '.' :: d :: (ds ++ rest)) :=
        splitRun_of_run hrun (ends_cons rfl)
      simp only [splitNumber, List.append_assoc, List.cons_append, hpoint, hd, if_true,
        splitRun_of_run hds hdigit]

theorem readAs_number (hnumeral : Text.isNumeral cs = true) (hrest : Ends isWordChar rest) :
    ReadAs cs (.number (String.ofList cs)) rest := by
  have hsplit := splitNumber_of_isNumeral hnumeral hrest
  cases cs with
  | nil => exact absurd hnumeral (by decide)
  | cons c cs =>
    have hc := Text.isDigit_of_isNumeral hnumeral
    have hblank := isBlank_eq_false hc rfl
    have hslash : c ≠ '/' := by
      rintro rfl
      exact absurd hc (by decide)
    rw [List.cons_append] at hsplit
    refine ⟨c, cs, c :: cs, rfl, ?_⟩
    rw [firstPiece]
    simp [hblank, hslash, isNameStart_eq_false_of_isDigit hc, hc, hsplit]

/-- The inside of a literal goes up to the first quote that is not escaped. -/
theorem splitString_escape (hline : '\n' ∉ cs) (hlast : cs.getLast? ≠ some '\\') :
    splitString (Text.escape cs ++ '"' :: rest) = (Text.escape cs, '"' :: rest) := by
  induction cs with
  | nil => simp [splitString]
  | cons c cs ih =>
    obtain ⟨hc, hline'⟩ := not_or.mp (mt List.mem_cons.mpr hline)
    have hsplit := ih hline' (by cases cs <;> simp_all)
    by_cases hquote : c = '"'
    · subst hquote
      simp [splitString, hsplit]
    · rw [Text.escape_cons_of_ne hquote, List.cons_append, splitString]
      · simp [hsplit, hquote, Ne.symm hc]
      · -- a backslash is not the last character of the text, and a quote has one before it
        rintro after rfl hafter
        cases cs with
        | nil => exact hlast rfl
        | cons d ds =>
          cases hescape : Text.escape (d :: ds) with
          | nil => by_cases hd : d = '"' <;> simp [Text.escape, hd] at hescape
          | cons e es =>
            rw [hescape, List.cons_append] at hafter
            obtain ⟨rfl, _⟩ := List.cons.inj hafter
            exact Text.escape_ne_quote_cons _ _ hescape

theorem readAs_quoted {s : String} (hline : '\n' ∉ s.toList)
    (hlast : s.toList.getLast? ≠ some '\\') : ReadAs (Text.quoted s).toList (.str s) rest := by
  refine ⟨'"', Text.escape s.toList ++ ['"'], '"' :: Text.escape s.toList ++ ['"'],
    by simp [Text.quoted], ?_⟩
  have hfirst : ∀ cs, firstPiece '"' cs = stringPiece cs := fun _ => rfl
  rw [hfirst, stringPiece, List.append_assoc, List.singleton_append, splitString_escape hline hlast]
  simp

theorem escape_of_plain (hquote : '"' ∉ cs) : Text.escape cs = cs := by
  induction cs with
  | nil => rfl
  | cons c cs ih =>
    obtain ⟨hc, hquote⟩ := not_or.mp (mt List.mem_cons.mpr hquote)
    rw [Text.escape_cons_of_ne (Ne.symm hc), ih hquote]

end

/-! ## Section 3: Symbols -/

section

variable {rest : List Char}

/-- Nothing else starts with this symbol, neither a symbol nor a comment. -/
def isAlone (s : Symbol) : Bool :=
  s != .slash && Symbol.all.all fun t => t == s || !s.chars.isPrefixOf t.chars

/-- What follows a symbol makes no longer one of it. -/
theorem chars_prefix_append {s t : Symbol} (h : isAlone s = true ∨ Ends isSignChar rest)
    (ht : t.chars <+: s.chars ++ rest) : t.chars <+: s.chars := by
  rcases List.prefix_or_prefix_of_prefix ht (List.prefix_append s.chars rest) with hle | hle
  · exact hle
  · -- else `t` is `s` and some of what follows
    obtain ⟨more, hmore⟩ := hle
    cases more with
    | nil =>
      simp [← hmore]
    | cons c more =>
      exfalso
      rcases h with halone | hends
      · have hall : ∀ t ∈ Symbol.all, t = s ∨ s.chars.isPrefixOf t.chars = false := by
          simpa [isAlone] using (Bool.and_eq_true_iff.mp halone).2
        rcases hall t (Symbol.mem_all t) with rfl | hnot
        · simp at hmore
        · exact absurd (List.isPrefixOf_iff_prefix.mpr ⟨_, hmore⟩) (by simp [hnot])
      · have hsigns : Symbol.all.all (·.chars.tail.all isSignChar) = true := rfl
        have htail : c ∈ t.chars.tail := by
          obtain ⟨d, ds, hs⟩ := List.exists_cons_of_ne_nil s.chars_ne_nil
          simp [← hmore, hs]
        have hhead : c ∈ rest.head? := by
          rw [← hmore, List.prefix_append_right_inj] at ht
          obtain ⟨others, rfl⟩ := ht
          rfl
        have hsign := List.all_eq_true.mp (List.all_eq_true.mp hsigns t (Symbol.mem_all t)) c htail
        exact absurd hsign (by simp [hends c hhead])

theorem longest?_append {s : Symbol} (h : isAlone s = true ∨ Ends isSignChar rest) :
    Symbol.longest? (s.chars ++ rest) = some s := by
  have hsame : ∀ t : Symbol, t.chars.isPrefixOf (s.chars ++ rest) = t.chars.isPrefixOf s.chars := by
    intro t
    rw [Bool.eq_iff_iff, List.isPrefixOf_iff_prefix, List.isPrefixOf_iff_prefix]
    exact ⟨chars_prefix_append h, fun ht => ht.trans (List.prefix_append _ _)⟩
  rw [Symbol.longest?, funext hsame]
  exact Symbol.longest?_chars s

theorem readAs_symbol (s : Symbol) (hrest : isAlone s = true ∨ Ends isSignChar rest) :
    ReadAs s.chars (.symbol s) rest := by
  obtain ⟨c, cs, hs, hblank, hstart, hdigit, hquote⟩ : ∃ c cs, s.chars = c :: cs ∧
      isBlank c = false ∧ isNameStart c = false ∧ c.isDigit = false ∧ c ≠ '"' := by
    cases s <;> exact ⟨_, _, rfl, rfl, rfl, rfl, by decide⟩
  have hcomment : ¬ (c = '/' ∧ (cs ++ rest).head? = some '/') := by
    rintro ⟨rfl, hslash⟩
    have hslash' : s = .slash := by
      revert hs
      cases s <;> simp [Symbol.chars]
    subst hslash'
    obtain rfl : cs = [] := by simpa [Symbol.chars] using hs.symm
    rcases hrest with halone | hends
    · exact absurd halone (by decide)
    · exact absurd (hends _ hslash) (by decide)
  have hlongest := longest?_append hrest
  rw [hs, List.cons_append] at hlongest
  refine ⟨c, cs, s.chars, hs, ?_⟩
  rw [firstPiece, if_neg (by simp [hblank]), if_neg hcomment]
  simp [hstart, hdigit, hquote, signPiece, hlongest, hs]

end

/-! ## Section 4: Parts of trees -/

/-- The text of a tree is cut into its tokens, whatever follows. -/
def Prints (e : Expr) : Prop :=
  ∀ rest ts, Ends isWordChar rest → Cuts rest ts → Cuts (e.text.toList ++ rest) (e.tokens ++ ts)

namespace Cuts

open Mlog.Expr

variable {cs rest : List Char} {ts : List Token}

theorem nil : Cuts [] [] := kindsOf_nil

theorem blank (h : Cuts cs ts) : Cuts (' ' :: cs) ts := (kindsOf_blank rfl cs).trans h

theorem ident {s : String} (hname : Text.isName s = true) (hrest : Ends isNameChar rest)
    (h : Cuts rest ts) : Cuts (s.toList ++ rest) (.ident s :: ts) :=
  (readAs_ident hname hrest).cuts h

theorem keyword (k : Keyword) (hrest : Ends isNameChar rest) (h : Cuts rest ts) :
    Cuts (k.spelling.toList ++ rest) (.keyword k :: ts) :=
  (readAs_keyword k hrest).cuts h

theorem number (hnumeral : Text.isNumeral cs = true) (hrest : Ends isWordChar rest)
    (h : Cuts rest ts) : Cuts (cs ++ rest) (.number (String.ofList cs) :: ts) :=
  (readAs_number hnumeral hrest).cuts h

theorem str {s : String} (hplain : Text.isPlain s = true) (h : Cuts rest ts) :
    Cuts ('"' :: (s.toList ++ '"' :: rest)) (.str s :: ts) := by
  obtain ⟨hquote, hline, hlast⟩ : '"' ∉ s.toList ∧ '\n' ∉ s.toList ∧
      s.toList.getLast? ≠ some '\\' := by
    simpa [Text.isPlain, and_assoc] using hplain
  have hcuts := (readAs_quoted hline hlast).cuts h
  simpa [Text.quoted, escape_of_plain hquote] using hcuts

theorem symbol (s : Symbol) (hrest : isAlone s = true ∨ Ends isSignChar rest) (h : Cuts rest ts) :
    Cuts (s.chars ++ rest) (.symbol s :: ts) :=
  (readAs_symbol s hrest).cuts h

theorem signed {name : String} (hname : Text.isName name = true) (hrest : Ends isNameChar rest)
    (h : Cuts rest ts) :
    Cuts (("@" ++ name).toList ++ rest) (.symbol .atSign :: .ident name :: ts) := by
  have htext : ("@" ++ name).toList ++ rest = Symbol.atSign.chars ++ (name.toList ++ rest) := by
    simp [Symbol.chars]
  rw [htext]
  exact symbol .atSign (.inl rfl) (ident hname hrest h)

theorem reference {s : String} (hname : isReference s = true) (hrest : Ends isNameChar rest)
    (h : Cuts rest ts) : Cuts (s.toList ++ rest) (referenceTokens s ++ ts) := by
  rcases referenceTokens_cases hname with ⟨hname, htokens⟩ | ⟨name, rfl, hname, htokens⟩
  · rw [htokens]
    exact ident hname hrest h
  · rw [htokens]
    exact signed hname hrest h

theorem literal {s : String} (hnumber : Text.isNumber s = true) (hrest : Ends isWordChar rest)
    (h : Cuts rest ts) : Cuts (s.toList ++ rest) (numberTokens s ++ ts) := by
  rcases numberTokens_cases hnumber with ⟨cs, rfl, hnumeral, htokens⟩ | ⟨hnumeral, htokens⟩
  · have htext : ("-" ++ String.ofList cs).toList ++ rest = Symbol.minus.chars ++ (cs ++ rest) := by
      simp [Symbol.chars]
    rw [htokens, htext]
    exact symbol .minus (.inl rfl) (number hnumeral hrest h)
  · have hcuts := number hnumeral hrest h
    rw [String.ofList_toList] at hcuts
    rwa [htokens]

theorem braced {e : Expr} (he : Prints e) (h : Cuts rest ts) :
    Cuts ((braced e.text).toList ++ rest) (bracedTokens e.tokens ++ ts) := by
  have htext : (Expr.braced e.text).toList ++ rest =
      Symbol.lbrace.chars ++ ' ' :: (e.text.toList ++ ' ' :: (Symbol.rbrace.chars ++ rest)) := by
    simp [Expr.braced, Symbol.chars]
  have htokens : bracedTokens e.tokens ++ ts =
      .symbol .lbrace :: (e.tokens ++ .symbol .rbrace :: ts) := by
    simp [bracedTokens]
  rw [htext, htokens]
  exact symbol .lbrace (.inl rfl)
    (blank (he _ _ (ends_cons rfl) (blank (symbol .rbrace (.inl rfl) h))))

theorem elsePart {e : Expr} (he : e = .nop ∨ Prints e) (h : Cuts rest ts) :
    Cuts ((elseText e e.text).toList ++ rest) (elseTokens e e.tokens ++ ts) := by
  by_cases hnop : e = .nop
  · subst hnop
    exact h
  · have htext : (elseText e e.text).toList ++ rest =
        ' ' :: (Keyword.else_.spelling.toList ++ ' ' :: ((Expr.braced e.text).toList ++ rest)) := by
      simp [elseText, Keyword.spelling]
    have htokens : elseTokens e e.tokens ++ ts =
        .keyword .else_ :: (bracedTokens e.tokens ++ ts) := by
      simp [elseTokens]
    rw [htext, htokens]
    exact blank (keyword .else_ (ends_cons rfl) (blank (braced (he.resolve_left hnop) h)))

end Cuts

/-! ## Section 5: Trees -/

namespace Expr

open Cuts

attribute [local simp] text argsText armsText tokens argsTokens armsTokens bracedTokens Symbol.chars
  Keyword.spelling

theorem prints_null : Prints null := fun _ _ hrest h => keyword .null_ hrest.name h

theorem prints_bool (value : Bool) : Prints (bool value) := by
  intro rest ts hrest h
  cases value with
  | true => exact keyword .true_ hrest.name h
  | false => exact keyword .false_ hrest.name h

theorem prints_str {contents : String} (hplain : Text.isPlain contents = true) :
    Prints (str contents) := by
  intro rest ts _ h
  have htext : (Expr.str contents).text.toList ++ rest =
      '"' :: (contents.toList ++ '"' :: rest) := by
    simp
  rw [htext]
  exact Cuts.str hplain h

theorem prints_builtin {name : String} (hname : Text.isName name = true) :
    Prints (builtin name) := by
  intro rest ts hrest h
  exact signed hname hrest.name h

theorem prints_seq {first last : Expr} (hfirst : Prints first) (hlast : Prints last) :
    Prints (seq first last) := by
  intro rest ts hrest h
  have htext : (seq first last).text.toList ++ rest =
      first.text.toList ++ (Symbol.semicolon.chars ++ ' ' :: (last.text.toList ++ rest)) := by
    simp
  have htokens : (seq first last).tokens ++ ts =
      first.tokens ++ .symbol .semicolon :: (last.tokens ++ ts) := by
    simp
  rw [htext, htokens]
  exact hfirst _ _ (ends_cons rfl) (symbol .semicolon (.inl rfl) (blank (hlast _ _ hrest h)))

theorem prints_branch {cond yes no : Expr} (hcond : Prints cond) (hyes : Prints yes)
    (hno : no = nop ∨ Prints no) : Prints (branch cond yes no) := by
  intro rest ts _ h
  have htext : (branch cond yes no).text.toList ++ rest =
      Keyword.if_.spelling.toList ++ ' ' :: (cond.text.toList ++ ' ' ::
        ((braced yes.text).toList ++ ((elseText no no.text).toList ++ rest))) := by
    simp
  have htokens : (branch cond yes no).tokens ++ ts =
      .keyword .if_ :: (cond.tokens ++ (bracedTokens yes.tokens ++
        (elseTokens no no.tokens ++ ts))) := by
    simp
  rw [htext, htokens]
  exact keyword .if_ (ends_cons rfl) (blank (hcond _ _ (ends_cons rfl) (blank
    (Cuts.braced hyes (Cuts.elsePart hno h)))))

theorem prints_loop {cond body : Expr} (hcond : Prints cond) (hbody : Prints body) :
    Prints (loop cond body) := by
  intro rest ts _ h
  have htext : (loop cond body).text.toList ++ rest =
      Keyword.while_.spelling.toList ++ ' ' :: (cond.text.toList ++ ' ' ::
        ((braced body.text).toList ++ rest)) := by
    simp
  have htokens : (loop cond body).tokens ++ ts =
      .keyword .while_ :: (cond.tokens ++ (bracedTokens body.tokens ++ ts)) := by
    simp
  rw [htext, htokens]
  exact keyword .while_ (ends_cons rfl)
    (blank (hcond _ _ (ends_cons rfl) (blank (Cuts.braced hbody h))))

theorem cuts_arms {arms : List (Expr × Expr)} (harms : ∀ arm ∈ arms, Prints arm.1 ∧ Prints arm.2)
    {rest : List Char} {ts : List Token} (h : Cuts rest ts) :
    Cuts ((armsText arms).toList ++ rest) (armsTokens arms ++ ts) := by
  induction arms with
  | nil => exact h
  | cons arm arms ih =>
    obtain ⟨pattern, body⟩ := arm
    obtain ⟨hpattern, hbody⟩ := harms _ List.mem_cons_self
    have htext : (armsText ((pattern, body) :: arms)).toList ++ rest =
        ' ' :: (Keyword.when_.spelling.toList ++ ' ' :: (pattern.text.toList ++ ' ' ::
          ((braced body.text).toList ++ ((armsText arms).toList ++ rest)))) := by
      simp
    have htokens : armsTokens ((pattern, body) :: arms) ++ ts =
        .keyword .when_ :: (pattern.tokens ++ (bracedTokens body.tokens ++
          (armsTokens arms ++ ts))) := by
      simp
    have hothers := ih fun arm harm => harms arm (List.mem_cons_of_mem _ harm)
    rw [htext, htokens]
    exact blank (keyword .when_ (ends_cons rfl) (blank (hpattern _ _ (ends_cons rfl) (blank
      (Cuts.braced hbody hothers)))))

theorem prints_select {subject otherwise : Expr} {arms : List (Expr × Expr)}
    (hsubject : Prints subject) (harms : ∀ arm ∈ arms, Prints arm.1 ∧ Prints arm.2)
    (hotherwise : otherwise = nop ∨ Prints otherwise) :
    Prints (select subject arms otherwise) := by
  intro rest ts _ h
  have htext : (select subject arms otherwise).text.toList ++ rest =
      Keyword.case_.spelling.toList ++ ' ' :: (subject.text.toList ++ ' ' ::
        (Symbol.lbrace.chars ++ ((armsText arms).toList ++
          ((elseText otherwise otherwise.text).toList ++ ' ' ::
            (Symbol.rbrace.chars ++ rest))))) := by
    simp
  have htokens : (select subject arms otherwise).tokens ++ ts =
      .keyword .case_ :: (subject.tokens ++ .symbol .lbrace :: (armsTokens arms ++
        (elseTokens otherwise otherwise.tokens ++ .symbol .rbrace :: ts))) := by
    simp
  rw [htext, htokens]
  exact keyword .case_ (ends_cons rfl) (blank (hsubject _ _ (ends_cons rfl) (blank
    (symbol .lbrace (.inl rfl) (cuts_arms harms (Cuts.elsePart hotherwise
      (blank (symbol .rbrace (.inl rfl) h))))))))

/-- The sign of an assignment, and the value after it. -/
theorem cuts_assigned {value : Expr} (hvalue : Prints value) {rest : List Char} {ts : List Token}
    (hrest : Ends isWordChar rest) (h : Cuts rest ts) :
    Cuts (' ' :: (Symbol.assign.chars ++ ' ' :: (value.text.toList ++ rest)))
      (.symbol .assign :: (value.tokens ++ ts)) :=
  blank (symbol .assign (.inr (ends_cons rfl)) (blank (hvalue _ _ hrest h)))

theorem prints_assign {name : String} {value : Expr} (hname : Text.isName name = true)
    (hvalue : Prints value) : Prints (assign name value) := by
  intro rest ts hrest h
  have htext : (assign name value).text.toList ++ rest =
      name.toList ++ ' ' :: (Symbol.assign.chars ++ ' ' :: (value.text.toList ++ rest)) := by
    simp
  rw [htext]
  exact ident hname (ends_cons rfl) (cuts_assigned hvalue hrest h)

theorem prints_assignBuiltin {name : String} {value : Expr} (hname : Text.isName name = true)
    (hvalue : Prints value) : Prints (assignBuiltin name value) := by
  intro rest ts hrest h
  have htext : (assignBuiltin name value).text.toList ++ rest =
      ("@" ++ name).toList ++ ' ' ::
        (Symbol.assign.chars ++ ' ' :: (value.text.toList ++ rest)) := by
    simp
  rw [htext]
  exact signed hname (ends_cons rfl) (cuts_assigned hvalue hrest h)

/-- A memory cell with the address in it. -/
theorem cuts_cell {cell : String} {address : Expr} (hcell : Text.isName cell = true)
    (haddress : Prints address) {rest : List Char} {ts : List Token} (h : Cuts rest ts) :
    Cuts (cell.toList ++ (Symbol.lbracket.chars ++ (address.text.toList ++
        (Symbol.rbracket.chars ++ rest))))
      (.ident cell :: .symbol .lbracket :: (address.tokens ++ .symbol .rbracket :: ts)) :=
  ident hcell (ends_cons rfl) (symbol .lbracket (.inl rfl)
    (haddress _ _ (ends_cons rfl) (symbol .rbracket (.inl rfl) h)))

theorem prints_load {cell : String} {address : Expr} (hcell : Text.isName cell = true)
    (haddress : Prints address) : Prints (load cell address) := by
  intro rest ts _ h
  have htext : (load cell address).text.toList ++ rest =
      cell.toList ++ (Symbol.lbracket.chars ++ (address.text.toList ++
        (Symbol.rbracket.chars ++ rest))) := by
    simp
  have htokens : (load cell address).tokens ++ ts =
      .ident cell :: .symbol .lbracket :: (address.tokens ++ .symbol .rbracket :: ts) := by
    simp
  rw [htext, htokens]
  exact cuts_cell hcell haddress h

theorem prints_store {cell : String} {address value : Expr} (hcell : Text.isName cell = true)
    (haddress : Prints address) (hvalue : Prints value) : Prints (store cell address value) := by
  intro rest ts hrest h
  have htext : (store cell address value).text.toList ++ rest =
      cell.toList ++ (Symbol.lbracket.chars ++ (address.text.toList ++
        (Symbol.rbracket.chars ++ ' ' ::
          (Symbol.assign.chars ++ ' ' :: (value.text.toList ++ rest))))) := by
    simp
  have htokens : (store cell address value).tokens ++ ts =
      .ident cell :: .symbol .lbracket :: (address.tokens ++ .symbol .rbracket ::
        .symbol .assign :: (value.tokens ++ ts)) := by
    simp
  rw [htext, htokens]
  exact cuts_cell hcell haddress (cuts_assigned hvalue hrest h)

theorem prints_control {property target : String} {value : Expr}
    (hproperty : Text.isName property = true) (htarget : isReference target = true)
    (hvalue : Prints value) : Prints (control property target value) := by
  intro rest ts hrest h
  have htext : (control property target value).text.toList ++ rest =
      target.toList ++ (Symbol.dot.chars ++ (property.toList ++ ' ' ::
        (Symbol.assign.chars ++ ' ' :: (value.text.toList ++ rest)))) := by
    simp
  have htokens : (control property target value).tokens ++ ts =
      referenceTokens target ++ .symbol .dot :: .ident property ::
        .symbol .assign :: (value.tokens ++ ts) := by
    simp
  rw [htext, htokens]
  exact reference htarget (ends_cons rfl) (symbol .dot (.inl rfl)
    (ident hproperty (ends_cons rfl) (cuts_assigned hvalue hrest h)))

theorem prints_sensor {target name : String} (htarget : isReference target = true)
    (hname : Text.isSigned name = true) : Prints (sensor target name) := by
  intro rest ts hrest h
  have htext : (sensor target name).text.toList ++ rest =
      target.toList ++ (Symbol.dot.chars ++ (name.toList ++ rest)) := by
    simp
  have htokens : (sensor target name).tokens ++ ts =
      referenceTokens target ++ .symbol .dot :: (referenceTokens name ++ ts) := by
    simp
  rw [htext, htokens]
  exact reference htarget (ends_cons rfl) (symbol .dot (.inl rfl)
    (reference (by simp [isReference, hname]) hrest.name h))

theorem cuts_args {args : List Expr} (hargs : ∀ arg ∈ args, Prints arg) {rest : List Char}
    {ts : List Token} (hrest : Ends isWordChar rest) (h : Cuts rest ts) :
    Cuts ((argsText args).toList ++ rest) (argsTokens args ++ ts) := by
  induction args with
  | nil => exact h
  | cons arg args ih =>
    have harg : Prints arg := hargs arg List.mem_cons_self
    cases args with
    | nil => exact harg _ _ hrest h
    | cons next args =>
      have htext : (argsText (arg :: next :: args)).toList ++ rest =
          arg.text.toList ++ (Symbol.comma.chars ++ ' ' ::
            ((argsText (next :: args)).toList ++ rest)) := by
        simp
      have htokens : argsTokens (arg :: next :: args) ++ ts =
          arg.tokens ++ .symbol .comma :: (argsTokens (next :: args) ++ ts) := by
        simp
      have hothers := ih fun arg harg => hargs arg (List.mem_cons_of_mem _ harg)
      rw [htext, htokens]
      exact harg _ _ (ends_cons rfl) (symbol .comma (.inl rfl) (blank hothers))

theorem prints_call {name : String} {args : List Expr} (hname : Text.isName name = true)
    (hargs : ∀ arg ∈ args, Prints arg) : Prints (call name args) := by
  intro rest ts _ h
  have htext : (call name args).text.toList ++ rest =
      name.toList ++ (Symbol.lparen.chars ++ ((argsText args).toList ++
        (Symbol.rparen.chars ++ rest))) := by
    simp
  have htokens : (call name args).tokens ++ ts =
      .ident name :: .symbol .lparen :: (argsTokens args ++ .symbol .rparen :: ts) := by
    simp
  rw [htext, htokens]
  exact ident hname (ends_cons rfl) (symbol .lparen (.inl rfl)
    (cuts_args hargs (ends_cons rfl) (symbol .rparen (.inl rfl) h)))

theorem isSignChar_eq_false {p : Char → Bool} {c : Char} (hc : p c = true)
    (hsigns : ['=', '*', '&', '|', '/'].any p = false) : isSignChar c = false := by
  cases hsign : isSignChar c with
  | false => rfl
  | true =>
    have hmem : c ∈ ['=', '*', '&', '|', '/'] := by
      simpa [isSignChar, or_assoc] using hsign
    exact absurd (List.any_eq_true.mpr ⟨c, hmem, hc⟩) (by rw [hsigns]; exact Bool.false_ne_true)

theorem ends_of_isName {name : String} (hname : Text.isName name = true) (rest : List Char) :
    Ends isSignChar (name.toList ++ rest) := by
  obtain ⟨c, cs, hs, hstart, _⟩ := Text.isName_cases hname
  rw [hs]
  exact ends_cons (isSignChar_eq_false hstart rfl)

theorem ends_of_isReference {name : String} (hname : isReference name = true)
    (rest : List Char) : Ends isSignChar (name.toList ++ rest) := by
  rcases Bool.or_eq_true_iff.mp hname with hname | hsigned
  · exact ends_of_isName hname rest
  · obtain ⟨name, rfl, _⟩ := Text.isSigned_cases hsigned
    rw [String.toList_append]
    exact ends_cons rfl

theorem ends_of_isNumber {literal : String} (hnumber : Text.isNumber literal = true)
    (rest : List Char) : Ends isSignChar (literal.toList ++ rest) := by
  rcases Text.isNumber_cases hnumber with ⟨cs, hs, _⟩ | hnumeral
  · rw [hs]
    exact ends_cons rfl
  · cases hs : literal.toList with
    | nil =>
      rw [hs] at hnumeral
      exact absurd hnumeral (by decide)
    | cons c cs =>
      rw [hs] at hnumeral
      have hc := Text.isDigit_of_isNumeral hnumeral
      exact ends_cons (isSignChar_eq_false hc rfl)

/-- The text of an operand does not make the symbol before it longer. -/
theorem ends_text {e : Expr} (h : e.printableAt .operand = true) (rest : List Char) :
    Ends isSignChar (e.text.toList ++ rest) := by
  cases e with
  | num literal => exact ends_of_isNumber h rest
  | var name => exact ends_of_isName h rest
  | load cell address =>
    simp only [printableAt, Bool.and_eq_true] at h
    simpa using ends_of_isName h.1 _
  | sensor target name =>
    simp only [printableAt, Bool.and_eq_true] at h
    simpa using ends_of_isReference h.1 _
  | call name args =>
    simp only [printableAt, Bool.and_eq_true] at h
    simpa using ends_of_isName h.1 _
  | unary op operand =>
    simp only [printableAt, Bool.and_eq_true] at h
    rcases negationToken?_cases h.1 with rfl | rfl <;> simpa using ends_cons rfl
  | bool value => cases value <;> exact ends_cons rfl
  | null | str | builtin | branch | select | binary => simpa using ends_cons rfl
  -- these are no operands: their own place is a wider one
  | seq | loop | assign | assignBuiltin | store | control | nop =>
    exact absurd (home_le h) (Nat.not_succ_le_zero _)
  | comment => exact absurd h (by simp [printableAt])

theorem prints_unary {op : String} {operand : Expr} (hop : (negationToken? op).isSome = true)
    (hplace : operand.printableAt .operand = true) (hoperand : Prints operand) :
    Prints (unary op operand) := by
  intro rest ts hrest h
  rcases negationToken?_cases hop with rfl | rfl
  · have htext : (unary "not" operand).text.toList ++ rest =
        Keyword.not_.spelling.toList ++ ' ' :: (operand.text.toList ++ rest) := by
      have hgap : operatorGap "not" = " " := rfl
      simp [hgap]
    rw [htext]
    exact keyword .not_ (ends_cons rfl) (blank (hoperand _ _ hrest h))
  · have htext : (unary "!" operand).text.toList ++ rest =
        Symbol.bang.chars ++ (operand.text.toList ++ rest) := by
      have hgap : operatorGap "!" = "" := rfl
      simp [hgap]
    rw [htext]
    exact symbol .bang (.inr (ends_text hplace rest)) (hoperand _ _ hrest h)

/-- The spelling of a keyword or a symbol. -/
def signSpelling? : Token → Option String
  | .keyword k => some k.spelling
  | .symbol s => some s.spelling
  | _ => none

/-- A binary operator is spelled as its token is. -/
theorem operationToken?_cases {op : String} {t : Token} (h : operationToken? op = some t) :
    (∃ k : Keyword, t = .keyword k ∧ op = k.spelling) ∨
      ∃ s : Symbol, t = .symbol s ∧ op = s.spelling := by
  have hspelled : ∀ operator ∈ binaryOperators, signSpelling? operator.1 = some operator.2 := by
    decide
  obtain ⟨operator, hfind, rfl⟩ := Option.map_eq_some_iff.mp h
  obtain rfl : operator.2 = op := by simpa using List.find?_some hfind
  have hop := hspelled operator (List.mem_of_find?_eq_some hfind)
  cases ht : operator.1 with
  | keyword k =>
    rw [ht] at hop
    exact .inl ⟨k, rfl, (Option.some.inj hop).symm⟩
  | symbol s =>
    rw [ht] at hop
    exact .inr ⟨s, rfl, (Option.some.inj hop).symm⟩
  | _ => exact absurd hop (by simp [ht, signSpelling?])

theorem cuts_operation {op : String} {t : Token} (hop : operationToken? op = some t)
    {rest : List Char} {ts : List Token} (h : Cuts rest ts) :
    Cuts (op.toList ++ ' ' :: rest) (t :: ts) := by
  rcases operationToken?_cases hop with ⟨k, rfl, rfl⟩ | ⟨s, rfl, rfl⟩
  · exact keyword k (ends_cons rfl) (blank h)
  · rw [Symbol.spelling, String.toList_ofList]
    exact symbol s (.inr (ends_cons rfl)) (blank h)

theorem prints_binary {op : String} {left right : Expr} (hop : (operationToken? op).isSome = true)
    (hleft : Prints left) (hright : Prints right) : Prints (binary op left right) := by
  intro rest ts _ h
  obtain ⟨t, ht⟩ := Option.isSome_iff_exists.mp hop
  have htext : (binary op left right).text.toList ++ rest =
      Symbol.lparen.chars ++ (left.text.toList ++ ' ' :: (op.toList ++ ' ' ::
        (right.text.toList ++ (Symbol.rparen.chars ++ rest)))) := by
    simp
  have htokens : (binary op left right).tokens ++ ts =
      .symbol .lparen :: (left.tokens ++ t :: (right.tokens ++ .symbol .rparen :: ts)) := by
    simp [ht]
  rw [htext, htokens]
  exact symbol .lparen (.inl rfl) (hleft _ _ (ends_cons rfl) (blank (cuts_operation ht
    (hright _ _ (ends_cons rfl) (symbol .rparen (.inl rfl) h)))))

/-- The text of a printable tree is cut into its tokens. -/
theorem prints_of_printableAt {e : Expr} {place : Place} (h : e.printableAt place = true)
    (hle : place ≤ .block) : Prints e := by
  -- one lemma for each kind of node; here the parts are found printable
  induction e generalizing place with
  | null => exact prints_null
  | bool value => exact prints_bool value
  | num literal => exact fun _ _ => Cuts.literal h
  | str contents => exact prints_str h
  | var name => exact fun _ _ hrest => ident h hrest.name
  | builtin name => exact prints_builtin h
  | seq first last ihFirst ihLast =>
    simp only [printableAt, Bool.and_eq_true] at h
    obtain ⟨⟨_, hfirst⟩, hlast⟩ := h
    exact prints_seq (ihFirst hfirst (by decide))
      (ihLast hlast (by decide))
  | branch cond yes no ihCond ihYes ihNo =>
    simp only [printableAt, Bool.and_eq_true] at h
    obtain ⟨⟨hcond, hyes⟩, hno⟩ := h
    exact prints_branch (ihCond hcond (by decide))
      (ihYes hyes (by decide)) ((elsePart_cases hno).imp_right fun hno => ihNo hno (by decide))
  | loop cond body ihCond ihBody =>
    simp only [printableAt, Bool.and_eq_true] at h
    obtain ⟨⟨_, hcond⟩, hbody⟩ := h
    exact prints_loop (ihCond hcond (by decide))
      (ihBody hbody (by decide))
  | select subject arms otherwise ihSubject ihArms ihOtherwise =>
    simp only [printableAt, Bool.and_eq_true] at h
    obtain ⟨⟨hsubject, harms⟩, hotherwise⟩ := h
    refine prints_select (ihSubject hsubject (by decide)) (fun arm harm => ?_)
      ((elsePart_cases hotherwise).imp_right fun h => ihOtherwise h (by decide))
    obtain ⟨hpattern, hbody⟩ := printableAt_of_mem_arms harms harm
    exact ⟨(ihArms arm harm).1 hpattern (by decide),
      (ihArms arm harm).2 hbody (by decide)⟩
  | assign name value ih =>
    simp only [printableAt, Bool.and_eq_true] at h
    obtain ⟨⟨_, hname⟩, hvalue⟩ := h
    exact prints_assign hname (ih hvalue (by decide))
  | assignBuiltin name value ih =>
    simp only [printableAt, Bool.and_eq_true] at h
    obtain ⟨⟨_, hname⟩, hvalue⟩ := h
    exact prints_assignBuiltin hname (ih hvalue (by decide))
  | load cell address ih =>
    simp only [printableAt, Bool.and_eq_true] at h
    exact prints_load h.1 (ih h.2 (by decide))
  | store cell address value ihAddress ihValue =>
    simp only [printableAt, Bool.and_eq_true] at h
    obtain ⟨⟨⟨_, hcell⟩, haddress⟩, hvalue⟩ := h
    exact prints_store hcell (ihAddress haddress (by decide))
      (ihValue hvalue (by decide))
  | control property target value ih =>
    simp only [printableAt, Bool.and_eq_true] at h
    obtain ⟨⟨⟨_, hproperty⟩, htarget⟩, hvalue⟩ := h
    exact prints_control hproperty htarget (ih hvalue (by decide))
  | sensor target name =>
    simp only [printableAt, Bool.and_eq_true] at h
    exact prints_sensor h.1 h.2
  | unary op operand ih =>
    simp only [printableAt, Bool.and_eq_true] at h
    exact prints_unary h.1 h.2 (ih h.2 (by decide))
  | binary op left right ihLeft ihRight =>
    simp only [printableAt, Bool.and_eq_true] at h
    obtain ⟨⟨hop, hleft⟩, hright⟩ := h
    exact prints_binary hop (ihLeft hleft (by decide))
      (ihRight hright (by decide))
  | call name args ih =>
    simp only [printableAt, Bool.and_eq_true] at h
    refine prints_call h.1 fun arg harg => ?_
    have hvalue := printableAt_of_mem_args h.2 harg
    exact ih arg harg hvalue (by decide)
  | comment => exact absurd h (by simp [printableAt])
  -- the empty text has no place below a whole program
  | nop => exact absurd (Nat.le_trans (home_le h) hle) (by decide)

end Expr

/-! ## Section 6: Lexed texts -/

namespace Piece.Kind

/-- The token that a piece of this kind is. -/
def token? : Piece.Kind → Option Token
  | token t => some t
  | _ => none

/-- The comment that a piece of this kind is. -/
def comment? : Piece.Kind → Option String
  | comment text => some text
  | _ => none

/-- The fault that a piece of this kind is. -/
def fault? : Piece.Kind → Option LexicalFault
  | fault f => some f
  | _ => none

end Piece.Kind

/-- Sorting located pieces goes by what they are, whatever their places. -/
theorem values_locate (offset : Nat) (pieces : List Piece) :
    ((locate offset pieces).filterMap Located.token?).map Located.value =
        (pieces.map Piece.kind).filterMap Piece.Kind.token? ∧
      ((locate offset pieces).filterMap Located.comment?).map Located.value =
        (pieces.map Piece.kind).filterMap Piece.Kind.comment? ∧
      ((locate offset pieces).filterMap Located.fault?).map Located.value =
        (pieces.map Piece.kind).filterMap Piece.Kind.fault? := by
  induction pieces generalizing offset with
  | nil => exact ⟨rfl, rfl, rfl⟩
  | cons piece pieces ih =>
    obtain ⟨text, kind⟩ := piece
    obtain ⟨htokens, hcomments, hfaults⟩ := ih (offset + byteLength text)
    cases kind with
    | blank => exact ⟨htokens, hcomments, hfaults⟩
    | token t => exact ⟨congrArg (t :: ·) htokens, hcomments, hfaults⟩
    | comment text => exact ⟨htokens, congrArg (text :: ·) hcomments, hfaults⟩
    | fault f => exact ⟨htokens, hcomments, congrArg (f :: ·) hfaults⟩

/-- A blank is sorted nowhere. -/
theorem filterMap_kindsOf {α : Type} {sort? : Piece.Kind → Option α} (h : sort? .blank = none)
    (cs : List Char) :
    ((cut cs).map Piece.kind).filterMap sort? = (kindsOf cs).filterMap sort? := by
  unfold kindsOf
  induction (cut cs).map Piece.kind with
  | nil => rfl
  | cons kind kinds ih =>
    by_cases hkind : kind = .blank
    · rw [hkind, List.filter_cons_of_neg (by simp), List.filterMap_cons_none h, ih]
    · rw [List.filter_cons_of_pos (by simpa using hkind), List.filterMap_cons, List.filterMap_cons,
        ih]

/-- A source text is sorted by what it is cut into. -/
theorem values_lex (source : String) :
    (lex source).tokens.map Located.value =
        (kindsOf source.toList).filterMap Piece.Kind.token? ++ [.eof] ∧
      (lex source).comments.map Located.value =
        (kindsOf source.toList).filterMap Piece.Kind.comment? ∧
      (lex source).faults.map Located.value =
        (kindsOf source.toList).filterMap Piece.Kind.fault? := by
  obtain ⟨htokens, hcomments, hfaults⟩ := values_locate 0 (cut source.toList)
  rw [filterMap_kindsOf rfl] at htokens hcomments hfaults
  unfold lex Lexed.narrow
  rw [map_value_narrow, map_value_narrow, map_value_narrow]
  refine ⟨?_, hcomments, hfaults⟩
  rw [← htokens]
  simp [lexWide, piecesOf, endOfFile]

/-- A text that is cut into tokens and blanks is sorted into these tokens, and
    neither comments nor faults. -/
theorem lex_of_cuts {source : String} {ts : List Token} (h : Cuts source.toList ts) :
    (lex source).tokens.map Located.value = ts ++ [.eof] ∧ (lex source).comments = [] ∧
      (lex source).faults = [] := by
  obtain ⟨htokens, hcomments, hfaults⟩ := values_lex source
  rw [h, List.filterMap_map] at htokens hcomments hfaults
  have hnone : ∀ {α : Type}, ts.filterMap (fun _ => (none : Option α)) = [] :=
    List.filterMap_eq_nil_iff.mpr fun _ _ => rfl
  refine ⟨?_, List.map_eq_nil_iff.mp (hcomments.trans hnone),
    List.map_eq_nil_iff.mp (hfaults.trans hnone)⟩
  rw [htokens]
  show ts.filterMap some ++ [.eof] = ts ++ [.eof]
  rw [List.filterMap_some]

/-- The text of a printable program is sorted into the tokens of the program. -/
theorem lex_text {e : Expr} (h : e.printable = true) :
    (lex e.text).tokens.map Located.value = e.tokens ++ [.eof] ∧ (lex e.text).comments = [] ∧
      (lex e.text).faults = [] := by
  have hcuts := Expr.prints_of_printableAt h (by decide) _ _ (fun c hc => absurd hc (by simp)) .nil
  rw [List.append_nil, List.append_nil] at hcuts
  exact lex_of_cuts hcuts

end Mlog
