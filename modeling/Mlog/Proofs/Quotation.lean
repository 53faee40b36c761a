import Mlog.Proofs.Assembly
import Mlog.Proofs.ShapedParsing

/-! # Strings in programs

    A string literal ends at the first quote without a backslash before it, on
    the line on which it starts.  So its text has no line break in it and no
    backslash at its end, and can be put between quotes again.

    * `quotable_of_mem_lex`: the texts of the string literals of a source text.
    * `Derivation.Statements.texts_eq`: the strings in a tree are those of its
      tokens, in their order.
    * `quotable_of_parse`: the strings in the tree of a source text. -/

namespace Mlog

/-! ## Section 1: Quotable texts -/

/-- The text can stand between quotes on a line: it has no line break, and no
    backslash before the closing quote. -/
def Text.isQuotable (cs : List Char) : Bool := !cs.contains '\n' && cs.getLast? != some '\\'

theorem Text.isQuotable_iff {cs : List Char} :
    isQuotable cs = true ↔ '\n' ∉ cs ∧ cs.getLast? ≠ some '\\' := by
  simp [isQuotable]

/-- Reading a quoted text leaves the last character as it is. -/
theorem Text.getLast?_unescape (cs : List Char) : (unescape cs).getLast? = cs.getLast? := by
  fun_induction unescape cs with
  | case1 cs ih => simp [List.getLast?_cons, ih]
  | case2 c cs _ ih => simp [List.getLast?_cons, ih]
  | case3 => rfl

theorem eq_or_getLast?_of_cons {c d : Char} {cs : List Char} (h : (c :: cs).getLast? = some d) :
    (cs = [] ∧ c = d) ∨ cs.getLast? = some d := by
  cases cs with
  | nil => exact .inl ⟨rfl, by simpa using h⟩
  | cons c' cs => exact .inr (by rwa [List.getLast?_cons_cons] at h)

/-- There is no backslash before the quote that closes a string literal. -/
theorem getLast?_splitString {cs inside after : List Char}
    (h : splitString cs = (inside, '"' :: after)) : inside.getLast? ≠ some '\\' := by
  fun_induction splitString cs generalizing inside with
  | case1 cs inside' after' heq ih =>
    cases h
    intro hlast
    rw [List.getLast?_cons_cons] at hlast
    rcases eq_or_getLast?_of_cons hlast with ⟨_, hquote⟩ | hlast
    · exact absurd hquote (by decide)
    · exact ih heq hlast
  | case2 c cs _ hstop =>
    cases h
    simp
  | case3 c cs hescape _ inside' after' heq ih =>
    cases h
    intro hlast
    rcases eq_or_getLast?_of_cons hlast with ⟨rfl, rfl⟩ | hlast
    · -- the backslash would have been read together with the quote
      have hcs := splitString_append cs
      rw [heq] at hcs
      exact hescape after rfl hcs.symm
    · exact ih heq hlast
  | case4 => simp at h

/-- The text of a string literal can be put between quotes again. -/
theorem quotable_of_splitString {cs inside after : List Char}
    (h : splitString cs = (inside, '"' :: after)) :
    Text.isQuotable (Text.unescape inside) = true := by
  have hline := not_mem_splitString cs
  rw [h] at hline
  rw [Text.isQuotable_iff, Text.getLast?_unescape]
  exact ⟨fun hmem => hline (mem_of_mem_unescape hmem), getLast?_splitString h⟩

/-! ## Section 2: String literals of a source text -/

/-- A name is a keyword or an identifier. -/
theorem nameToken_ne_str (name text : String) : nameToken name ≠ .str text := by
  unfold nameToken
  cases Keyword.ofSpelling? name <;> simp

/-- A piece that is a string literal goes up to the quote that closes it. -/
theorem splitString_of_firstPiece {c : Char} {cs : List Char} {text : String}
    (h : (firstPiece c cs).1.kind = .token (.str text)) :
    ∃ inside after, splitString cs = (inside, '"' :: after) ∧
      (firstPiece c cs).1.text = '"' :: inside ++ ['"'] ∧
      text = String.ofList (Text.unescape inside) := by
  -- only the pieces that start with a quote can be strings
  unfold firstPiece at h ⊢
  split at h
  · exact absurd h (by simp)
  rename_i hblank
  split at h
  · exact absurd h (by simp)
  rename_i hcomment
  split at h
  · exact absurd (Piece.Kind.token.inj h) (nameToken_ne_str _ _)
  rename_i hname
  split at h
  · exact absurd h (by simp)
  rename_i hdigit
  rw [if_neg hblank, if_neg hcomment, if_neg hname, if_neg hdigit]
  split at h
  · rename_i hquote
    rw [if_pos hquote]
    unfold stringPiece at h ⊢
    split at h
    · rename_i inside after hsplit
      rw [hsplit]
      exact ⟨inside, after, rfl, rfl, by simpa using h.symm⟩
    · exact absurd h (by simp)
  · unfold signPiece at h
    split at h
    · exact absurd h (by simp)
    · split at h <;> exact absurd h (by simp)

theorem splitString_of_mem_cut {cs : List Char} {p : Piece} {text : String} (h : p ∈ cut cs)
    (hkind : p.kind = .token (.str text)) :
    ∃ rest inside after, splitString rest = (inside, '"' :: after) ∧
      p.text = '"' :: inside ++ ['"'] ∧ text = String.ofList (Text.unescape inside) := by
  fun_induction cut cs with
  | case1 => exact absurd h List.not_mem_nil
  | case2 c cs ih =>
    rcases List.mem_cons.mp h with rfl | h
    · exact ⟨cs, splitString_of_firstPiece hkind⟩
    · exact ih h

/-- The string literals of a source text: where they stand, and how their texts are
    read. -/
theorem stands_literal {source : String} {t : Located Token} {text : String}
    (h : t ∈ (lexWide source).tokens) (htext : t.value = .str text) :
    ∃ rest inside after, splitString rest = (inside, '"' :: after) ∧
      Stands source t.span ('"' :: inside ++ ['"']) ∧
      text = String.ofList (Text.unescape inside) := by
  rw [tokens_lexWide, List.mem_append, List.mem_singleton] at h
  rcases h with h | rfl
  · obtain ⟨p, hp, hsort⟩ := List.mem_filterMap.mp h
    obtain ⟨hkind, hspan⟩ := token?_eq_some hsort
    have hsource : source.toList = [] ++ (cut source.toList).flatMap Piece.text := by
      rw [flatMap_text_cut, List.nil_append]
    obtain ⟨hmem, hstands⟩ := stands_of_mem_locate hsource hp
    obtain ⟨rest, inside, after, hsplit, hchars, hread⟩ :=
      splitString_of_mem_cut hmem (hkind.trans (by rw [htext]))
    rw [hchars, ← hspan] at hstands
    exact ⟨rest, inside, after, hsplit, hstands, hread⟩
  · cases htext

theorem quotable_of_mem_lex {source : String} {t : Located Token} {text : String}
    (h : t ∈ (lex source).tokens) (htext : t.value = .str text) :
    Text.isQuotable text.toList = true := by
  obtain ⟨wide, hwide, rfl⟩ := List.mem_map.mp h
  obtain ⟨rest, inside, after, hsplit, _, rfl⟩ := stands_literal hwide htext
  rw [String.toList_ofList]
  exact quotable_of_splitString hsplit

/-! ## Section 3: Strings in trees -/

namespace Expr

/-- The text of a node that is a string. -/
def ownText : Expr → List String
  | str text => [text]
  | _ => []

/-- The texts of the strings in a tree, in the order of evaluation. -/
def texts (e : Expr) : List String := e.nodes.flatMap ownText

theorem texts_eq (e : Expr) : e.texts = e.children.flatMap texts ++ e.ownText := by
  unfold texts
  rw [nodes_eq, List.flatMap_append, List.flatMap_assoc, List.flatMap_singleton]

theorem texts_ofStatements (es : List Expr) : (ofStatements es).texts = es.flatMap texts := by
  have hseq : ∀ rest last : Expr, (seq rest last).texts = rest.texts ++ last.texts := by
    intro rest last
    rw [texts_eq]
    simp [children, parts, ownText]
  have hfold : ∀ (others : List Expr) (first : Expr),
      (others.foldl seq first).texts = first.texts ++ others.flatMap texts := by
    intro others
    induction others with
    | nil => simp
    | cons second others ih =>
      intro first
      rw [List.foldl_cons, ih, hseq, List.flatMap_cons, List.append_assoc]
  cases es with
  | nil => rw [ofStatements, texts_eq]; rfl
  | cons first others => exact hfold others first

/-- An assignment evaluates what stands in its target before the value. -/
theorem texts_assignTo? {target value e : Expr} (h : target.assignTo? value = some e) :
    e.texts = target.texts ++ value.texts := by
  unfold assignTo? at h
  split at h <;> cases h
  · simp [texts_eq (assign _ _), texts_eq (var _), children, parts, ownText]
  · simp [texts_eq (assignBuiltin _ _), texts_eq (builtin _), children, parts, ownText]
  · simp [texts_eq (store _ _ _), texts_eq (load _ _), children, parts, ownText]
  · simp [texts_eq (control _ _ _), texts_eq (sensor _ _), children, parts, ownText]

theorem texts_sensor (target name : String) : (sensor target name).texts = [] := texts_eq _

theorem texts_select (subject otherwise : Expr) (arms : List (Expr × Expr)) :
    (select subject arms otherwise).texts =
      subject.texts ++
        ((arms.flatMap fun arm => arm.1.texts ++ arm.2.texts) ++ otherwise.texts) := by
  rw [texts_eq, children_select]
  simp [ownText, List.flatMap_assoc]

theorem texts_call (name : String) (args : List Expr) :
    (call name args).texts = args.flatMap texts := by
  rw [texts_eq, children_call]
  simp [ownText]

end Expr

/-- The text of a token that is a string literal. -/
def Token.ownText : Token → List String
  | str text => [text]
  | _ => []

/-- The texts of the string literals among tokens. -/
def textsOf (tokens : List Token) : List String := tokens.flatMap Token.ownText

@[simp] theorem textsOf_nil : textsOf [] = [] := rfl

@[simp] theorem textsOf_append (ts us : List Token) :
    textsOf (ts ++ us) = textsOf ts ++ textsOf us := List.flatMap_append

@[simp] theorem textsOf_cons (t : Token) (ts : List Token) :
    textsOf (t :: ts) = t.ownText ++ textsOf ts := List.flatMap_cons

theorem Tier.ownText_sign {tier : Tier} {sign : Token} {op : String} (h : (sign, op) ∈ tier.signs) :
    sign.ownText = [] := by
  have hsigns : ∀ pair ∈ tier.signs, pair.1.ownText = [] := by
    cases tier <;> decide
  exact hsigns _ h

namespace Derivation

theorem Property.textsOf_eq {ts : List Token} {property : String} (h : Property ts property) :
    textsOf ts = [] := by
  cases h <;> rfl

/-- The strings in the trees of statements are those of the tokens, in their
    order. -/
theorem Statements.texts_eq {ts : List Token} {es : List Expr} (h : Statements ts es) :
    es.flatMap Expr.texts = textsOf ts := by
  -- the rules refer to one another, so the statement is made for all of them at once
  apply @Statements.rec
    (fun ts es _ => es.flatMap Expr.texts = textsOf ts)
    (fun ts e _ => e.texts = textsOf ts) (fun ts e _ => e.texts = textsOf ts)
    (fun ts e _ => e.texts = textsOf ts) (fun ts e _ => e.texts = textsOf ts)
    (fun _ ts e _ => e.texts = textsOf ts) (fun ts e _ => e.texts = textsOf ts)
    (fun ts e _ => e.texts = textsOf ts) (fun ts e _ => e.texts = textsOf ts)
    (fun ts args _ => args.flatMap Expr.texts = textsOf ts)
    (fun ts args _ => args.flatMap Expr.texts = textsOf ts)
    (fun ts arms _ => (arms.flatMap fun arm => arm.1.texts ++ arm.2.texts) = textsOf ts)
    (fun ts e _ => e.texts = textsOf ts)
  case t => exact h
  case left =>
    intro tier tier' ts us left right sign op _ _ hsign _ hleft hright
    simp [Expr.texts_eq (.binary _ _ _), Expr.children, Expr.parts, Expr.ownText, hleft, hright,
      Tier.ownText_sign hsign]
  case assignment =>
    intro ts us target value e _ _ hassign htarget hvalue
    simp [Expr.texts_assignTo? hassign, htarget, hvalue, Token.ownText]
  case braces =>
    intro ts es _ hes
    simp [Expr.texts_ofStatements, hes, Token.ownText]
  case builtinProperty =>
    intro ts property name hproperty
    simp [Expr.texts_sensor, hproperty.textsOf_eq, Token.ownText]
  case property =>
    intro ts property name hproperty
    simp [Expr.texts_sensor, hproperty.textsOf_eq, Token.ownText]
  -- all other rules put the trees together in the order of the tokens
  all_goals
    intros
    simp_all [Expr.texts_eq (.loop _ _), Expr.texts_eq (.binary _ _ _), Expr.texts_eq (.unary _ _),
      Expr.texts_eq (.num _), Expr.texts_eq (.str _), Expr.texts_eq (.bool _), Expr.texts_eq .null,
      Expr.texts_eq (.builtin _), Expr.texts_eq (.load _ _), Expr.texts_eq (.var _),
      Expr.texts_eq (.branch _ _ _), Expr.texts_eq .nop, Expr.texts_call, Expr.texts_select,
      Expr.children, Expr.parts, Expr.ownText, Token.ownText]

end Derivation

/-! ## Section 4: Strings in parsed trees -/

/-- The tokens of a source text end in the only end of file among them. -/
theorem closed_lex (source : String) :
    ∃ before last, (lex source).tokens = before ++ [last] ∧ last.value = .eof ∧
      ∀ t ∈ before, t.value ≠ .eof := by
  refine ⟨_, _, tokens_lex source, rfl, fun t ht => ?_⟩
  obtain ⟨wide, hwide, rfl⟩ := List.mem_map.mp ht
  show wide.value ≠ .eof
  exact value_ne_eof hwide

/-- The strings in the tree of a source text without its comments can be put
    between quotes again. -/
theorem quotable_of_parse {source : String} {e : Expr}
    (h : parse (lex source).tokens [] = .ok e) :
    ∀ text ∈ e.texts, Text.isQuotable text.toList = true := by
  obtain ⟨before, last, htokens, hlast, hbefore⟩ := closed_lex source
  obtain ⟨hready, hstart⟩ := ParseState.ready_start htokens hlast hbefore
  have hsound := Grammar.reads_statements (Grammar.soundInner_level nestingLimit) .eof
  obtain ⟨hnone, rfl⟩ := parse_eq_ok_iff.mp h
  obtain ⟨_, used, hused, hstmts, _⟩ := hsound.reads _ hready trivial hnone
  intro text htext
  have hmem : text ∈ textsOf used := by
    rw [← hstmts.texts_eq, ← Expr.texts_ofStatements]
    exact htext
  -- the tokens that were read are tokens of the source text
  obtain ⟨token, htoken, hown⟩ := List.mem_flatMap.mp hmem
  have hlexed : token ∈ (lex source).tokens.map Located.value := by
    rw [← hstart, hused]
    exact List.mem_append_left _ htoken
  obtain ⟨t, ht, rfl⟩ := List.mem_map.mp hlexed
  cases hvalue : t.value with
  | str text' =>
    rw [hvalue] at hown
    rw [List.mem_singleton.mp hown]
    exact quotable_of_mem_lex ht hvalue
  | _ =>
    rw [hvalue] at hown
    exact absurd hown List.not_mem_nil

end Mlog
