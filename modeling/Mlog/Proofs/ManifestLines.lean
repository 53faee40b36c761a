import Mathlib.Data.List.Basic
import Mlog.Project.Manifest
import Mlog.Proofs.Pieces

/-! # What a line of a manifest is

    A line is read by trimming it, looking at its ends, cutting it and trimming
    the parts.  Here the two kinds of lines that say something are described by
    their texts, and reading finds them exactly.

    * `Text.Trimmed`: a text with the characters of a class that are around it.
    * `IsHeader`: a title in square brackets.
    * `IsSetting`: a key and a value around an equals sign. -/

namespace Mlog

/-! ## Section 1: Trimming -/

namespace Text

/-- A text with characters of a class around it. -/
def Surrounded (p : Char → Bool) (s t : List Char) : Prop :=
  ∃ left right, s = left ++ t ++ right ∧ (∀ c ∈ left, p c = true) ∧ ∀ c ∈ right, p c = true

/-- A text with all the characters of a class that are around it. -/
structure Trimmed (p : Char → Bool) (s t : List Char) : Prop where
  surrounded : Surrounded p s t
  first : ∀ c ∈ t.head?, p c = false
  last : ∀ c ∈ t.getLast?, p c = false

variable {p : Char → Bool} {s t : List Char}

theorem Surrounded.of_all (left right : List Char) (h : s = left ++ t ++ right)
    (hleft : left.all p = true) (hright : right.all p = true) : Surrounded p s t :=
  ⟨left, right, h, List.all_eq_true.mp hleft, List.all_eq_true.mp hright⟩

theorem Trimmed.trimEnds_eq (h : Trimmed p s t) : trimEnds p s = t := by
  obtain ⟨⟨left, right, rfl, hleft, hright⟩, hfirst, hlast⟩ := h
  have hright' : ∀ c ∈ right.reverse, p c = true := by simpa using hright
  unfold trimEnds
  rw [List.append_assoc, List.dropWhile_append_of_pos hleft]
  cases t with
  | nil => simp [List.dropWhile_eq_nil_iff.mpr hright]
  | cons c cs =>
    -- the left end is found in the text, the right end in the reversed text
    have hc : ¬ p c = true := by simp [hfirst c rfl]
    obtain ⟨d, ds, hback⟩ := List.exists_cons_of_ne_nil (List.reverse_ne_nil_iff.mpr
      (List.cons_ne_nil c cs))
    have hd : ¬ p d = true := by
      rw [hlast d (by rw [← List.head?_reverse, hback]; rfl)]
      exact Bool.false_ne_true
    rw [List.cons_append, List.dropWhile_cons_of_neg hc, ← List.cons_append, List.reverse_append,
      List.dropWhile_append_of_pos hright', hback, List.dropWhile_cons_of_neg hd, ← hback,
      List.reverse_reverse]

theorem trimmed_trimEnds (p : Char → Bool) (s : List Char) : Trimmed p s (trimEnds p s) := by
  let rest := s.dropWhile p
  -- what is trimmed on the right is found from that end
  let right := (rest.reverse.takeWhile p).reverse
  have hrest : rest = trimEnds p s ++ right := by
    show rest = (rest.reverse.dropWhile p).reverse ++ (rest.reverse.takeWhile p).reverse
    rw [← List.reverse_append, List.takeWhile_append_dropWhile, List.reverse_reverse]
  have hstop : ∀ (u : List Char) (c : Char), c ∈ (u.dropWhile p).head? → p c = false := by
    intro u c hc
    have hhead := List.head?_dropWhile_not p u
    rwa [hc] at hhead
  refine ⟨⟨s.takeWhile p, right, ?_, ?_, ?_⟩, ?_, ?_⟩
  · rw [List.append_assoc, ← hrest, List.takeWhile_append_dropWhile]
  · exact fun c hc => List.mem_takeWhile_imp hc
  · exact fun c hc => List.mem_takeWhile_imp (List.mem_reverse.mp hc)
  · intro c hc
    apply hstop s c
    have hne : trimEnds p s ≠ [] := by
      intro hnil
      simp [hnil] at hc
    show c ∈ rest.head?
    rwa [hrest, List.head?_append_of_ne_nil _ hne]
  · intro c hc
    apply hstop rest.reverse c
    rwa [← List.getLast?_reverse]

theorem trimEnds_eq_iff : trimEnds p s = t ↔ Trimmed p s t :=
  ⟨fun h => h ▸ trimmed_trimEnds p s, Trimmed.trimEnds_eq⟩

theorem Trimmed.unique {u : List Char} (h : Trimmed p s t) (h' : Trimmed p s u) : t = u :=
  h.trimEnds_eq.symm.trans h'.trimEnds_eq

/-- A text, maybe in double quotes, with white space around. -/
def Wrapped (s t : List Char) : Prop :=
  ∃ u, Trimmed isSpace s u ∧ Trimmed (· == '"') u t

theorem wrapped_iff {text : String} :
    Wrapped s text.toList ↔ trimQuotes (trim (String.ofList s)) = text := by
  unfold trimQuotes trim
  rw [String.toList_ofList, String.toList_ofList]
  constructor
  · rintro ⟨u, hu, htext⟩
    rw [hu.trimEnds_eq, htext.trimEnds_eq, String.ofList_toList]
  · intro htext
    refine ⟨_, trimmed_trimEnds _ _, trimEnds_eq_iff.mp ?_⟩
    rw [← htext, String.toList_ofList]

theorem cutAt_eq_some_iff {sep : Char} {cs before after : List Char} :
    cutAt sep cs = some (before, after) ↔ sep ∉ before ∧ cs = before ++ sep :: after := by
  constructor
  · intro h
    have hcs := eq_append_of_cutAt h
    refine ⟨?_, hcs⟩
    unfold cutAt at h
    split at h
    · exact absurd h (by simp)
    · obtain ⟨hbefore, _⟩ := Prod.mk.inj (Option.some.inj h)
      intro hmem
      rw [← hbefore] at hmem
      simpa using List.mem_takeWhile_imp hmem
  · rintro ⟨hbefore, rfl⟩
    exact cutAt_of_not_mem hbefore after

end Text

/-! ## Section 2: What a line is -/

open Text (Surrounded Trimmed Wrapped isSpace trimEnds_eq_iff trimmed_trimEnds wrapped_iff
  cutAt_eq_some_iff)

/-- The line is a title in square brackets.  There may be white space around the
    brackets and around the title. -/
def IsHeader (line title : String) : Prop :=
  ∃ inside, Trimmed isSpace line.toList ('[' :: inside ++ [']']) ∧
    Trimmed isSpace inside title.toList

/-- The line sets a key to a value: it is neither a comment nor a header, and has
    the key before and the value after its first equals sign. -/
structure IsSetting (line key value : String) : Prop where
  cut : ∃ before after, Trimmed isSpace line.toList (before ++ '=' :: after) ∧ '=' ∉ before ∧
    before.head? ≠ some '#' ∧ Wrapped before key.toList ∧ Wrapped after value.toList
  noHeader : ∀ title, ¬ IsHeader line title

theorem bracketed?_eq_some_iff {cs inside : List Char} :
    bracketed? cs = some inside ↔ cs = '[' :: inside ++ [']'] := by
  unfold bracketed?
  split
  · rename_i rest
    constructor
    · intro h
      split at h
      · rename_i hlast
        obtain ⟨front, rfl⟩ := List.getLast?_eq_some_iff.mp hlast
        rw [List.dropLast_concat] at h
        rw [Option.some.inj h]
        rfl
      · exact absurd h (by simp)
    · intro h
      obtain ⟨_, rfl⟩ := List.cons.inj h
      simp
  · rename_i hbracket
    constructor
    · exact fun h => absurd h (by simp)
    · exact fun h => absurd h (hbracket _)

namespace ManifestLine

variable {line key value title : String}

/-! What a line is, it is read as. -/

theorem ofText_of_isHeader (h : IsHeader line title) : ofText line = .header title := by
  obtain ⟨inside, hinside, htitle⟩ := h
  have hbracket : bracketed? ('[' :: inside ++ [']']) = some inside :=
    bracketed?_eq_some_iff.mpr rfl
  unfold ofText
  simp only [hinside.trimEnds_eq, hbracket]
  rw [if_neg (by simp)]
  unfold Text.trim
  rw [String.toList_ofList, htitle.trimEnds_eq, String.ofList_toList]

theorem ofText_of_isSetting (h : IsSetting line key value) : ofText line = .setting key value := by
  obtain ⟨⟨before, after, hcut, hbefore, hcomment, hkey, hvalue⟩, hheader⟩ := h
  have hbracket : bracketed? (before ++ '=' :: after) = none := by
    rw [Option.eq_none_iff_forall_ne_some]
    intro inside hinside
    -- a text in brackets would make the line a header
    rw [bracketed?_eq_some_iff] at hinside
    rw [hinside] at hcut
    apply hheader (String.ofList (Text.trimEnds isSpace inside))
    refine ⟨inside, hcut, ?_⟩
    rw [String.toList_ofList]
    exact trimmed_trimEnds _ _
  have hhead : (before ++ '=' :: after).head? ≠ some '#' := by
    cases before with
    | nil => simp
    | cons c cs => simpa using hcomment
  unfold ofText
  simp only [hcut.trimEnds_eq, hbracket, cutAt_eq_some_iff.mpr ⟨hbefore, rfl⟩]
  rw [if_neg (by simpa using hhead), wrapped_iff.mp hkey, wrapped_iff.mp hvalue]

/-! What a line is read as, it is. -/

theorem isHeader_of_ofText (h : ofText line = .header title) : IsHeader line title := by
  have hline := trimmed_trimEnds isSpace line.toList
  unfold ofText at h
  simp only at h
  split at h
  · exact absurd h (by simp)
  · split at h
    · rename_i inside hinside
      rw [bracketed?_eq_some_iff.mp hinside] at hline
      refine ⟨inside, hline, trimEnds_eq_iff.mp ?_⟩
      rw [← header.inj h]
      simp [Text.trim]
    · split at h
      · exact absurd h (by simp)
      · exact absurd h (by simp)

theorem isSetting_of_ofText (h : ofText line = .setting key value) : IsSetting line key value := by
  have hline := trimmed_trimEnds isSpace line.toList
  refine ⟨?_, ?_⟩
  · unfold ofText at h
    simp only at h
    split at h
    · exact absurd h (by simp)
    · rename_i hcomment
      split at h
      · exact absurd h (by simp)
      · split at h
        · rename_i before after hcut
          obtain ⟨hbefore, hcut⟩ := cutAt_eq_some_iff.mp hcut
          obtain ⟨hkey, hvalue⟩ := setting.inj h
          -- a line that starts with `#` has been taken for a comment before
          rw [hcut] at hline hcomment
          refine ⟨before, after, hline, hbefore, ?_, wrapped_iff.mpr hkey, wrapped_iff.mpr hvalue⟩
          intro hhead
          simp [hhead] at hcomment
        · exact absurd h (by simp)
  -- a line can be read as a heading and as a setting; it is taken for a heading
  · intro title htitle
    rw [ofText_of_isHeader htitle] at h
    exact absurd h (by simp)

theorem ofText_eq_header_iff : ofText line = .header title ↔ IsHeader line title :=
  ⟨isHeader_of_ofText, ofText_of_isHeader⟩

theorem ofText_eq_setting_iff : ofText line = .setting key value ↔ IsSetting line key value :=
  ⟨isSetting_of_ofText, ofText_of_isSetting⟩

end ManifestLine

open ManifestLine (ofText_eq_header_iff ofText_eq_setting_iff)

theorem IsSetting.unique {line key value key' value' : String} (h : IsSetting line key value)
    (h' : IsSetting line key' value') : key = key' ∧ value = value' := by
  rw [← ofText_eq_setting_iff] at h h'
  exact ManifestLine.setting.inj (h.symm.trans h')

instance (line title : String) : Decidable (IsHeader line title) :=
  decidable_of_iff _ ofText_eq_header_iff

instance (line key value : String) : Decidable (IsSetting line key value) :=
  decidable_of_iff _ ofText_eq_setting_iff

end Mlog
