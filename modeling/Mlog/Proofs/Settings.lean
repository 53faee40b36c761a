import Mathlib.Data.List.Induction
import Mathlib.Tactic.IntervalCases
import Mlog.Proofs.Listing
import Mlog.Proofs.ManifestLines

/-! # The settings of a manifest

    What a manifest says is said here about its lines by their places, without
    reading them one after another: which ones are below a `[project]` header,
    and which of those is the last one to set a key.  Reading a manifest line by
    line comes to the same, whatever the layout is.

    * `Below`, `Sets`, `Decides`: lines by their places.
    * `ManifestState.hasValue_after`: reading keeps the value of each key.
    * `IsWritten`, `Fits`: a line `key = "value"`, and what may stand beside it.
    * `manifest_read_back`: the project that a manifest describes. -/

namespace Mlog

open ManifestLine (ofText ofText_of_isHeader ofText_eq_header_iff ofText_eq_setting_iff)

/-! ## Section 1: Lines in their places -/

namespace Manifest

/-- The line with this number is below a `[project]` header: that is the last header
    before it. -/
def Below (lines : List String) (i : Nat) : Prop :=
  ∃ j < i, (∃ header, lines[j]? = some header ∧ IsHeader header "project") ∧
    ∀ k, j < k → k < i → ∀ line, lines[k]? = some line → ∀ title, ¬ IsHeader line title

/-- The line with this number makes a setting of the project. -/
def Sets (lines : List String) (i : Nat) (key value : String) : Prop :=
  Below lines i ∧ ∃ line, lines[i]? = some line ∧ IsSetting line key value

/-- The last line that sets a key sets it to this value. -/
def Decides (lines : List String) (key value : String) : Prop :=
  ∃ i, Sets lines i key value ∧ ∀ j > i, ∀ other, ¬ Sets lines j key other

/-- The value of a key: that of the last line that sets it, or else nothing. -/
def HasValue (lines : List String) (key value : String) : Prop :=
  Decides lines key value ∨ value = "" ∧ ∀ other, ¬ Decides lines key other

section OneMoreLine

variable {lines : List String} {line : String}

/-- Whether a line is below a `[project]` header depends on the lines before it. -/
theorem Below.congr {others : List String} {i : Nat} (h : Below lines i)
    (hsame : ∀ j < i, others[j]? = lines[j]?) : Below others i := by
  obtain ⟨j, hj, ⟨header, hheader, hproject⟩, hbetween⟩ := h
  refine ⟨j, hj, ⟨header, (hsame j hj).trans hheader, hproject⟩, ?_⟩
  intro k hjk hki line hline
  exact hbetween k hjk hki line ((hsame k hki).symm.trans hline)

theorem below_append {i : Nat} (others : List String) (hi : i ≤ lines.length) :
    Below (lines ++ others) i ↔ Below lines i := by
  have hsame : ∀ j < i, (lines ++ others)[j]? = lines[j]? := by
    intro j hj
    exact List.getElem?_append_left (by omega)
  exact ⟨fun h => h.congr fun j hj => (hsame j hj).symm, fun h => h.congr hsame⟩

/-- After a header. -/
theorem below_of_isHeader {title : String} (h : IsHeader line title) :
    Below (lines ++ [line]) (lines.length + 1) ↔ title = "project" := by
  have hlast : (lines ++ [line])[lines.length]? = some line := List.getElem?_concat_length
  constructor
  · rintro ⟨j, hj, ⟨header, hheader, hproject⟩, hbetween⟩
    -- no header comes after the last line, so it is the header that counts
    have hj : j = lines.length := by
      by_contra hne
      exact hbetween lines.length (by omega) (by omega) line hlast title h
    rw [hj, hlast] at hheader
    rw [← Option.some.inj hheader, ← ofText_eq_header_iff, ofText_of_isHeader h] at hproject
    exact ManifestLine.header.inj hproject
  · rintro rfl
    exact ⟨lines.length, by omega, ⟨line, hlast, h⟩, fun k hjk hki => by omega⟩

/-- After a line that is no header. -/
theorem below_of_noHeader (h : ∀ title, ¬ IsHeader line title) :
    Below (lines ++ [line]) (lines.length + 1) ↔ Below lines lines.length := by
  have hlast : (lines ++ [line])[lines.length]? = some line := List.getElem?_concat_length
  rw [← below_append [line] (Nat.le_refl _)]
  constructor
  · rintro ⟨j, hj, ⟨header, hheader, hproject⟩, hbetween⟩
    have hj : j ≠ lines.length := by
      rintro rfl
      rw [hlast] at hheader
      rw [← Option.some.inj hheader] at hproject
      exact h _ hproject
    exact ⟨j, by omega, ⟨header, hheader, hproject⟩, fun k hjk hki => hbetween k hjk (by omega)⟩
  · rintro ⟨j, hj, hheader, hbetween⟩
    refine ⟨j, by omega, hheader, fun k hjk hki other hother => ?_⟩
    by_cases hk : k = lines.length
    · rw [hk, hlast] at hother
      rw [← Option.some.inj hother]
      exact h
    · exact hbetween k hjk (by omega) other hother

/-- One more line makes a setting if it is one below a `[project]` header. -/
theorem sets_concat {i : Nat} {key value : String} :
    Sets (lines ++ [line]) i key value ↔
      Sets lines i key value ∨
        i = lines.length ∧ Below lines lines.length ∧ IsSetting line key value := by
  -- the place is above the new line, at it, or below it
  rcases Nat.lt_trichotomy i lines.length with hlt | rfl | hgt
  · have hsame : (lines ++ [line])[i]? = lines[i]? := List.getElem?_append_left hlt
    unfold Sets
    rw [below_append _ (by omega), hsame]
    simp [Nat.ne_of_lt hlt]
  · unfold Sets
    rw [below_append _ (Nat.le_refl _), List.getElem?_concat_length]
    simp
  · have hnone : (lines ++ [line])[i]? = none := List.getElem?_eq_none (by simp; omega)
    have hnone' : lines[i]? = none := List.getElem?_eq_none (by omega)
    unfold Sets
    rw [hnone, hnone']
    simp [Nat.ne_of_gt hgt]

theorem Sets.lt_length {i : Nat} {key value : String} (h : Sets lines i key value) :
    i < lines.length := by
  obtain ⟨-, line, hline, -⟩ := h
  exact (List.getElem?_eq_some_iff.mp hline).1

/-- A line that sets a key decides it, until the next one. -/
theorem decides_of_isSetting {key value : String} (hbelow : Below lines lines.length)
    (h : IsSetting line key value) : Decides (lines ++ [line]) key value := by
  refine ⟨lines.length, sets_concat.mpr (.inr ⟨rfl, hbelow, h⟩), fun j hj other hother => ?_⟩
  have hlt := hother.lt_length
  simp at hlt
  omega

/-- A line that does not set a key decides nothing about it. -/
theorem decides_concat {key : String}
    (h : Below lines lines.length → ∀ value, ¬ IsSetting line key value) (value : String) :
    Decides (lines ++ [line]) key value ↔ Decides lines key value := by
  have hsame : ∀ i other, Sets (lines ++ [line]) i key other ↔ Sets lines i key other := by
    intro i other
    rw [sets_concat]
    exact or_iff_left fun hlast => h hlast.2.1 other hlast.2.2
  unfold Decides
  simp only [hsame]

theorem hasValue_concat {key : String}
    (h : Below lines lines.length → ∀ value, ¬ IsSetting line key value) (value : String) :
    HasValue (lines ++ [line]) key value ↔ HasValue lines key value := by
  unfold HasValue
  simp only [decides_concat h]

end OneMoreLine

variable {lines : List String}

/-- A key that is set somewhere is decided. -/
theorem Sets.exists_decides {i : Nat} {key value : String} (h : Sets lines i key value) :
    ∃ last, Decides lines key last := by
  by_contra hnone
  have hnext : ∀ i value, Sets lines i key value → ∃ j > i, ∃ other, Sets lines j key other := by
    intro i value hi
    by_contra hlast
    apply hnone
    refine ⟨value, i, hi, fun j hj other hother => ?_⟩
    exact hlast ⟨j, hj, other, hother⟩
  -- so the key is set arbitrarily far down, but there are only so many lines
  have hfar : ∀ n, ∃ j ≥ n, ∃ other, Sets lines j key other := by
    intro n
    induction n with
    | zero => exact ⟨i, Nat.zero_le i, value, h⟩
    | succ n ih =>
      obtain ⟨j, hj, other, hother⟩ := ih
      obtain ⟨k, hk, another, hanother⟩ := hnext j other hother
      exact ⟨k, by omega, another, hanother⟩
  obtain ⟨j, hj, other, hother⟩ := hfar lines.length
  have hlt := hother.lt_length
  omega

theorem Decides.unique {key value other : String} (h : Decides lines key value)
    (h' : Decides lines key other) : value = other := by
  obtain ⟨i, hi, hlast⟩ := h
  obtain ⟨j, hj, hlast'⟩ := h'
  -- of two lines, the upper one is not the last
  rcases Nat.lt_trichotomy i j with hij | rfl | hij
  · exact absurd hj (hlast j hij other)
  · obtain ⟨-, line, hline, hsetting⟩ := hi
    obtain ⟨-, line', hline', hsetting'⟩ := hj
    rw [hline] at hline'
    rw [← Option.some.inj hline'] at hsetting'
    exact (hsetting.unique hsetting').2
  · exact absurd hi (hlast' i hij value)

theorem HasValue.unique {key value other : String} (h : HasValue lines key value)
    (h' : HasValue lines key other) : value = other := by
  rcases h with h | ⟨rfl, hnone⟩
  · rcases h' with h' | ⟨_, hnone'⟩
    · exact h.unique h'
    · exact absurd h (hnone' value)
  · rcases h' with h' | ⟨rfl, _⟩
    · exact absurd h' (hnone other)
    · rfl

/-- A value is empty if the key is not set, or set to nothing. -/
theorem HasValue.eq_empty_iff {key value : String} (h : HasValue lines key value) :
    value = "" ↔ ∀ last, Decides lines key last → last = "" := by
  rcases h with hdecides | ⟨hempty, hnone⟩
  · constructor
    · intro hempty last hlast
      rw [← hdecides.unique hlast, hempty]
    · exact fun hall => hall value hdecides
  · exact ⟨fun _ last hlast => absurd hlast (hnone last), fun _ => hempty⟩

end Manifest

open Manifest
open Text (Surrounded Trimmed Wrapped isSpace wrapped_iff)

/-! ## Section 2: Reading line by line -/

/-- The keys that mean something. -/
inductive Key
  | name | version | entry | output
deriving DecidableEq

def Key.spelling : Key → String
  | name => "name"
  | version => "version"
  | entry => "entry"
  | output => "output"

theorem Key.spelling_inj {key key' : Key} (h : key.spelling = key'.spelling) : key = key' := by
  revert h
  cases key <;> cases key' <;> decide

/-- The setting of a key. -/
def Settings.get (s : Settings) : Key → String
  | .name => s.name
  | .version => s.version
  | .entry => s.entry
  | .output => s.output

theorem Settings.get_assign (s : Settings) (key : Key) (word value : String) :
    (s.assign word value).get key = if word = key.spelling then value else s.get key := by
  unfold assign
  split
  case h_5 hname hversion hentry houtput =>
    rw [if_neg]
    cases key
    · exact hname
    · exact hversion
    · exact hentry
    · exact houtput
  all_goals cases key <;> rfl

/-- How far a manifest has been read after some lines. -/
def ManifestState.after (lines : List String) : ManifestState :=
  (lines.map ofText).foldl ManifestState.next ⟨"", Settings.none⟩

namespace ManifestState

theorem after_concat (lines : List String) (line : String) :
    after (lines ++ [line]) = (after lines).next (ofText line) := by
  simp [after]

theorem title_after (lines : List String) :
    (after lines).title = "project" ↔ Below lines lines.length := by
  -- line by line from the top, as the manifest is read
  induction lines using List.reverseRecOn with
  | nil =>
    constructor
    · exact fun h => absurd h (by decide)
    · rintro ⟨j, hj, -⟩
      exact absurd hj (by simp)
  | append_singleton lines line ih =>
    rw [after_concat, List.length_append, List.length_singleton]
    cases hline : ofText line with
    | header title =>
      rw [below_of_isHeader (ofText_eq_header_iff.mp hline)]
      rfl
    | setting key value =>
      rw [below_of_noHeader (ofText_eq_setting_iff.mp hline).noHeader, ← ih, next]
      split <;> rfl
    | nothing =>
      rw [below_of_noHeader, ← ih]
      · rfl
      -- a line without meaning is no heading
      · intro title htitle
        rw [ofText_of_isHeader htitle] at hline
        exact absurd hline (by simp)

theorem below_iff {lines : List String} {i : Nat} (hi : i ≤ lines.length) :
    Below lines i ↔ (after (lines.take i)).title = "project" := by
  have hlength : (lines.take i).length = i := by simpa using hi
  rw [title_after, hlength]
  conv_lhs => rw [← List.take_append_drop i lines]
  exact below_append _ (Nat.le_of_eq hlength.symm)

/-- The value of a key is what the last line that sets it says. -/
theorem hasValue_after (lines : List String) (key : Key) :
    HasValue lines key.spelling ((after lines).settings.get key) := by
  induction lines using List.reverseRecOn with
  | nil =>
    refine .inr ⟨by cases key <;> rfl, ?_⟩
    rintro other ⟨i, hi, -⟩
    exact absurd hi.lt_length (by simp)
  | append_singleton lines line ih =>
    rw [after_concat]
    cases hline : ofText line with
    | header title =>
      rw [hasValue_concat]
      · exact ih
      · intro _ value hvalue
        exact hvalue.noHeader title (ofText_eq_header_iff.mp hline)
    | nothing =>
      rw [hasValue_concat]
      · exact ih
      · intro _ value hvalue
        rw [ofText_eq_setting_iff.mpr hvalue] at hline
        exact absurd hline (by simp)
    | setting word value =>
      have hsetting := ofText_eq_setting_iff.mp hline
      by_cases hcounts : Below lines lines.length ∧ word = key.spelling
      · obtain ⟨hbelow, rfl⟩ := hcounts
        have hget : ((after lines).next (.setting key.spelling value)).settings.get key =
            value := by
          rw [next, if_pos ((title_after lines).mpr hbelow)]
          exact (Settings.get_assign ..).trans (if_pos rfl)
        rw [hget]
        exact .inl (decides_of_isSetting hbelow hsetting)
      -- in another section, or for another key, the line changes nothing
      · have hget : ((after lines).next (.setting word value)).settings.get key =
            (after lines).settings.get key := by
          rw [next]
          split
          · rename_i htitle
            have hword : word ≠ key.spelling :=
              fun hword => hcounts ⟨(title_after lines).mp htitle, hword⟩
            exact (Settings.get_assign ..).trans (if_neg hword)
          · rfl
        rw [hget, hasValue_concat]
        · exact ih
        · intro hbelow other hother
          exact hcounts ⟨hbelow, (hsetting.unique hother).1⟩

end ManifestState

/-- Reading a text that was put together from lines. -/
theorem readSettings_intercalate {lines : List String} (h : ∀ line ∈ lines, '\n' ∉ line.toList) :
    readSettings ("\n".intercalate lines) = (ManifestState.after lines).settings := by
  by_cases hempty : lines = []
  · subst hempty
    rfl
  · have hlines : Text.lines ("\n".intercalate lines) = lines := by
      have hsplit : (['\n'].intercalate (lines.map String.toList)).splitOn '\n' =
          lines.map String.toList :=
        List.splitOn_intercalate _ (by simpa using h) (by simpa using hempty)
      unfold Text.lines
      rw [String.toList_intercalate]
      show ((['\n'].intercalate (lines.map String.toList)).splitOn '\n').map String.ofList =
        lines
      rw [hsplit]
      simp
    unfold readSettings ManifestState.after
    rw [hlines]

/-! ## Section 3: Any layout -/

/-- A value that can be written between quotes. -/
def IsPlain (value : String) : Prop :=
  value.toList.head? ≠ some '"' ∧ value.toList.getLast? ≠ some '"'

/-- The line is `key = "value"`, maybe with white space around it. -/
def IsWritten (line : String) (key : Key) (value : String) : Prop :=
  Surrounded isSpace line.toList (key.spelling ++ " = \"" ++ value ++ "\"").toList

theorem Key.head?_spelling (key : Key) :
    ∃ c, key.spelling.toList.head? = some c ∧ isSpace c = false ∧ c ≠ '#' ∧ c ≠ '[' := by
  cases key <;> exact ⟨_, rfl, by decide⟩

/-- A key is read off the text before the equals sign. -/
theorem Key.wrapped (key : Key) : Wrapped (key.spelling.toList ++ [' ']) key.spelling.toList := by
  rw [wrapped_iff]
  cases key <;> decide +kernel

/-- A value between quotes is read back as it is. -/
theorem IsPlain.wrapped {value : String} (h : IsPlain value) :
    Wrapped (' ' :: '"' :: value.toList ++ ['"']) value.toList := by
  refine ⟨'"' :: value.toList ++ ['"'], ⟨.of_all [' '] [] (by simp) (by decide) rfl, ?_, ?_⟩,
    ⟨.of_all ['"'] ['"'] (by simp) rfl rfl, ?_, ?_⟩⟩
  · simp [isSpace]
  · rw [List.getLast?_concat]
    simp [isSpace]
  · intro c hc
    exact beq_false_of_ne fun hquote => h.1 (hquote ▸ hc)
  · intro c hc
    exact beq_false_of_ne fun hquote => h.2 (hquote ▸ hc)

theorem IsWritten.isSetting {line value : String} {key : Key} (h : IsWritten line key value)
    (hplain : IsPlain value) : IsSetting line key.spelling value := by
  have htext : (key.spelling ++ " = \"" ++ value ++ "\"").toList =
      (key.spelling.toList ++ [' ']) ++ '=' :: (' ' :: '"' :: value.toList ++ ['"']) := by simp
  obtain ⟨c, hc, hspace, hcomment, hbracket⟩ := key.head?_spelling
  have hne : key.spelling.toList ≠ [] := by
    intro hnil
    simp [hnil] at hc
  -- the key starts the line and the quote ends it; neither is a blank
  have htrimmed : Trimmed isSpace line.toList
      ((key.spelling.toList ++ [' ']) ++ '=' :: (' ' :: '"' :: value.toList ++ ['"'])) := by
    refine ⟨htext ▸ h, ?_, ?_⟩
    · intro d hd
      rw [List.append_assoc, List.head?_append_of_ne_nil _ hne, hc] at hd
      rwa [← Option.some.inj hd]
    · have hquote : ((key.spelling.toList ++ [' ']) ++
          '=' :: (' ' :: '"' :: value.toList ++ ['"'])).getLast? = some '"' := by
        rw [← List.cons_append, ← List.append_assoc, List.getLast?_concat]
      intro d hd
      rw [hquote] at hd
      rw [← Option.some.inj hd]
      decide
  refine ⟨⟨_, _, htrimmed, ?_, ?_, key.wrapped, hplain.wrapped⟩, ?_⟩
  · cases key <;> decide
  · rw [List.head?_append_of_ne_nil _ hne, hc]
    simpa using hcomment
  -- a heading starts with a bracket, and no key does
  · rintro title ⟨inside, hinside, -⟩
    have hhead := congrArg List.head? (htrimmed.unique hinside)
    rw [List.append_assoc, List.head?_append_of_ne_nil _ hne, hc] at hhead
    exact hbracket (Option.some.inj hhead)

/-- A line that may stand below a `[project]` header when some settings are wanted. -/
inductive Fits (wanted : Settings) (line : String) : Prop
  | header (title : String) (h : IsHeader line title)
  | blank (h : ∀ c ∈ line.toList, isSpace c = true)
  | comment (before text : List Char) (h : line.toList = before ++ '#' :: text)
    (hbefore : ∀ c ∈ before, isSpace c = true)
  | setting (key : Key) (h : IsWritten line key (wanted.get key))
  /-- It sets other keys, or nothing. -/
  | other (hheader : ∀ title, ¬ IsHeader line title)
    (h : ∀ (key : Key) (value : String), ¬ IsSetting line key.spelling value)

variable {wanted : Settings} {lines : List String}

/-- Below a `[project]` header such a line sets no key to anything but the wanted value. -/
theorem Fits.value_eq {line value : String} {key : Key} (h : Fits wanted line)
    (hplain : ∀ key, IsPlain (wanted.get key)) (hsetting : IsSetting line key.spelling value) :
    value = wanted.get key := by
  cases h with
  | header title htitle => exact absurd htitle (hsetting.noHeader title)
  | blank hblank =>
    obtain ⟨before, after, ⟨⟨left, right, hline, -⟩, -⟩, -⟩ := hsetting.cut
    have hsign : '=' ∈ line.toList := by simp [hline]
    exact absurd (hblank '=' hsign) (by decide)
  | comment spaces text hline hspaces =>
    obtain ⟨before, after, ⟨⟨left, right, hcut, hleft, -⟩, hfirst, -⟩, -, hcomment, -⟩ :=
      hsetting.cut
    -- the first character that is no white space is the sign of a comment
    have hdrop := congrArg (List.dropWhile isSpace) (hline.symm.trans hcut)
    rw [List.dropWhile_append_of_pos hspaces, List.append_assoc,
      List.dropWhile_append_of_pos hleft, List.dropWhile_cons_of_neg (by decide)] at hdrop
    cases before with
    | nil => exact absurd hdrop (by simp [isSpace])
    | cons c cs =>
      have hc : isSpace c = false := hfirst c rfl
      rw [List.cons_append, List.cons_append, List.dropWhile_cons_of_neg (by simp [hc])] at hdrop
      exact absurd (congrArg some (List.cons.inj hdrop).1.symm) hcomment
  | setting key' hwritten =>
    obtain ⟨hkey, hvalue⟩ := hsetting.unique (hwritten.isSetting (hplain key'))
    rw [hvalue, Key.spelling_inj hkey]
  | other _ hother => exact absurd hsetting (hother key value)

/-- Lines that say what settings are wanted: each of the four is written below a `[project]`
    header, in any order, and every other line there fits.  All else may be anything. -/
structure LaysOut (lines : List String) (wanted : Settings) : Prop where
  plain : ∀ key, IsPlain (wanted.get key)
  written : ∀ key, ∃ i line, lines[i]? = some line ∧ Below lines i ∧
    IsWritten line key (wanted.get key)
  fits : ∀ i line, lines[i]? = some line → Below lines i → Fits wanted line

theorem Settings.ext_get {s s' : Settings} (h : ∀ key, s.get key = s'.get key) : s = s' := by
  obtain ⟨name, version, entry, output⟩ := s
  obtain ⟨name', version', entry', output'⟩ := s'
  have hname : name = name' := h .name
  have hversion : version = version' := h .version
  have hentry : entry = entry' := h .entry
  have houtput : output = output' := h .output
  rw [hname, hversion, hentry, houtput]

/-- Settings are read back from any layout. -/
theorem LaysOut.settings_after (h : LaysOut lines wanted) :
    (ManifestState.after lines).settings = wanted := by
  apply Settings.ext_get
  intro key
  rcases ManifestState.hasValue_after lines key with ⟨i, ⟨hbelow, line, hline, hsetting⟩, -⟩ | hnone
  · exact (h.fits i line hline hbelow).value_eq h.plain hsetting
  · obtain ⟨i, line, hline, hbelow, hwritten⟩ := h.written key
    have hsets : Sets lines i key.spelling (wanted.get key) :=
      ⟨hbelow, line, hline, hwritten.isSetting (h.plain key)⟩
    obtain ⟨last, hlast⟩ := hsets.exists_decides
    exact absurd hlast (hnone.2 last)

/-- The project that lines describe: each of its parts by the last line that sets it. -/
structure Describes (lines : List String) (root : Path) (p : Project) : Prop where
  name : Decides lines "name" p.name
  version : HasValue lines "version" p.version
  entry : ∃ entry, HasValue lines "entry" entry ∧
    p.entry = root.join ⟨if entry = "" then "main.mnd" else entry⟩
  output : ∃ output, HasValue lines "output" output ∧
    p.output = root.join ⟨if output = "" then p.name ++ ".mlog" else output⟩
  root : p.root = root

/-- The project of settings that are the values of their keys. -/
theorem describes_project? {settings : Settings} {root : Path} {p : Project}
    (hvalue : ∀ key, HasValue lines key.spelling (settings.get key))
    (hp : settings.project? root = some p) : Describes lines root p := by
  unfold Settings.project? at hp
  split at hp
  · exact absurd hp (by simp)
  · rename_i hname
    obtain rfl := Option.some.inj hp
    exact
      { name := (hvalue .name).resolve_right fun hnone => hname hnone.1
        version := hvalue .version
        entry := ⟨settings.entry, hvalue .entry, rfl⟩
        output := ⟨settings.output, hvalue .output, rfl⟩
        root := rfl }

theorem readManifest_eq_error_iff {manifest : String} {root : Path} :
    (∃ d, readManifest manifest root = .error d) ↔ (readSettings manifest).name = "" := by
  unfold readManifest Settings.project?
  by_cases hname : (readSettings manifest).name = ""
  · simp [hname]
  · simp [hname]

theorem readManifest_eq_ok_iff {manifest : String} {root : Path} {p : Project} :
    readManifest manifest root = .ok p ↔ (readSettings manifest).project? root = some p := by
  unfold readManifest
  cases (readSettings manifest).project? root with
  | some q => simp
  | none => simp

/-- The settings that are read from a text are the values of their keys. -/
theorem hasValue_readSettings (manifest : String) (key : Key) :
    HasValue (Text.lines manifest) key.spelling ((readSettings manifest).get key) :=
  ManifestState.hasValue_after (Text.lines manifest) key

theorem describes_of_readManifest {manifest : String} {root : Path} {p : Project}
    (h : readManifest manifest root = .ok p) :
    Describes (Text.lines manifest) root p ∧ p.name ≠ "" := by
  have hp := readManifest_eq_ok_iff.mp h
  refine ⟨describes_project? (hasValue_readSettings manifest) hp, ?_⟩
  unfold Settings.project? at hp
  split at hp
  · cases hp
  · obtain rfl := Option.some.inj hp
    assumption

/-- A manifest that describes a project with a name can be read, from any directory. -/
theorem Describes.exists_readManifest {manifest : String} {root : Path} {p : Project}
    (h : Describes (Text.lines manifest) root p) (hname : p.name ≠ "") (root' : Path) :
    ∃ p', readManifest manifest root' = .ok p' := by
  cases hread : readManifest manifest root' with
  | ok p' => exact ⟨p', rfl⟩
  | error d =>
    have hempty := readManifest_eq_error_iff.mp ⟨d, hread⟩
    have hall := (hasValue_readSettings manifest .name).eq_empty_iff.mp hempty
    exact absurd (hall p.name h.name) hname

/-- Manifests are read back, whatever their layout is.  Of any lines, the last one that sets
    a key decides, and reading fails just if no name, or the empty one, is decided. -/
theorem manifest_read_back (hlines : ∀ line ∈ lines, '\n' ∉ line.toList) (root : Path) :
    (∀ wanted, LaysOut lines wanted → wanted.name ≠ "" → wanted.entry ≠ "" →
      wanted.output ≠ "" →
      readManifest ("\n".intercalate lines) root =
        .ok ⟨wanted.name, wanted.version, root.join ⟨wanted.entry⟩, root.join ⟨wanted.output⟩,
          root⟩) ∧
    ((∃ d, readManifest ("\n".intercalate lines) root = .error d) ↔
      ∀ name, Decides lines "name" name → name = "") ∧
    ∀ p, readManifest ("\n".intercalate lines) root = .ok p → Describes lines root p := by
  have hsettings := readSettings_intercalate hlines
  have hvalue := ManifestState.hasValue_after lines
  rw [← hsettings] at hvalue
  refine ⟨?_, ?_, ?_⟩
  · intro wanted h hname hentry houtput
    rw [readManifest_eq_ok_iff, hsettings, h.settings_after]
    simp [Settings.project?, hname, hentry, houtput]
  · rw [readManifest_eq_error_iff]
    exact (hvalue .name).eq_empty_iff
  · intro p hp
    exact describes_project? hvalue (readManifest_eq_ok_iff.mp hp)

/-- Settings in two sections, with lines between them that say nothing. -/
def scattered : List String :=
  ["name = \"stray\"", "\t[ project ]\r", "# name = \"no\"", " name = \" a = [b] # \"c\" \"  ", "",
   "[other]", "entry = \"no.mnd\"", "[project]", "output = \"/out/a.mlog\"", "[dangling = 3",
   "entry = \"src/a.mnd\"\r", "version = \"\""]

def scatteredSettings : Settings := ⟨" a = [b] # \"c\" ", "", "src/a.mnd", "/out/a.mlog"⟩

theorem scattered_laysOut : LaysOut scattered scatteredSettings := by
  have hbelow : ∀ i ≤ 12, (ManifestState.after (scattered.take i)).title = "project" →
      Below scattered i := fun i hi => (ManifestState.below_iff hi).mpr
  have hname : IsWritten " name = \" a = [b] # \"c\" \"  " .name (scatteredSettings.get .name) :=
    Text.Surrounded.of_all [' '] [' ', ' '] (by decide +kernel) (by decide) (by decide)
  have hversion : IsWritten "version = \"\"" .version (scatteredSettings.get .version) :=
    Text.Surrounded.of_all [] [] (by decide +kernel) rfl rfl
  have hentry : IsWritten "entry = \"src/a.mnd\"\r" .entry (scatteredSettings.get .entry) :=
    Text.Surrounded.of_all [] ['\r'] (by decide +kernel) rfl (by decide)
  have houtput : IsWritten "output = \"/out/a.mlog\"" .output (scatteredSettings.get .output) :=
    Text.Surrounded.of_all [] [] (by decide +kernel) rfl rfl
  refine ⟨?_, ?_, ?_⟩
  · intro key
    cases key <;> exact ⟨by decide, by decide⟩
  · intro key
    cases key with
    | name => exact ⟨3, _, rfl, hbelow 3 (by decide) (by decide +kernel), hname⟩
    | version => exact ⟨11, _, rfl, hbelow 11 (by decide) (by decide +kernel), hversion⟩
    | entry => exact ⟨10, _, rfl, hbelow 10 (by decide) (by decide +kernel), hentry⟩
    | output => exact ⟨8, _, rfl, hbelow 8 (by decide) (by decide +kernel), houtput⟩
  · intro i line hline hi
    have hlt : i < 12 := (List.getElem?_eq_some_iff.mp hline).1
    rw [ManifestState.below_iff (Nat.le_of_lt hlt)] at hi
    have hother : IsSetting "[dangling = 3" "[dangling" "3" := by decide +kernel
    interval_cases i <;> obtain rfl := Option.some.inj hline
    -- before the first header
    · exact absurd hi (by decide +kernel)
    · exact absurd hi (by decide +kernel)
    · exact .comment [] _ rfl (by simp)
    · exact .setting .name hname
    · exact .blank (by simp)
    · exact .header "other" (by decide +kernel)
    -- in the section of another header
    · exact absurd hi (by decide +kernel)
    · exact absurd hi (by decide +kernel)
    · exact .setting .output houtput
    · refine .other hother.noHeader fun key value hvalue => ?_
      have hword := (hother.unique hvalue).1
      cases key <;> exact absurd hword (by decide)
    · exact .setting .entry hentry
    · exact .setting .version hversion

theorem scattered_read_back :
    LaysOut scattered scatteredSettings ∧
      readManifest ("\n".intercalate scattered) ⟨"/p"⟩ =
        .ok ⟨" a = [b] # \"c\" ", "", ⟨"/p/src/a.mnd"⟩, ⟨"/out/a.mlog"⟩, ⟨"/p"⟩⟩ := by
  have hlines : ∀ line ∈ scattered, '\n' ∉ line.toList := by decide +kernel
  have hread := (manifest_read_back hlines ⟨"/p"⟩).1 scatteredSettings scattered_laysOut
    (by decide) (by decide) (by decide)
  have hentry : (⟨"/p"⟩ : Path).join ⟨scatteredSettings.entry⟩ = ⟨"/p/src/a.mnd"⟩ := by
    decide +kernel
  have houtput : (⟨"/p"⟩ : Path).join ⟨scatteredSettings.output⟩ = ⟨"/out/a.mlog"⟩ := by
    decide +kernel
  rw [hentry, houtput] at hread
  exact ⟨scattered_laysOut, hread⟩

end Mlog
