import Mlog.File.Disk
import Mlog.Proofs.Listing

/-! # Disks that grow

    What making directories and writing a file do to a disk as a whole.
    Nothing is ever removed, so a path that leads somewhere goes on leading
    there; all that is made on the way to a file are directories that the path
    of the file leads past; and a file is written at the place that its path
    leads to from then on.

    * `Disk.Le d d'`: directories stay directories, and what is there stays
      there.
    * `Disk.OnWay d p l`: following the path `p` leads past the place `l`
      before its last part.
    * `Disk.MakesWay p d d'`: the disk has grown by directories on the way of
      `p` only. -/

namespace Mlog

open Text

/-! ## Section 1: Parts of texts -/

theorem intercalate_append {sep : Char} {parts others : List (List Char)} (hparts : parts ≠ [])
    (hothers : others ≠ []) :
    [sep].intercalate (parts ++ others) =
      [sep].intercalate parts ++ sep :: [sep].intercalate others := by
  induction parts with
  | nil => exact absurd rfl hparts
  | cons part parts ih =>
    cases parts with
    | nil => simp [List.intercalate_cons_of_ne_nil hothers]
    | cons next more =>
      have hrest := ih (List.cons_ne_nil _ _)
      rw [List.cons_append] at hrest
      rw [List.cons_append, List.cons_append, List.intercalate_cons_cons,
        List.intercalate_cons_cons, hrest]
      simp

/-- A text that does not end in the separator has a last part with something
    in it. -/
theorem getLast?_splitOn {sep : Char} {cs : List Char} (hne : cs ≠ [])
    (h : cs.getLast? ≠ some sep) : (cs.splitOn sep).getLast? ≠ some [] := by
  intro hlast
  obtain ⟨parts, hparts⟩ := List.getLast?_eq_some_iff.mp hlast
  have hcs : [sep].intercalate (cs.splitOn sep) = cs := List.intercalate_splitOn sep
  rw [hparts] at hcs
  by_cases hempty : parts = []
  · exact hne (by rw [← hcs, hempty]; rfl)
  · -- an empty last part stands behind a separator
    rw [intercalate_append hempty (by simp)] at hcs
    exact h (by rw [← hcs]; simp)

/-! ## Section 2: The paths above a path -/

open Disk (partsOf)

theorem partsOf_ne_nil (p : Path) : partsOf p ≠ [] := by simp [partsOf]

/-- A path is absolute iff its first part is empty, unless the path is. -/
theorem isAbsolute_iff {p : Path} (hne : p.text ≠ "") :
    p.isAbsolute = true ↔ (partsOf p).head? = some "" := by
  unfold Path.isAbsolute partsOf
  cases htext : p.text.toList with
  | nil => exact absurd (String.toList_eq_nil_iff.mp htext) hne
  | cons c cs =>
    obtain ⟨first, others, hsplit⟩ := List.exists_cons_of_ne_nil (List.splitOn_ne_nil '/' cs)
    by_cases hc : c = '/'
    · simp [List.splitOn_cons_eq_if_modifyHead, hc]
    · simp [List.splitOn_cons_eq_if_modifyHead, hc, hsplit]

/-- Following the second path leads past the first one before its last part;
    or the first one is the empty path or the root. -/
def Path.IsAbove (q p : Path) : Prop :=
  q.text = "" ∨ q.text = "/" ∨ partsOf q <+: (partsOf p).dropLast

/-- A path is above those that go on behind a slash. -/
theorem isAbove_of_append {p q : Path} {rest : List Char}
    (h : p.text.toList = q.text.toList ++ '/' :: rest) : q.IsAbove p := by
  have hparts : partsOf p = partsOf q ++ (rest.splitOn '/').map String.ofList := by
    unfold partsOf
    rw [h, List.splitOn_append_cons_self, List.map_append]
  have hrest : (rest.splitOn '/').map String.ofList ≠ [] := by simp
  refine .inr (.inr ?_)
  rw [hparts, List.dropLast_append_of_ne_nil hrest]
  exact List.prefix_append _ _

theorem text_eq_empty_of_partsOf {p : Path} (h : partsOf p = [""]) : p.text = "" := by
  obtain ⟨part, hsplit, hpart⟩ := List.map_eq_singleton_iff.mp h
  have hchars : ['/'].intercalate (p.text.toList.splitOn '/') = p.text.toList :=
    List.intercalate_splitOn '/'
  rw [hsplit, List.intercalate_singleton] at hchars
  rw [← String.ofList_toList (s := p.text), ← hchars, hpart]

theorem partsOf_empty {p : Path} (h : p.text = "") : partsOf p = [""] := by
  unfold partsOf
  rw [h]
  rfl

theorem partsOf_root {p : Path} (h : p.text = "/") : partsOf p = ["", ""] := by
  unfold partsOf
  rw [h]
  rfl

namespace Path

theorem IsAbove.trans {r q p : Path} (h : r.IsAbove q) (h' : q.IsAbove p) : r.IsAbove p := by
  rcases h with hempty | hroot | hpre
  · exact .inl hempty
  · exact .inr (.inl hroot)
  · rcases h' with hempty | hroot | hpre'
    · -- nothing is above the empty path
      rw [partsOf_empty hempty] at hpre
      exact absurd (List.prefix_nil.mp hpre) (partsOf_ne_nil r)
    · -- only the empty path is above the root
      rw [partsOf_root hroot] at hpre
      obtain ⟨part, parts, hr⟩ := List.exists_cons_of_ne_nil (partsOf_ne_nil r)
      rw [hr] at hpre
      obtain ⟨rfl, hparts⟩ := List.cons_prefix_cons.mp hpre
      rw [List.prefix_nil.mp hparts] at hr
      exact .inl (text_eq_empty_of_partsOf hr)
    · exact .inr (.inr ((hpre.trans (List.dropLast_prefix _)).trans hpre'))

/-- The anchor and the text after it make up the path. -/
theorem anchored_append (cs : List Char) : (anchored cs).1 ++ (anchored cs).2 = cs := by
  fun_cases anchored cs <;> rfl

/-- What is after an anchor at the working directory starts with a slash. -/
theorem anchored_here {cs : List Char} (h : (anchored cs).1 = ['.']) :
    (anchored cs).2 = [] ∨ ∃ rest, (anchored cs).2 = '/' :: rest := by
  fun_cases anchored cs <;> simp_all [anchored]

theorem anchored_cases (cs : List Char) :
    (anchored cs).1 = ['/'] ∨ (anchored cs).1 = ['.'] ∨ (anchored cs).1 = [] := by
  fun_cases anchored cs <;> simp_all

/-- The parts of a path in the order of its text; those behind its last name
    name nothing. -/
theorem split_of_partsBack {p : Path} {name : List Char} {parts : List (List Char)}
    (h : p.partsBack = name :: parts) :
    ∃ dropped, (∀ part ∈ dropped, isFiller part = true) ∧
      (anchored p.text.toList).2.splitOn '/' = parts.reverse ++ name :: dropped := by
  unfold partsBack at h
  generalize (anchored p.text.toList).2.splitOn '/' = all at h ⊢
  have hback := List.takeWhile_append_dropWhile (p := isFiller) (l := all.reverse)
  rw [h] at hback
  refine ⟨(all.reverse.takeWhile isFiller).reverse, fun part hpart => ?_, ?_⟩
  · exact List.all_eq_true.mp List.all_takeWhile part (List.mem_reverse.mp hpart)
  · have hforth := congrArg List.reverse hback
    simpa using hforth.symm

theorem mem_upward {anchor : List Char} {parts : List (List Char)} {q : Path}
    (h : q ∈ upward anchor parts) :
    q ∈ anchorParents anchor ∨
      ∃ inner, inner ≠ [] ∧ inner <:+ parts ∧ q = ofPartsBack anchor inner := by
  induction parts with
  | nil => exact .inl h
  | cons part parts ih =>
    -- all but the first path are above the path without the part
    have hothers : q ∈ upward anchor parts →
        q ∈ anchorParents anchor ∨
          ∃ inner, inner ≠ [] ∧ inner <:+ part :: parts ∧ q = ofPartsBack anchor inner := by
      intro hq
      rcases ih hq with hq | ⟨inner, hne, hinner, hq⟩
      · exact .inl hq
      · exact .inr ⟨inner, hne, hinner.trans (List.suffix_cons _ _), hq⟩
    rw [upward] at h
    split at h
    · exact hothers h
    · rcases List.mem_cons.mp h with rfl | h
      · exact .inr ⟨part :: parts, List.cons_ne_nil _ _, List.suffix_refl _, rfl⟩
      · exact hothers h

theorem isAbove_of_mem_anchorParents {p q : Path}
    (hparts : p.partsBack ≠ []) (h : q ∈ anchorParents (anchored p.text.toList).1) :
    q.IsAbove p := by
  have htext := anchored_append p.text.toList
  rcases anchored_cases p.text.toList with hanchor | hanchor | hanchor
  -- the root is above everything that starts there
  · rw [hanchor, anchorParents, if_neg (by decide), List.mem_singleton] at h
    subst h
    exact .inr (.inl rfl)
  · rw [hanchor, anchorParents, if_pos rfl] at h
    -- a path with parts goes on behind the point with a slash
    rcases anchored_here hanchor with hrest | ⟨rest, hrest⟩
    · refine absurd ?_ hparts
      rw [partsBack, hrest]
      rfl
    · rcases List.mem_cons.mp h with rfl | h
      · have hslash : p.text.toList = ".".toList ++ '/' :: rest := by
          rw [← htext, hanchor, hrest]
          rfl
        exact isAbove_of_append hslash
      · obtain rfl := List.mem_singleton.mp h
        exact .inl rfl
  · rw [hanchor, anchorParents, if_neg (by decide), List.mem_singleton] at h
    subst h
    exact .inl rfl

theorem isAbove_of_mem_parents {p q : Path} (h : q ∈ p.parents) : q.IsAbove p := by
  unfold parents at h
  dsimp only at h
  split at h
  · -- without parts there is at most the empty path above an anchor
    rcases anchored_cases p.text.toList with hanchor | hanchor | hanchor
    · rw [hanchor] at h
      exact absurd h List.not_mem_nil
    · rw [hanchor] at h
      obtain rfl := List.mem_singleton.mp h
      exact .inl rfl
    · rw [hanchor] at h
      exact absurd h List.not_mem_nil
  · rename_i name parts hparts
    rcases mem_upward h with h | ⟨inner, hne, ⟨between, hinner⟩, rfl⟩
    · exact isAbove_of_mem_anchorParents (by simp [hparts]) h
    · -- the parts of the text are those of the upper path and at least one more
      obtain ⟨dropped, _, hsplit⟩ := split_of_partsBack hparts
      rw [← hinner, List.reverse_append, List.append_assoc] at hsplit
      have hrest : ['/'].intercalate ((anchored p.text.toList).2.splitOn '/') =
          (anchored p.text.toList).2 := List.intercalate_splitOn '/'
      have htext := anchored_append p.text.toList
      rw [← hrest, hsplit, intercalate_append (by simpa using hne) (by simp),
        ← List.append_assoc] at htext
      apply isAbove_of_append
      rw [ofPartsBack, String.toList_ofList]
      exact htext.symm

end Path

/-! ## Section 3: What is there stays there -/

theorem exists_of_bind_eq_ok {ε α β : Type} {x : Except ε α} {f : α → Except ε β} {b : β}
    (h : x >>= f = .ok b) : ∃ a, x = .ok a ∧ f a = .ok b := by
  cases x with
  | error e => cases h
  | ok a => exact ⟨a, rfl, h⟩

theorem bind_of_eq_ok {ε α β : Type} {x : Except ε α} {a : α} (h : x = .ok a)
    (f : α → Except ε β) : x >>= f = f a := by
  rw [h]
  rfl

namespace Disk

variable {d d' d'' : Disk} {p q : Path} {l l' : Location} {name : String} {e : Entry}

theorem entry?_put_self (d : Disk) (name : String) (l : Location) (e : Entry) :
    Disk.entry? (d.put (name :: l) e) (name :: l) = some e := by
  unfold entry? put
  simp

theorem entry?_put_of_ne (h : l' ≠ l) : Disk.entry? (d.put l e) l' = d.entry? l' := by
  unfold entry? put
  rw [List.find?_cons_of_neg (by simpa using Ne.symm h), List.find?_filter]
  congr 3
  funext x
  by_cases hx : x.1 = l'
  · simp [hx, h]
  · simp [hx]

/-- Nothing has been removed: directories stay directories, and what is there
    stays there. -/
structure Le (d d' : Disk) : Prop where
  workingDirectory : d'.workingDirectory = d.workingDirectory
  directory : ∀ l, d.entry? l = some .directory → d'.entry? l = some .directory
  isSome : ∀ l, (d.entry? l).isSome → (d'.entry? l).isSome

theorem Le.refl (d : Disk) : d.Le d := ⟨rfl, fun _ => id, fun _ => id⟩

theorem Le.trans (h : d.Le d') (h' : d'.Le d'') : d.Le d'' :=
  ⟨h'.workingDirectory.trans h.workingDirectory, fun l => h'.directory l ∘ h.directory l,
    fun l => h'.isSome l ∘ h.isSome l⟩

/-- Putting something where there is no directory removes nothing. -/
theorem le_put (h : d.entry? (name :: l) ≠ some .directory) : d.Le (d.put (name :: l) e) where
  workingDirectory := rfl
  directory := by
    intro l' hl'
    have hne : l' ≠ name :: l := by
      rintro rfl
      exact h hl'
    rwa [entry?_put_of_ne hne]
  isSome := by
    intro l' hl'
    by_cases heq : l' = name :: l
    · rw [heq, entry?_put_self]
      rfl
    · rwa [entry?_put_of_ne heq]

theorem Le.origin (h : d.Le d') (p : Path) : d'.origin p = d.origin p := by
  unfold Disk.origin
  rw [h.workingDirectory]

/-- A name leads to what is below a directory. -/
theorem step_name (hl : d.entry? l = some .directory) (hne : name ≠ "") (hname : isName name)
    (hthere : (d.entry? (name :: l)).isSome) : d.step l name = .ok (name :: l) := by
  have hnames : name ≠ "." ∧ name ≠ ".." := by simpa [isName] using hname
  simp [step, hl, hne, hnames, hthere]

theorem Le.step (h : d.Le d') {part : String} (hstep : d.step l part = .ok l') :
    d'.step l part = .ok l' := by
  unfold Disk.step at hstep ⊢
  cases hl : d.entry? l with
  | none => simp [hl] at hstep
  | some e =>
    cases e with
    | file content => simp [hl] at hstep
    | directory =>
      rw [hl] at hstep
      rw [h.directory l hl]
      dsimp only at hstep ⊢
      -- a directory is still one, so the part is looked at as before
      split at hstep
      · rwa [if_pos ‹_›]
      · rw [if_neg ‹_›]
        split at hstep
        · rwa [if_pos ‹_›]
        · rw [if_neg ‹_›]
          split at hstep
          -- the name goes down to what has stayed there
          · rename_i hthere
            rwa [if_pos (h.isSome _ hthere)]
          · cases hstep

theorem follow_cons (d : Disk) (l : Location) (part : String) (parts : List String) :
    d.follow l (part :: parts) = d.step l part >>= fun l' => d.follow l' parts := by
  unfold follow
  rw [List.foldlM_cons]

theorem follow_concat {parts : List String} (h : d.follow l parts = .ok l') (part : String) :
    d.follow l (parts ++ [part]) = d.step l' part := by
  unfold follow at h ⊢
  rw [List.foldlM_append, h]
  show List.foldlM d.step l' [part] = _
  rw [List.foldlM_cons]
  cases d.step l' part <;> rfl

/-- A path that leads somewhere goes on leading there. -/
theorem Le.follow (h : d.Le d') {parts : List String} (hfollow : d.follow l parts = .ok l') :
    d'.follow l parts = .ok l' := by
  induction parts generalizing l with
  | nil => exact hfollow
  | cons part parts ih =>
    rw [follow_cons] at hfollow ⊢
    cases hstep : d.step l part with
    | error e =>
      rw [hstep] at hfollow
      cases hfollow
    | ok next =>
      rw [hstep] at hfollow
      rw [h.step hstep]
      exact ih hfollow

/-! ## Section 4: Where paths to be made lead -/

/-- A path that does not end in a slash has a last part. -/
theorem getLast?_partsOf (hne : p.text ≠ "") (hlast : p.text.toList.getLast? ≠ some '/') :
    (partsOf p).getLast? ≠ some "" := by
  have hchars : p.text.toList ≠ [] := fun h => hne (String.toList_eq_nil_iff.mp h)
  have hsplit := getLast?_splitOn hchars hlast
  unfold partsOf
  rw [List.getLast?_map]
  intro h
  obtain ⟨part, hpart, hnil⟩ := Option.map_eq_some_iff.mp h
  obtain rfl := String.ofList_eq_empty_iff.mp hnil
  exact hsplit hpart

/-- The last part of a path that is not empty, and the parts before it. -/
theorem partsOf_of_dropWhile {last : String} {before : List String}
    (h : (partsOf p).reverse.dropWhile (· = "") = last :: before) :
    before.reverse ++ [last] <+: partsOf p ∧ last ≠ "" ∧
      ((partsOf p).getLast? ≠ some "" → before.reverse ++ [last] = partsOf p) := by
  generalize partsOf p = parts at h ⊢
  refine ⟨?_, ?_, ?_⟩
  · have hsuffix : last :: before <:+ parts.reverse := h ▸ List.dropWhile_suffix _
    simpa using List.reverse_prefix.mpr hsuffix
  · have hhead := List.head?_dropWhile_not (· = "") parts.reverse
    simpa [h] using hhead
  · intro hlast
    -- then there is nothing to leave aside
    have hall : parts.reverse.dropWhile (· = "") = parts.reverse := by
      rw [← List.head?_reverse] at hlast
      cases hparts : parts.reverse with
      | nil => rfl
      | cons part others =>
        rw [hparts] at hlast
        exact List.dropWhile_cons_of_neg (by simpa using hlast)
    rw [h] at hall
    simpa using congrArg List.reverse hall

/-- The directory that a path is made in is where all but its last part
    lead. -/
theorem target_eq_ok (h : d.target p = .ok (l, some name)) :
    ∃ parts, parts ++ [name] <+: partsOf p ∧ name ≠ "" ∧ p.text ≠ "" ∧
      d.follow (d.origin p) parts = .ok l ∧ d.entry? l = some .directory ∧
      (p.text.toList.getLast? ≠ some '/' → parts ++ [name] = partsOf p) := by
  by_cases hempty : p.text = ""
  · unfold target at h
    rw [if_pos hempty] at h
    cases h
  · unfold target at h
    rw [if_neg hempty] at h
    dsimp only at h
    -- without a last part the path is the root
    split at h
    · cases h
    · rename_i last before hparts
      obtain ⟨hpre, hne, hall⟩ := partsOf_of_dropWhile hparts
      obtain ⟨inside, hfollow, h⟩ := exists_of_bind_eq_ok h
      -- what the other parts lead to has to be a directory
      split at h
      · rename_i hinside
        obtain ⟨rfl, hname⟩ := Prod.mk.inj (Except.ok.inj h)
        obtain rfl := Option.some.inj hname
        exact ⟨before.reverse, hpre, hne, hempty, hfollow, hinside,
          fun hlast => hall (getLast?_partsOf hempty hlast)⟩
      · cases h
      · cases h

/-! ## Section 5: Making way -/

/-- Following the path leads past the place, before its last part. -/
def OnWay (d : Disk) (p : Path) (l : Location) : Prop :=
  ∃ parts, parts <+: (partsOf p).dropLast ∧ d.follow (d.origin p) parts = .ok l

theorem Le.onWay (h : d.Le d') (hway : d.OnWay p l) : d'.OnWay p l := by
  obtain ⟨parts, hparts, hfollow⟩ := hway
  refine ⟨parts, hparts, ?_⟩
  rw [h.origin]
  exact h.follow hfollow

/-- The disk has grown by directories on the way of the path, and is otherwise
    the same. -/
structure MakesWay (p : Path) (d d' : Disk) : Prop where
  le : d.Le d'
  made : ∀ l, d'.entry? l ≠ d.entry? l →
    d.entry? l = none ∧ d'.entry? l = some .directory ∧ d'.OnWay p l

theorem MakesWay.refl (p : Path) (d : Disk) : MakesWay p d d :=
  ⟨.refl d, fun _ h => absurd rfl h⟩

theorem MakesWay.trans (h : MakesWay p d d') (h' : MakesWay p d' d'') : MakesWay p d d'' where
  le := h.le.trans h'.le
  made := by
    intro l hl
    by_cases hfirst : d'.entry? l = d.entry? l
    · rw [← hfirst] at hl ⊢
      exact h'.made l hl
    · obtain ⟨hnone, hdirectory, hway⟩ := h.made l hfirst
      exact ⟨hnone, h'.le.directory l hdirectory, h'.le.onWay hway⟩

/-- Paths above a path start where it does. -/
theorem origin_of_prefix (hq : q.text ≠ "") (h : partsOf q <+: (partsOf p).dropLast) (d : Disk) :
    d.origin q = d.origin p := by
  have hparts : partsOf q <+: partsOf p := h.trans (List.dropLast_prefix _)
  have hp : p.text ≠ "" := by
    intro hempty
    rw [partsOf_empty hempty] at h
    exact partsOf_ne_nil q (List.prefix_nil.mp h)
  have hhead : (partsOf q).head? = (partsOf p).head? := by
    obtain ⟨part, parts, hq⟩ := List.exists_cons_of_ne_nil (partsOf_ne_nil q)
    obtain ⟨rest, hrest⟩ := hparts
    rw [← hrest, hq]
    rfl
  have habsolute : q.isAbsolute = p.isAbsolute := by
    rw [Bool.eq_iff_iff, isAbsolute_iff hq, isAbsolute_iff hp, hhead]
  unfold origin
  rw [habsolute]

/-- Making a directory above a path makes way for it. -/
theorem makesWay_makeDirectory (habove : q.IsAbove p) (h : d.makeDirectory q = .ok d') :
    MakesWay p d d' := by
  obtain ⟨⟨l, last⟩, htarget, h⟩ := exists_of_bind_eq_ok h
  cases last with
  | none => cases h
  | some name =>
    obtain ⟨parts, hparts, hne, htext, hfollow, hl, _⟩ := target_eq_ok htarget
    dsimp only at h
    split at h
    · rename_i hfree
      obtain rfl := Except.ok.inj h
      -- the root and the empty path cannot be made
      have hpre : partsOf q <+: (partsOf p).dropLast := by
        rcases habove with hempty | hroot | hpre
        · exact absurd hempty htext
        · rw [partsOf_root hroot] at hparts
          have hmem : name ∈ ["", ""] := hparts.subset (List.mem_append_right _ List.mem_cons_self)
          exact absurd (by simpa using hmem) hne
        · exact hpre
      have hle : d.Le (d.put (name :: l) .directory) := le_put (by rw [hfree.2]; simp)
      refine ⟨hle, fun l' hl' => ?_⟩
      have heq : l' = name :: l := by
        refine Classical.byContradiction fun hother => ?_
        exact hl' (entry?_put_of_ne hother)
      subst heq
      refine ⟨hfree.2, entry?_put_self .., parts ++ [name], hparts.trans hpre, ?_⟩
      rw [hle.origin, ← origin_of_prefix htext hpre, follow_concat (hle.follow hfollow)]
      apply step_name (hle.directory l hl) hne hfree.1
      rw [entry?_put_self]
      rfl
    · cases h

theorem bind_apply {α β : Type} (x : StateM Disk α) (f : α → StateM Disk β) (d : Disk) :
    (x >>= f) d = f (x d).1 (x d).2 := rfl

theorem makesWay_ensureDirectory (habove : q.IsAbove p) (d : Disk) :
    MakesWay p d (FileSystem.ensureDirectory (m := StateM Disk) q d).2 := by
  have hmake : (FileSystem.makeDirectory q : StateM Disk _) d =
      attempt (fun d => d.makeDirectory q) d := rfl
  unfold FileSystem.ensureDirectory
  rw [bind_apply, hmake, attempt]
  cases hmade : d.makeDirectory q with
  | ok d' => exact makesWay_makeDirectory habove hmade
  | error e =>
    dsimp only
    rw [bind_apply]
    split <;> exact .refl p d

/-- Making directories above a path makes way for it. -/
theorem makesWay_makeUpward {paths : List Path} (h : ∀ q ∈ paths, q.IsAbove p) (d : Disk) :
    MakesWay p d (FileSystem.makeUpward (m := StateM Disk) paths d).2 := by
  induction paths generalizing d with
  | nil => exact .refl p d
  | cons q above ih =>
    obtain ⟨hq, habove⟩ := List.forall_mem_cons.mp h
    rw [FileSystem.makeUpward]
    split
    · exact .refl p d
    · rw [bind_apply]
      have hfirst := makesWay_ensureDirectory hq d
      generalize FileSystem.ensureDirectory (m := StateM Disk) q d = first at hfirst ⊢
      obtain ⟨result, d₁⟩ := first
      dsimp only at hfirst ⊢
      split
      · -- the directory is made after those above it
        rw [bind_apply]
        have hupward := hfirst.trans (ih habove d₁)
        generalize FileSystem.makeUpward (m := StateM Disk) above d₁ = upper at hupward ⊢
        obtain ⟨result, d₂⟩ := upper
        dsimp only at hupward ⊢
        split
        · exact hupward.trans (makesWay_ensureDirectory hq d₂)
        · exact hupward
      · exact hfirst

/-- Making the directory above a path makes way for it. -/
theorem makesWay_makeDirectories (h : p.parent? = some q) (d : Disk) :
    MakesWay p d (FileSystem.makeDirectories (m := StateM Disk) q d).2 := by
  have hq : q.IsAbove p := Path.isAbove_of_mem_parents (List.mem_of_mem_head? h)
  unfold FileSystem.makeDirectories
  apply makesWay_makeUpward
  intro r hr
  rcases List.mem_cons.mp hr with rfl | hr
  · exact hq
  · exact (Path.isAbove_of_mem_parents hr).trans hq

/-! ## Section 6: Writing -/

theorem find_of_locate (hlocate : d.locate p = .ok l) (hentry : d.entry? l = some e) :
    d.find p = .ok e := by
  unfold find
  rw [bind_of_eq_ok hlocate, hentry]
  rfl

/-- A file is written where its path leads to from then on, and there was no
    directory. -/
theorem write_eq_ok {content : ByteArray} (h : d.write p content = .ok d') :
    ∃ name l, d' = d.put (name :: l) (.file content) ∧ d'.locate p = .ok (name :: l) ∧
      d.entry? (name :: l) ≠ some .directory := by
  obtain ⟨⟨l, last⟩, htarget, h⟩ := exists_of_bind_eq_ok h
  cases last with
  | none => cases h
  | some name =>
    obtain ⟨parts, _, hne, htext, hfollow, hl, hall⟩ := target_eq_ok htarget
    dsimp only at h
    split at h
    · rename_i hfree
      obtain ⟨hname, hslash, hplace⟩ := hfree
      obtain rfl := Except.ok.inj h
      have hle : d.Le (d.put (name :: l) (.file content)) := le_put hplace
      refine ⟨name, l, rfl, ?_, hplace⟩
      unfold locate
      rw [if_neg htext, hle.origin, ← hall hslash, follow_concat (hle.follow hfollow)]
      apply step_name (hle.directory l hl) hne hname
      rw [entry?_put_self]
      rfl
    · cases h

end Disk

end Mlog
