import Mathlib.Data.List.Forall2
import Mlog.Proofs.Growth

/-! # Directories on the way of a path

    Following a path leads past directories, one before each of its parts.  The
    paths above a path are read off its text, and they lead to the same
    directories, from the inside out.

    * `Disk.LeadsTo d q l`: the path leads to the directory at a place.
    * `Disk.passed d p`: the places that a path leads past before its last part.
    * `forall₂_leadsTo_upward`: the paths above a path lead back to the places
      that it leads past.  Parts that name nothing stay in a place, so they make
      no difference for the first place that is looked for. -/

namespace Mlog

open Disk (partsOf)

/-! ## Section 1: Parts of a text -/

theorem not_mem_of_mem_splitOn {sep : Char} {cs part : List Char} (h : part ∈ cs.splitOn sep) :
    sep ∉ part := by
  induction cs generalizing part with
  | nil =>
    rw [List.splitOn_nil, List.mem_singleton] at h
    rw [h]
    exact List.not_mem_nil
  | cons c cs ih =>
    rw [List.splitOn_cons_eq_if_modifyHead] at h
    split at h
    · rcases List.mem_cons.mp h with rfl | h
      · exact List.not_mem_nil
      · exact ih h
    · rename_i hc
      obtain ⟨first, others, hsplit⟩ := List.exists_cons_of_ne_nil (List.splitOn_ne_nil sep cs)
      rw [hsplit] at h ih
      rcases List.mem_cons.mp h with rfl | h
      · intro hmem
        rcases List.mem_cons.mp hmem with rfl | hmem
        · exact hc (by simp)
        · exact ih List.mem_cons_self hmem
      · exact ih (List.mem_cons_of_mem _ h)

/-- Parts of a text are found again in the text that is made of them. -/
theorem splitOn_intercalate_of_subset {sep : Char} {cs : List Char} {parts : List (List Char)}
    (hne : parts ≠ []) (hparts : parts ⊆ cs.splitOn sep) :
    ([sep].intercalate parts).splitOn sep = parts :=
  List.splitOn_intercalate sep (fun _ hpart => not_mem_of_mem_splitOn (hparts hpart)) hne

namespace Path

/-- A text up to a slash has the anchor of the whole text. -/
theorem anchored_prefix {cs before after : List Char}
    (h : (anchored cs).2 = before ++ '/' :: after) :
    anchored ((anchored cs).1 ++ before) = ((anchored cs).1, before) := by
  fun_cases anchored cs with
  | case1 rest => rfl
  | case2 => simp [anchored] at h
  | case3 rest =>
    cases before with
    | nil => rfl
    | cons c before =>
      obtain ⟨rfl, _⟩ := List.cons.inj h
      rfl
  | case4 _ hroot _ hdot =>
    have hcs : (anchored cs).2 = cs := by
      unfold anchored
      split <;> simp_all
    rw [hcs] at h
    -- an anchor of the first part would be one of the whole
    show anchored before = ([], before)
    fun_cases anchored before with
    | case1 rest => exact (hroot _ h).elim
    | case2 => exact (hdot _ h).elim
    | case3 rest => exact (hdot _ h).elim
    | case4 => rfl

/-- The parts of a text, given those after its anchor. -/
theorem splitOn_anchored (cs : List Char) :
    cs.splitOn '/' = (anchored cs).2.splitOn '/' ∨
      cs.splitOn '/' = [] :: (anchored cs).2.splitOn '/' ∨
      ∃ others, cs.splitOn '/' = ['.'] :: others ∧ (anchored cs).2.splitOn '/' = [] :: others := by
  fun_cases anchored cs with
  | case1 rest => exact .inr (.inl (by simp [List.splitOn_cons_eq_if_modifyHead]))
  | case2 => exact .inr (.inr ⟨[], rfl, rfl⟩)
  | case3 rest =>
    exact .inr (.inr ⟨rest.splitOn '/', by simp [List.splitOn_cons_eq_if_modifyHead],
      by simp [List.splitOn_cons_eq_if_modifyHead]⟩)
  | case4 => exact .inl rfl

theorem isFiller_iff {part : List Char} :
    isFiller part = true ↔ String.ofList part = "" ∨ String.ofList part = "." := by
  have hdot : String.ofList part = "." ↔ part = ['.'] :=
    ⟨fun h => String.ofList_injective h, fun h => by rw [h]⟩
  rw [String.ofList_eq_empty_iff, hdot]
  simp [isFiller]

/-- The last part of a path comes first among those that are read backwards. -/
theorem partsBack_eq {p : Path} {name : List Char} {back : List (List Char)}
    (hall : (anchored p.text.toList).2.splitOn '/' = back.reverse ++ [name])
    (hname : isFiller name = false) : p.partsBack = name :: back := by
  unfold partsBack
  rw [hall, List.reverse_append, List.reverse_singleton, List.singleton_append,
    List.reverse_reverse, List.dropWhile_cons_of_neg (by simp [hname])]

theorem isAbsolute_eq_anchored (p : Path) :
    p.isAbsolute = decide ((anchored p.text.toList).1 = ['/']) := by
  unfold isAbsolute
  generalize p.text.toList = cs
  fun_cases anchored cs with
  | case1 rest => rfl
  | case2 => rfl
  | case3 rest => rfl
  | case4 _ hroot =>
    cases cs with
    | nil => rfl
    | cons c cs =>
      have hc : c ≠ '/' := fun hc => hroot cs (by rw [hc])
      simp [hc]

end Path

namespace Disk

variable {d : Disk} {p q : Path} {l l' o : Location} {part : String} {parts others : List String}

/-! ## Section 2: Steps and where they lead -/

theorem follow_append (d : Disk) (l : Location) (parts others : List String) :
    d.follow l (parts ++ others) = d.follow l parts >>= fun l' => d.follow l' others := by
  unfold follow
  rw [List.foldlM_append]

theorem follow_singleton (d : Disk) (l : Location) (part : String) :
    d.follow l [part] = d.step l part := by
  rw [follow_cons]
  cases d.step l part <;> rfl

theorem follow_of_locate (h : d.locate p = .ok l) :
    d.follow (d.origin p) (partsOf p) = .ok l := by
  unfold locate at h
  split at h
  · cases h
  · exact h

/-- There is a next part only in a directory. -/
theorem entry?_of_step (h : d.step l part = .ok l') : d.entry? l = some .directory := by
  unfold step at h
  split at h
  · cases h
  · cases h
  · assumption

theorem entry?_of_follow (h : d.follow l parts = .ok l') (hne : parts ≠ []) :
    d.entry? l = some .directory := by
  obtain ⟨part, others, rfl⟩ := List.exists_cons_of_ne_nil hne
  rw [follow_cons] at h
  obtain ⟨next, hstep, _⟩ := exists_of_bind_eq_ok h
  exact entry?_of_step hstep

/-- A part that names nothing stays where it is. -/
theorem step_filler (hl : d.entry? l = some .directory) (hpart : part = "" ∨ part = ".") :
    d.step l part = .ok l := by
  simp [step, hl, hpart]

/-- A name goes down. -/
theorem eq_of_step (h : d.step l part = .ok l') (hfiller : ¬ (part = "" ∨ part = "."))
    (hup : part ≠ "..") : l' = part :: l ∧ (d.entry? (part :: l)).isSome := by
  unfold step at h
  rw [entry?_of_step h] at h
  dsimp only at h
  rw [if_neg hfiller, if_neg hup] at h
  split at h
  · exact ⟨(Except.ok.inj h).symm, ‹_›⟩
  · cases h

/-- The path leads to the directory at the place.  The empty path leads to the
    working directory. -/
def LeadsTo (d : Disk) (q : Path) (l : Location) : Prop :=
  d.entry? l = some .directory ∧ d.follow (d.origin q) (partsOf q) = .ok l

theorem leadsTo_empty (h : d.entry? d.workingDirectory = some .directory) :
    d.LeadsTo ⟨""⟩ d.workingDirectory := ⟨h, (follow_singleton ..).trans (step_filler h (.inl rfl))⟩

/-- Joining a path to one with something in it puts it behind a slash. -/
theorem LeadsTo.exists_append (h : d.LeadsTo q l) (hq : q.text ≠ "") (hp : p.isAbsolute = false) :
    ∃ before, (q.join p).text.toList = before ++ '/' :: p.text.toList ∧
      d.origin (q.join p) = d.origin q ∧
      d.follow (d.origin q) ((before.splitOn '/').map String.ofList) = .ok l := by
  have hchars : q.text.toList ≠ [] := fun hnil => hq (String.toList_eq_nil_iff.mp hnil)
  obtain ⟨_, hfollow⟩ := h
  by_cases hlast : q.text.toList.getLast? = some '/'
  · obtain ⟨before, hbefore⟩ := List.getLast?_eq_some_iff.mp hlast
    have hjoin : (q.join p).text.toList = before ++ '/' :: p.text.toList := by
      simp [Path.join, hp, hbefore]
    refine ⟨before, hjoin, ?_, ?_⟩
    · simp [origin, Path.isAbsolute, hjoin, hbefore]
    · -- the part behind the slash names nothing
      unfold partsOf at hfollow
      rw [hbefore, List.splitOn_append_cons_self, List.map_append, follow_append] at hfollow
      obtain ⟨inside, hinside, hstep⟩ := exists_of_bind_eq_ok hfollow
      have hsame := (follow_singleton d inside "").symm.trans hstep
      rw [step_filler (entry?_of_step hsame) (.inl rfl)] at hsame
      rw [hinside, hsame]
  · have hjoin : (q.join p).text.toList = q.text.toList ++ '/' :: p.text.toList := by
      simp [Path.join, hp, hlast, hchars]
    refine ⟨q.text.toList, hjoin, ?_, hfollow⟩
    obtain ⟨c, cs, hcs⟩ := List.exists_cons_of_ne_nil hchars
    simp [origin, Path.isAbsolute, hjoin, hcs]

/-- What is below a directory is found from a path that leads there. -/
theorem LeadsTo.locate_join (h : d.LeadsTo q l) (hne : p.text ≠ "") (hp : p.isAbsolute = false) :
    d.locate (q.join p) = d.follow l (partsOf p) := by
  by_cases hq : q.text = ""
  · -- from the working directory
    have hjoin : q.join p = p := by simp [Path.join, hp, hq]
    have hl : l = d.workingDirectory := by
      obtain ⟨_, hfollow⟩ := h
      rw [partsOf_empty hq, follow_singleton] at hfollow
      rw [step_filler (entry?_of_step hfollow) (.inl rfl)] at hfollow
      rw [← Except.ok.inj hfollow]
      simp [origin, Path.isAbsolute, hq]
    rw [hjoin, locate, if_neg hne, hl]
    simp [origin, hp]
  · obtain ⟨before, htext, horigin, hfollow⟩ := h.exists_append hq hp
    have hparts : partsOf (q.join p) = (before.splitOn '/').map String.ofList ++ partsOf p := by
      unfold partsOf
      rw [htext, List.splitOn_append_cons_self, List.map_append]
    have hjoin : (q.join p).text ≠ "" := by
      intro hempty
      rw [hempty] at htext
      exact absurd htext (by simp)
    rw [locate, if_neg hjoin, horigin, hparts, follow_append, hfollow]
    rfl

/-! ## Section 3: The places that a path leads past -/

/-- The places that following parts of a path leads past, the first and the last
    one included. -/
def trail (d : Disk) (l : Location) : List String → List Location
  | [] => [l]
  | part :: parts =>
    match d.step l part with
    | .ok next => l :: d.trail next parts
    | .error _ => [l]

/-- The places that a path leads past before its last part. -/
def passed (d : Disk) (p : Path) : List Location := d.trail (d.origin p) (partsOf p).dropLast

theorem trail_cons (h : d.step l part = .ok l') (parts : List String) :
    d.trail l (part :: parts) = l :: d.trail l' parts := by
  rw [trail, h]

theorem mem_trail (d : Disk) (l : Location) (parts : List String) : l ∈ d.trail l parts := by
  cases parts with
  | nil => exact List.mem_cons_self
  | cons part parts =>
    rw [trail]
    split <;> exact List.mem_cons_self

theorem trail_concat (hfollow : d.follow o parts = .ok l) (hstep : d.step l part = .ok l') :
    d.trail o (parts ++ [part]) = d.trail o parts ++ [l'] := by
  induction parts generalizing o with
  | nil =>
    obtain rfl := Except.ok.inj hfollow
    rw [List.nil_append, trail_cons hstep]
    rfl
  | cons first parts ih =>
    rw [follow_cons] at hfollow
    obtain ⟨next, hnext, hrest⟩ := exists_of_bind_eq_ok hfollow
    rw [List.cons_append, trail_cons hnext, trail_cons hnext, ih hrest]
    rfl

/-- Parts that name nothing before the others make no difference for what is
    looked for. -/
theorem find?_trail_filler (ho : d.entry? o = some .directory) (hpart : part = "" ∨ part = ".")
    (f : Location → Bool) :
    (d.trail o (part :: parts)).reverse.find? f = (d.trail o parts).reverse.find? f := by
  rw [trail_cons (step_filler ho hpart), List.reverse_cons, List.find?_append]
  cases hfound : (d.trail o parts).reverse.find? f with
  | some found => rfl
  | none =>
    have hnone := List.find?_eq_none.mp hfound o (List.mem_reverse.mpr (mem_trail d o parts))
    simpa using hnone

/-! ## Section 4: The paths above a path -/

open Mlog.Path (anchored anchorParents isFiller ofPartsBack upward)

/-- An anchor names nothing besides where the path starts. -/
theorem follow_partsOf (ho : d.entry? o = some .directory) (p : Path) :
    d.follow o (partsOf p) =
      d.follow o (((anchored p.text.toList).2.splitOn '/').map String.ofList) := by
  have hstay : ∀ part others, part = "" ∨ part = "." →
      d.follow o (part :: others) = d.follow o others := by
    intro part others hpart
    rw [follow_cons, step_filler ho hpart]
    rfl
  unfold partsOf
  rcases Path.splitOn_anchored p.text.toList with h | h | ⟨others, h, hothers⟩
  · rw [h]
  · rw [h, List.map_cons]
    exact hstay _ _ (.inl rfl)
  · rw [h, hothers, List.map_cons, List.map_cons, hstay _ _ (.inr rfl), hstay _ _ (.inl rfl)]

section

variable {name : List Char} {back after : List (List Char)}

/-- The anchor and the parts of a path that is made of the first parts of another
    one. -/
theorem anchored_ofPartsBack
    (hall : (anchored p.text.toList).2.splitOn '/' = (name :: back).reverse ++ after)
    (hafter : after ≠ []) :
    anchored (ofPartsBack (anchored p.text.toList).1 (name :: back)).text.toList =
        ((anchored p.text.toList).1, ['/'].intercalate (name :: back).reverse) ∧
      (['/'].intercalate (name :: back).reverse).splitOn '/' = (name :: back).reverse := by
  have hrest : ['/'].intercalate ((anchored p.text.toList).2.splitOn '/') =
      (anchored p.text.toList).2 := List.intercalate_splitOn '/'
  rw [hall, intercalate_append (by simp) hafter] at hrest
  refine ⟨?_, ?_⟩
  · rw [ofPartsBack, String.toList_ofList]
    exact Path.anchored_prefix hrest.symm
  · apply splitOn_intercalate_of_subset (by simp)
    rw [hall]
    exact List.subset_append_left _ _

theorem leadsTo_ofPartsBack
    (hall : (anchored p.text.toList).2.splitOn '/' = (name :: back).reverse ++ after)
    (hafter : after ≠ [])
    (hfollow : d.follow (d.origin p) ((name :: back).reverse.map String.ofList) = .ok l)
    (hl : d.entry? l = some .directory) :
    d.LeadsTo (ofPartsBack (anchored p.text.toList).1 (name :: back)) l := by
  obtain ⟨hanchored, hparts⟩ := anchored_ofPartsBack hall hafter
  have horigin : d.origin (ofPartsBack (anchored p.text.toList).1 (name :: back)) = d.origin p := by
    unfold origin
    rw [Path.isAbsolute_eq_anchored, Path.isAbsolute_eq_anchored, hanchored]
  refine ⟨hl, ?_⟩
  rw [horigin, follow_partsOf (entry?_of_follow hfollow (by simp)), hanchored, hparts]
  exact hfollow

/-- An anchor leads to where the path starts. -/
theorem leadsTo_anchor (ho : d.entry? (d.origin p) = some .directory) :
    ∃ above, List.Forall₂ d.LeadsTo (anchorParents (anchored p.text.toList).1)
        (d.origin p :: above) ∧ ∀ q ∈ above, q = d.origin p := by
  have horigin : d.origin p =
      if (anchored p.text.toList).1 = ['/'] then [] else d.workingDirectory := by
    simp [origin, Path.isAbsolute_eq_anchored]
  rcases Path.anchored_cases p.text.toList with hanchor | hanchor | hanchor
  -- the root
  · rw [hanchor, if_pos rfl] at horigin
    rw [horigin] at ho ⊢
    rw [hanchor]
    refine ⟨[], .cons ⟨ho, ?_⟩ .nil, by simp⟩
    show d.follow [] ["", ""] = _
    rw [follow_cons, step_filler ho (.inl rfl)]
    exact (follow_singleton ..).trans (step_filler ho (.inl rfl))
  -- `.` at the front, with the empty path above it
  · rw [hanchor, if_neg (by decide)] at horigin
    rw [horigin] at ho ⊢
    rw [hanchor]
    refine ⟨[d.workingDirectory], .cons ⟨ho, ?_⟩ (.cons (leadsTo_empty ho) .nil), by simp⟩
    exact (follow_singleton ..).trans (step_filler ho (.inr rfl))
  · rw [hanchor, if_neg (by decide)] at horigin
    rw [horigin] at ho ⊢
    rw [hanchor]
    exact ⟨[], .cons (leadsTo_empty ho) .nil, by simp⟩

/-- The paths above a path lead to the places that its parts lead past. -/
theorem forall₂_leadsTo_upward
    (hall : (anchored p.text.toList).2.splitOn '/' = back.reverse ++ after) (hafter : after ≠ [])
    (hfollow : d.follow (d.origin p) (back.reverse.map String.ofList) = .ok l)
    (hl : d.entry? l = some .directory) :
    ∃ above, List.Forall₂ d.LeadsTo (upward (anchored p.text.toList).1 back) (l :: above) ∧
      ∀ f, (l :: above).find? f =
        (d.trail (d.origin p) (back.reverse.map String.ofList)).reverse.find? f := by
  induction back generalizing after l with
  | nil =>
    obtain rfl := Except.ok.inj hfollow
    obtain ⟨above, habove, hsame⟩ := leadsTo_anchor hl
    refine ⟨above, habove, fun f => ?_⟩
    show (d.origin p :: above).find? f = [d.origin p].find? f
    rw [List.find?_cons, List.find?_cons]
    cases hf : f (d.origin p) with
    | true => rfl
    | false =>
      refine List.find?_eq_none.mpr fun place hplace => ?_
      rw [hsame place hplace, hf]
      simp
  | cons part back ih =>
    have hparts : (part :: back).reverse.map String.ofList =
        back.reverse.map String.ofList ++ [String.ofList part] := by simp
    have hfollow' := hfollow
    rw [hparts, follow_append] at hfollow'
    obtain ⟨inside, hinside, hstep⟩ := exists_of_bind_eq_ok hfollow'
    rw [follow_singleton] at hstep
    have hall' : (anchored p.text.toList).2.splitOn '/' = back.reverse ++ part :: after := by
      simpa using hall
    obtain ⟨above, habove, hfind⟩ := ih hall' (by simp) hinside (entry?_of_step hstep)
    rw [hparts, trail_concat hinside hstep, List.reverse_append, List.reverse_singleton,
      List.singleton_append, upward]
    split
    · -- the part names nothing, so the place is the same
      rename_i hfiller
      rw [step_filler (entry?_of_step hstep) (Path.isFiller_iff.mp hfiller)] at hstep
      obtain rfl := Except.ok.inj hstep
      refine ⟨above, habove, fun f => ?_⟩
      have hfind := hfind f
      rw [List.find?_cons] at hfind ⊢
      rw [List.find?_cons, ← hfind]
      cases f inside <;> rfl
    · refine ⟨inside :: above, .cons (leadsTo_ofPartsBack hall hafter hfollow hl) habove, ?_⟩
      intro f
      rw [List.find?_cons, hfind, List.find?_cons]

/-- Above the first of the paths above a path are the others. -/
theorem parents_of_upward {q : Path} {above : List Path}
    (hall : (anchored p.text.toList).2.splitOn '/' = back.reverse ++ after) (hafter : after ≠ [])
    (h : upward (anchored p.text.toList).1 back = q :: above) : q.parents = above := by
  induction back generalizing after with
  | nil =>
    rcases Path.anchored_cases p.text.toList with hanchor | hanchor | hanchor <;>
      rw [hanchor] at h <;> cases h <;> rfl
  | cons part back ih =>
    have hall' : (anchored p.text.toList).2.splitOn '/' = back.reverse ++ part :: after := by
      simpa using hall
    rw [upward] at h
    split at h
    -- a filler is passed over
    · exact ih hall' (by simp) h
    · rename_i hname
      obtain ⟨rfl, rfl⟩ := List.cons.inj h
      obtain ⟨hanchored, hparts⟩ := anchored_ofPartsBack hall hafter
      have hback : Path.partsBack (ofPartsBack (anchored p.text.toList).1 (part :: back)) =
          part :: back := by
        unfold Path.partsBack
        rw [hanchored, hparts, List.reverse_reverse, List.dropWhile_cons_of_neg hname]
      unfold Path.parents
      rw [hback, hanchored]

theorem parents_parent {q : Path} (h : p.parent? = some q) : q :: q.parents = p.parents := by
  obtain ⟨above, habove⟩ : ∃ above, p.parents = q :: above := by
    unfold Path.parent? at h
    exact List.head?_eq_some_iff.mp h
  rw [habove]
  congr 1
  unfold Path.parents at habove
  dsimp only at habove
  split at habove
  · rcases Path.anchored_cases p.text.toList with hanchor | hanchor | hanchor <;>
      rw [hanchor] at habove <;> cases habove
    rfl
  · rename_i name back hback
    obtain ⟨dropped, _, hsplit⟩ := Path.split_of_partsBack hback
    exact parents_of_upward hsplit (by simp) habove

/-- A path that leads to a file ends in the name of that. -/
theorem splitOn_of_file {content : ByteArray} (hlocate : d.locate p = .ok l)
    (hfile : d.entry? l = some (.file content)) (hback : p.partsBack = name :: back) :
    (anchored p.text.toList).2.splitOn '/' = back.reverse ++ [name] := by
  obtain ⟨dropped, hdropped, hall⟩ := Path.split_of_partsBack hback
  rcases List.eq_nil_or_concat' dropped with rfl | ⟨others, last, rfl⟩
  · exact hall
  · -- what is behind the name names nothing, and so leads to a directory
    have hfollow := follow_of_locate hlocate
    have hparts : back.reverse ++ name :: (others ++ [last]) =
        (back.reverse ++ name :: others) ++ [last] := by simp
    rw [follow_partsOf (entry?_of_follow hfollow (partsOf_ne_nil p)), hall, hparts,
      List.map_append, follow_append] at hfollow
    obtain ⟨inside, _, hlast⟩ := exists_of_bind_eq_ok hfollow
    have hstep : d.step inside (String.ofList last) = .ok l :=
      (follow_singleton ..).symm.trans hlast
    have hinside := entry?_of_step hstep
    rw [step_filler hinside (Path.isFiller_iff.mp (hdropped last (by simp)))] at hstep
    rw [Except.ok.inj hstep, hfile] at hinside
    cases hinside

/-- What is looked for on the way of a path is found from its parts after the
    anchor. -/
theorem find?_passed (ho : d.entry? (d.origin p) = some .directory) (hname : name ≠ [])
    (hall : (anchored p.text.toList).2.splitOn '/' = back.reverse ++ [name]) (f : Location → Bool) :
    (d.passed p).reverse.find? f =
      (d.trail (d.origin p) (back.reverse.map String.ofList)).reverse.find? f := by
  unfold passed partsOf
  rcases Path.splitOn_anchored p.text.toList with h | h | ⟨others, h, hothers⟩
  · rw [h, hall, ← List.map_dropLast, List.dropLast_concat]
  · rw [h, hall, ← List.cons_append, ← List.map_dropLast, List.dropLast_concat, List.map_cons]
    exact find?_trail_filler ho (.inl rfl) f
  · rw [hall] at hothers
    -- the name is not the part in front of the first slash
    cases hfirst : back.reverse with
    | nil =>
      rw [hfirst] at hothers
      exact absurd (List.cons.inj hothers).1 hname
    | cons part between =>
      rw [hfirst, List.cons_append] at hothers
      obtain ⟨rfl, rfl⟩ := List.cons.inj hothers
      rw [h, ← List.cons_append, ← List.map_dropLast, List.dropLast_concat, List.map_cons,
        List.map_cons, find?_trail_filler ho (.inr rfl), find?_trail_filler ho (.inl rfl)]

/-- The paths above a path that leads to something by its name lead to the places
    that it leads past. -/
theorem leadsTo_parents {place : Location} (hlocate : d.locate p = .ok place)
    (hall : (anchored p.text.toList).2.splitOn '/' = back.reverse ++ [name])
    (hfiller : isFiller name = false) (hup : name ≠ ['.', '.']) :
    ∃ l above, place = String.ofList name :: l ∧ List.Forall₂ d.LeadsTo p.parents (l :: above) ∧
      ∀ f, (d.passed p).reverse.find? f = (l :: above).find? f := by
  have hfollow := follow_of_locate hlocate
  have ho := entry?_of_follow hfollow (partsOf_ne_nil p)
  rw [follow_partsOf ho, hall, List.map_append, follow_append] at hfollow
  obtain ⟨l, hl, hlast⟩ := exists_of_bind_eq_ok hfollow
  have hstep : d.step l (String.ofList name) = .ok place :=
    (follow_singleton ..).symm.trans hlast
  obtain ⟨above, habove, hfind⟩ := forall₂_leadsTo_upward hall (by simp) hl (entry?_of_step hstep)
  have hname : ¬ (String.ofList name = "" ∨ String.ofList name = ".") := by
    rw [← Path.isFiller_iff, hfiller]
    simp
  have hup' : String.ofList name ≠ ".." := fun h => hup (String.ofList_injective h)
  refine ⟨l, above, (eq_of_step hstep hname hup').1, ?_, fun f => ?_⟩
  · unfold Path.parents
    rw [Path.partsBack_eq hall hfiller]
    exact habove
  · rw [find?_passed ho (fun hempty => hname (.inl (by rw [hempty]))) hall, hfind]

end

end Disk

end Mlog
