import Mlog.Command.Run
import Mlog.Proofs.Settings
import Mlog.Proofs.Ways

/-! # What inputs stand for

    Which source file an input stands for, to which project it belongs and where
    its listing goes, said about the places of a disk: the directory that a path
    leads to, the manifest in it, and the nearest manifest on the way of a source
    file.  Finding this out only looks at the disk.

    * `Looks job`: the job leaves the disk as it is, and if it fails, then with
      exit code 1.
    * `Path.IsNamed`: the name of a file, and what stands before it.
    * `Disk.HasProject d l project`: the manifest in a directory describes the
      project.
    * `Disk.StandsFor d p input`: what a path stands for.  `resolve_sound` and
      `resolve_complete` say that this is what is found.
    * `Disk.GoesTo d b output`: where the listing of a build goes. -/

namespace Mlog

/-! ## Section 1: Looking at a disk -/

/-- A part of a run, which may end the run with an outcome. -/
abbrev Job (α : Type) := ExceptT Outcome (StateM Disk) α

/-- What a job comes to on a disk, and the disk after it. -/
def Job.on {α : Type} (job : Job α) (d : Disk) : Except Outcome α × Disk := job.run d

def Job.value {α : Type} (job : Job α) (d : Disk) : Except Outcome α := (job.on d).1

/-- A question that leaves the disk as it is. -/
class Asks {α : Type} (question : StateM Disk α) : Prop where
  same : ∀ d, (question d).2 = d

/-- A job that leaves the disk as it is, and that fails with exit code 1. -/
class Looks {α : Type} (job : Job α) : Prop where
  same : ∀ d, (job.on d).2 = d
  failed : ∀ d outcome, (job.on d).1 = .error outcome → outcome.exitCode = 1

namespace Asks

variable {α β : Type} {question : StateM Disk α}

instance pure (a : α) : Asks (pure a : StateM Disk α) := ⟨fun _ => rfl⟩

theorem ofBind {next : α → StateM Disk β} (hq : Asks question) (hnext : ∀ a, Asks (next a)) :
    Asks (question >>= next) := by
  refine ⟨fun d => ?_⟩
  rw [Disk.bind_apply, (hnext _).same, hq.same]

instance bind {next : α → StateM Disk β} [hq : Asks question] [hnext : ∀ a, Asks (next a)] :
    Asks (question >>= next) := ofBind hq hnext

instance ite {c : Prop} [Decidable c] {other : StateM Disk α} [hq : Asks question]
    [hother : Asks other] : Asks (if c then question else other) := by
  split
  · exact hq
  · exact hother

instance isDirectory (p : Path) : Asks (FileSystem.isDirectory p : StateM Disk Bool) :=
  ⟨fun _ => rfl⟩

instance isThere (p : Path) : Asks (FileSystem.isThere p : StateM Disk Bool) := ⟨fun _ => rfl⟩

instance isSame (p q : Path) : Asks (FileSystem.isSame p q : StateM Disk Bool) := ⟨fun _ => rfl⟩

instance readText (p : Path) : Asks (FileSystem.readText p : StateM Disk _) := ⟨fun _ => rfl⟩

instance readFile (p : Path) : Asks (Mlog.readFile p : StateM Disk _) := by
  unfold Mlog.readFile
  infer_instance

instance load (manifest : Path) : Asks (Project.load manifest : StateM Disk _) := by
  unfold Project.load
  infer_instance

instance firstManifest (directories : List Path) :
    Asks (Mlog.firstManifest directories : StateM Disk _) := by
  induction directories with
  | nil => exact .pure none
  | cons directory others ih =>
    unfold Mlog.firstManifest
    infer_instance

instance manifestFor (source : Path) : Asks (Mlog.manifestFor source : StateM Disk _) := by
  unfold Mlog.manifestFor Project.find
  split <;> infer_instance

end Asks

namespace Job

variable {α β : Type} {job : Job α} {next : α → Job β} {d d' : Disk}

theorem on_bind_ok {a : α} (h : job.on d = (.ok a, d')) : (job >>= next).on d = (next a).on d' := by
  show ExceptT.bindCont next (job.on d).1 (job.on d).2 = _
  rw [h]
  rfl

theorem on_bind_error {outcome : Outcome} (h : job.on d = (.error outcome, d')) :
    (job >>= next).on d = (.error outcome, d') := by
  show ExceptT.bindCont next (job.on d).1 (job.on d).2 = _
  rw [h]
  rfl

@[simp]
theorem value_pure (a : α) (d : Disk) : (pure a : Job α).value d = .ok a := rfl

@[simp]
theorem value_throw (outcome : Outcome) (d : Disk) :
    (throw outcome : Job α).value d = .error outcome := rfl

/-- A question is answered before the rest of a job. -/
theorem value_lift_bind {question : StateM Disk α} [hq : Asks question] :
    Job.value (liftM question >>= next) d = (next (question d).1).value d := by
  have hlift : Job.on (liftM question) d = (.ok (question d).1, d) := by
    show (Except.ok (question d).1, (question d).2) = _
    rw [hq.same]
  unfold Job.value
  rw [on_bind_ok hlift]

end Job

namespace Looks

variable {α β : Type} {job other : Job α}

/-- What such a job comes to. -/
theorem on_eq (hjob : Looks job) (d : Disk) : job.on d = ((job.on d).1, d) := by
  conv => lhs; rw [← Prod.eta (job.on d), hjob.same]

theorem bind_eq_ok_iff {next : α → Job β} (hjob : Looks job) {d : Disk} {b : β} :
    Job.value (job >>= next) d = .ok b ↔ ∃ a, job.value d = .ok a ∧ (next a).value d = .ok b := by
  have heq := hjob.on_eq d
  unfold Job.value
  cases hresult : (job.on d).1 with
  | ok a =>
    rw [hresult] at heq
    rw [Job.on_bind_ok heq]
    simp
  | error outcome =>
    rw [hresult] at heq
    rw [Job.on_bind_error heq]
    simp

instance pure (a : α) : Looks (pure a : Job α) := ⟨fun _ => rfl, fun _ _ h => nomatch h⟩

instance throw (message : String) : Looks (throw (.failed message) : Job α) :=
  ⟨fun _ => rfl, fun _ _ h => Except.error.inj h ▸ rfl⟩

instance lift {question : StateM Disk α} [hq : Asks question] : Looks (liftM question : Job α) :=
  ⟨fun d => hq.same d, fun _ _ h => nomatch h⟩

theorem ofBind {next : α → Job β} (hjob : Looks job) (hnext : ∀ a, Looks (next a)) :
    Looks (job >>= next) := by
  -- either the second part answers, or the first has failed and is the answer
  have hon : ∀ d, (∃ a, (job >>= next).on d = (next a).on d) ∨
      ∃ outcome, (job >>= next).on d = (.error outcome, d) ∧ outcome.exitCode = 1 := by
    intro d
    have heq := hjob.on_eq d
    cases hresult : (job.on d).1 with
    | ok a =>
      rw [hresult] at heq
      exact .inl ⟨a, Job.on_bind_ok heq⟩
    | error outcome =>
      rw [hresult] at heq
      exact .inr ⟨outcome, Job.on_bind_error heq, hjob.failed d outcome hresult⟩
  refine ⟨fun d => ?_, fun d outcome h => ?_⟩
  · rcases hon d with ⟨a, heq⟩ | ⟨outcome, heq, _⟩
    · rw [heq, (hnext a).same]
    · rw [heq]
  · rcases hon d with ⟨a, heq⟩ | ⟨outcome', heq, hcode⟩
    · rw [heq] at h
      exact (hnext a).failed d outcome h
    · rw [heq] at h
      exact Except.error.inj h ▸ hcode

instance bind {next : α → Job β} [hjob : Looks job] [hnext : ∀ a, Looks (next a)] :
    Looks (job >>= next) := ofBind hjob hnext

instance ite {c : Prop} [Decidable c] [hjob : Looks job] [hother : Looks other] :
    Looks (if c then job else other) := by
  split
  · exact hjob
  · exact hother

instance loadProject (manifest : Path) : Looks (Mlog.loadProject manifest : Job Project) := by
  refine ofBind lift fun result => ?_
  split <;> infer_instance

instance resolveDirectory (directory : Path) :
    Looks (Mlog.resolveDirectory directory : Job Input) := by
  unfold Mlog.resolveDirectory
  infer_instance

instance resolveFile (source : Path) : Looks (Mlog.resolveFile source : Job Input) := by
  refine ofBind lift fun manifest => ?_
  split <;> infer_instance

instance resolveInput (input : Path) : Looks (Mlog.resolveInput input : Job Input) := by
  unfold Mlog.resolveInput
  infer_instance

end Looks

/-! ## Section 2: Names of files -/

open Disk (partsOf)

theorem intercalate_concat (sep : Char) (parts : List (List Char)) (last : List Char) :
    [sep].intercalate (parts ++ [last]) = [sep].intercalate (parts ++ [[]]) ++ last := by
  by_cases hparts : parts = []
  · simp [hparts]
  · rw [intercalate_append hparts (by simp), intercalate_append hparts (by simp)]
    simp

namespace Path

/-- The path is that of a file with a name before its extension.  In front of it
    stands the directory, which is nothing or ends in a slash. -/
structure IsNamed (p : Path) (directory stem : List Char) (extension : String) : Prop where
  text : p.text.toList = directory ++ (stem ++ '.' :: extension.toList)
  directory : directory = [] ∨ directory.getLast? = some '/'
  stem : stem ≠ [] ∧ '/' ∉ stem

/-- The anchor and the parts of a path make up its text. -/
theorem anchored_append_parts (cs : List Char) :
    (anchored cs).1 ++ ['/'].intercalate ((anchored cs).2.splitOn '/') = cs := by
  rw [List.intercalate_splitOn, anchored_append]

/-- A name behind a directory is the last part of the text. -/
theorem exists_splitOn_append {directory name : List Char}
    (hdirectory : directory = [] ∨ directory.getLast? = some '/') (hslash : '/' ∉ name) :
    ∃ before, (directory ++ name).splitOn '/' = before ++ [name] := by
  rcases hdirectory with rfl | hlast
  · exact ⟨[], List.splitOn_eq_singleton hslash⟩
  · obtain ⟨start, rfl⟩ := List.getLast?_eq_some_iff.mp hlast
    refine ⟨start.splitOn '/', ?_⟩
    rw [List.append_assoc, List.singleton_append, List.splitOn_append_cons_self,
      List.splitOn_eq_singleton hslash]

/-- It is still the last part without the anchor, which is a filler if it is a part. -/
theorem exists_splitOn_anchored {cs name : List Char} {before : List (List Char)}
    (hsplit : cs.splitOn '/' = before ++ [name]) (hname : isFiller name = false) :
    ∃ parts, (anchored cs).2.splitOn '/' = parts ++ [name] := by
  rcases splitOn_anchored cs with h | h | ⟨others, h, hothers⟩
  · exact ⟨before, h.symm.trans hsplit⟩
  · rw [hsplit] at h
    cases before with
    | nil => exact absurd (List.cons.inj h).2.symm (List.splitOn_ne_nil '/' _)
    | cons first parts => exact ⟨parts, (List.cons.inj h).2.symm⟩
  · rw [hsplit] at h
    cases before with
    | nil =>
      rw [(List.cons.inj h).1] at hname
      cases hname
    | cons first parts => exact ⟨[] :: parts, by rw [hothers, ← (List.cons.inj h).2]; rfl⟩

/-- The last name of a path and what stands in front of it. -/
theorem partsBack_of_append {p : Path} {directory name : List Char}
    (htext : p.text.toList = directory ++ name)
    (hdirectory : directory = [] ∨ directory.getLast? = some '/') (hslash : '/' ∉ name)
    (hname : isFiller name = false) :
    ∃ back, p.partsBack = name :: back ∧
      (anchored p.text.toList).2.splitOn '/' = back.reverse ++ [name] ∧
      directory = (anchored p.text.toList).1 ++ ['/'].intercalate (back.reverse ++ [[]]) := by
  obtain ⟨before, hsplit⟩ := exists_splitOn_append hdirectory hslash
  rw [← htext] at hsplit
  obtain ⟨parts, hparts⟩ := exists_splitOn_anchored hsplit hname
  have hall : (anchored p.text.toList).2.splitOn '/' = parts.reverse.reverse ++ [name] := by
    rw [hparts, List.reverse_reverse]
  refine ⟨parts.reverse, partsBack_eq hall hname, hall, ?_⟩
  -- put together again, the anchor and the parts before the name are the directory
  have hchars := anchored_append_parts p.text.toList
  rw [hall, intercalate_concat, ← List.append_assoc] at hchars
  exact (List.append_cancel_right (hchars.trans htext)).symm

/-- A relative path stays at the end when it is taken from another one. -/
theorem exists_text_join (q : Path) {p : Path} (hp : p.isAbsolute = false) :
    ∃ directory, (q.join p).text.toList = directory ++ p.text.toList ∧
      (directory = [] ∨ directory.getLast? = some '/') := by
  unfold join
  rw [if_neg (by simp [hp])]
  split
  · rename_i hq
    refine ⟨q.text.toList, by simp, ?_⟩
    simpa using hq
  · exact ⟨q.text.toList ++ ['/'], by simp, by simp⟩

/-- What stands in front of the last part of a path. -/
theorem exists_directory {p : Path} {name : List Char} {back : List (List Char)}
    (hall : (anchored p.text.toList).2.splitOn '/' = back.reverse ++ [name]) (hname : name ≠ []) :
    ∃ directory, p.text.toList = directory ++ name ∧
      (directory = [] ∨ directory.getLast? = some '/') := by
  have hrest : ['/'].intercalate ((anchored p.text.toList).2.splitOn '/') =
      (anchored p.text.toList).2 := List.intercalate_splitOn '/'
  have htext := anchored_append p.text.toList
  rw [hall] at hrest
  by_cases hback : back = []
  · rw [hback, List.reverse_nil, List.nil_append, List.intercalate_singleton] at hrest
    rw [← hrest] at htext
    refine ⟨(anchored p.text.toList).1, htext.symm, ?_⟩
    rcases anchored_cases p.text.toList with hanchor | hanchor | hanchor
    · rw [hanchor]
      exact .inr rfl
    · -- behind an anchor at the working directory there is a slash
      rcases anchored_here hanchor with hempty | ⟨rest, hslash⟩
      · exact absurd (hrest.trans hempty) hname
      · have hmem : name ∈ (anchored p.text.toList).2.splitOn '/' := by simp [hall]
        refine absurd ?_ (not_mem_of_mem_splitOn hmem)
        rw [hrest, hslash]
        exact List.mem_cons_self
    · exact .inl hanchor
  · rw [intercalate_append (by simpa using hback) (by simp)] at hrest
    refine ⟨(anchored p.text.toList).1 ++ (['/'].intercalate back.reverse ++ ['/']), ?_, .inr ?_⟩
    · rw [← hrest] at htext
      exact htext.symm.trans (by simp)
    · rw [← List.append_assoc, List.getLast?_concat]

section

variable {p : Path} {directory stem : List Char} {extension : String}

theorem isFiller_append (hstem : stem ≠ []) (rest : List Char) :
    isFiller (stem ++ '.' :: rest) = false := by
  obtain ⟨c, cs, rfl⟩ := List.exists_cons_of_ne_nil hstem
  simp [isFiller]

theorem cutAtLast_eq_some_iff {c : Char} {cs before after : List Char} :
    Text.cutAtLast c cs = some (before, after) ↔ cs = before ++ c :: after ∧ c ∉ after := by
  -- cutting at the last one is cutting the reversed text at the first one
  unfold Text.cutAtLast
  simp only [Option.map_eq_some_iff, Prod.exists, Prod.mk.injEq, Text.cutAt_eq_some_iff]
  constructor
  · rintro ⟨back, front, ⟨hback, hcs⟩, rfl, rfl⟩
    refine ⟨?_, by simpa using hback⟩
    simpa using congrArg List.reverse hcs
  · rintro ⟨rfl, hafter⟩
    exact ⟨after.reverse, before.reverse, by simpa using hafter, by simp, by simp⟩

theorem splitName_eq_some_iff {name rest : List Char} :
    splitName name = some (stem, rest) ↔ name = stem ++ '.' :: rest ∧ '.' ∉ rest ∧ stem ≠ [] := by
  unfold splitName
  constructor
  · intro h
    -- a name that starts with its only dot has no extension
    split at h
    · cases h
    · rename_i hfront
      obtain ⟨hname, hrest⟩ := cutAtLast_eq_some_iff.mp h
      refine ⟨hname, hrest, ?_⟩
      rintro rfl
      exact hfront _ h
  · rintro ⟨hname, hrest, hstem⟩
    rw [cutAtLast_eq_some_iff.mpr ⟨hname, hrest⟩]
    split
    · rename_i hfront
      obtain ⟨rfl, _⟩ := Prod.mk.inj (Option.some.inj hfront)
      exact absurd rfl hstem
    · rfl

theorem IsNamed.partsBack (h : p.IsNamed directory stem extension)
    (hslash : '/' ∉ extension.toList) :
    ∃ back, p.partsBack = (stem ++ '.' :: extension.toList) :: back ∧
      (anchored p.text.toList).2.splitOn '/' = back.reverse ++ [stem ++ '.' :: extension.toList] ∧
      directory = (anchored p.text.toList).1 ++ ['/'].intercalate (back.reverse ++ [[]]) := by
  refine partsBack_of_append h.text h.directory ?_ (isFiller_append h.stem.1 _)
  simp [h.stem.2, hslash]

theorem name?_eq_some_iff {name : List Char} :
    p.name? = some name ↔ (∃ back, p.partsBack = name :: back) ∧ name ≠ ['.', '.'] := by
  unfold name?
  constructor
  · intro h
    split at h
    · rename_i last back hback
      split at h
      · cases h
      · rename_i hup
        obtain rfl := Option.some.inj h
        exact ⟨⟨back, hback⟩, hup⟩
    · cases h
  · rintro ⟨⟨back, hback⟩, hup⟩
    rw [hback]
    exact if_neg hup

/-- A name with an extension of three letters is longer than `..`. -/
theorem append_mnd_ne_up (stem : List Char) : stem ++ ['.', 'm', 'n', 'd'] ≠ ['.', '.'] := by
  intro hup
  have hlength := congrArg List.length hup
  simp at hlength

theorem IsNamed.extension? (h : p.IsNamed directory stem "mnd") :
    p.extension? = some ['m', 'n', 'd'] := by
  obtain ⟨back, hback, _⟩ := h.partsBack (by decide)
  have hname : p.name? = some (stem ++ ['.', 'm', 'n', 'd']) :=
    name?_eq_some_iff.mpr ⟨⟨back, hback⟩, append_mnd_ne_up stem⟩
  unfold Path.extension?
  rw [hname, Option.bind_some, splitName_eq_some_iff.mpr ⟨rfl, by decide, h.stem.1⟩]
  rfl

/-- The path beside a source file, with another extension. -/
theorem IsNamed.withExtension (h : p.IsNamed directory stem "mnd") (extension : String) :
    (stem ≠ ['.'] ∧ (p.withExtension extension).IsNamed directory stem extension) ∨
      (stem = ['.'] ∧ (p.withExtension extension).text.toList = directory ++ ['.', '.']) := by
  -- the dot stays when the extension is dropped, so the name is never a filler
  have hdrop : p.dropExtension.text.toList = directory ++ (stem ++ ['.']) := by
    have htext : p.text.toList = (directory ++ (stem ++ ['.'])) ++ ['m', 'n', 'd'] := by
      simpa using h.text
    unfold dropExtension
    rw [h.extension?]
    dsimp only
    rw [String.toList_ofList, htext]
    apply List.take_left'
    simp only [List.length_append, List.length_cons, List.length_nil]
    omega
  obtain ⟨back, hback, _, hdirectory⟩ := partsBack_of_append hdrop h.directory
    (by simp [h.stem.2]) (isFiller_append h.stem.1 [])
  unfold Path.withExtension setExtension
  rw [hback]
  dsimp only
  split
  -- `..mnd` without its extension is `..`, which is no name
  · rename_i hup
    have hstem : stem = ['.'] := by
      have htwice : stem ++ ['.'] = ['.'] ++ ['.'] := hup
      exact List.append_cancel_right htwice
    refine .inr ⟨hstem, ?_⟩
    rw [hdrop, hstem]
    rfl
  · rename_i hup
    have hstem : stem ≠ ['.'] := by
      rintro rfl
      exact hup rfl
    refine .inl ⟨hstem, ?_, h.directory, h.stem⟩
    rw [splitName_eq_some_iff.mpr ⟨rfl, List.not_mem_nil, h.stem.1⟩, hdirectory]
    simp [ofPartsBack, intercalate_concat _ _ stem]

end

end Path

namespace Disk

variable {d : Disk} {p q : Path} {l : Location} {content : ByteArray}

theorem locate_of_find {e : Entry} (h : d.find p = .ok e) :
    ∃ l, d.locate p = .ok l ∧ d.entry? l = some e := by
  unfold find at h
  obtain ⟨l, hlocate, h⟩ := exists_of_bind_eq_ok h
  refine ⟨l, hlocate, ?_⟩
  split at h
  · rename_i hentry
    rw [hentry, Except.ok.inj h]
  · cases h

/-- A path that leads to a file, and has the extension of source files, is named
    so. -/
theorem isNamed_of_extension? (hfile : d.find p = .ok (.file content))
    (hextension : p.extension? = some ['m', 'n', 'd']) :
    ∃ directory stem, p.IsNamed directory stem "mnd" := by
  obtain ⟨l, hlocate, hentry⟩ := locate_of_find hfile
  obtain ⟨parts, hparts, hmnd⟩ := Option.map_eq_some_iff.mp hextension
  obtain ⟨name, hname, hsplit⟩ := Option.bind_eq_some_iff.mp hparts
  obtain ⟨stem, rest⟩ := parts
  obtain rfl : rest = ['m', 'n', 'd'] := hmnd
  obtain ⟨hstem, _, hne⟩ := Path.splitName_eq_some_iff.mp hsplit
  obtain ⟨⟨back, hback⟩, _⟩ := Path.name?_eq_some_iff.mp hname
  -- a path of a file has no fillers behind the name, so the text ends with the name
  have hall := splitOn_of_file hlocate hentry hback
  have hmem : name ∈ (Path.anchored p.text.toList).2.splitOn '/' := by simp [hall]
  have hslash := not_mem_of_mem_splitOn hmem
  rw [hstem] at hall hslash
  obtain ⟨directory, htext, hdirectory⟩ := Path.exists_directory hall (by simp)
  exact ⟨directory, stem, htext, hdirectory, hne, fun h => hslash (List.mem_append_left _ h)⟩

/-! ## Section 3: Projects -/

/-- Is there a manifest in the directory at a place? -/
def hasManifest (d : Disk) (l : Location) : Bool := (d.entry? (manifestName :: l)).isSome

/-- The innermost place on the way of a path that has a manifest. -/
def nearest? (d : Disk) (p : Path) : Option Location := (d.passed p).reverse.find? d.hasManifest

/-- The manifest in the directory at a place describes the project, and gives it a
    name.  The project's files are taken from a path that leads to that place. -/
def HasProject (d : Disk) (l : Location) (project : Project) : Prop :=
  ∃ content text root, d.entry? (manifestName :: l) = some (.file content) ∧
    String.fromUTF8? content = some text ∧ d.LeadsTo root l ∧
    Describes (Text.lines text) root project ∧ project.name ≠ ""

/-- A path to a directory, with the name of manifests behind it. -/
theorem LeadsTo.find_manifest (h : d.LeadsTo q l) :
    d.find (q.join ⟨manifestName⟩) =
      (d.entry? (manifestName :: l)).elim (.error .notFound) .ok := by
  have hlocate : d.locate (q.join ⟨manifestName⟩) = d.step l manifestName :=
    (h.locate_join (by decide) (by decide)).trans (follow_singleton ..)
  cases hentry : d.entry? (manifestName :: l) with
  | some e =>
    rw [step_name h.1 (by decide) (by decide) (by simp [hentry])] at hlocate
    exact find_of_locate hlocate hentry
  | none =>
    unfold find
    rw [hlocate]
    have hname : manifestName ≠ "" ∧ manifestName ≠ "." ∧ manifestName ≠ ".." := by decide
    simp [step, h.1, hentry, hname]
    rfl

theorem LeadsTo.isThere_manifest (h : d.LeadsTo q l) :
    d.isThere (q.join ⟨manifestName⟩) = d.hasManifest l := by
  unfold isThere hasManifest
  rw [h.find_manifest]
  cases d.entry? (manifestName :: l) <;> rfl

/-- The directory of a manifest is the one that it was looked for in. -/
theorem LeadsTo.parent_manifest (h : d.LeadsTo q l) (hthere : d.hasManifest l = true) :
    ∃ root, (q.join ⟨manifestName⟩).parent? = some root ∧ d.LeadsTo root l := by
  have hlocate : d.locate (q.join ⟨manifestName⟩) = .ok (manifestName :: l) :=
    ((h.locate_join (by decide) (by decide)).trans (follow_singleton ..)).trans
      (step_name h.1 (by decide) (by decide) hthere)
  have hmanifest : Path.isAbsolute ⟨manifestName⟩ = false := by decide
  obtain ⟨directory, htext, hdirectory⟩ := Path.exists_text_join q hmanifest
  obtain ⟨back, _, hall, _⟩ := Path.partsBack_of_append htext hdirectory (by decide) (by decide)
  obtain ⟨l', above, hplace, hparents, _⟩ := leadsTo_parents hlocate hall (by decide) (by decide)
  obtain rfl : l = l' := (List.cons.inj hplace).2
  unfold Path.parent?
  generalize (q.join ⟨manifestName⟩).parents = parents at hparents ⊢
  cases hparents with
  | cons hroot _ => exact ⟨_, rfl, hroot⟩

theorem loadProject_eq_ok_iff {manifest : Path} {project : Project} :
    Job.value (loadProject manifest) d = .ok project ↔
      ∃ text, d.readText manifest = .ok text ∧
        readManifest text (manifest.parent?.getD ⟨"."⟩) = .ok project := by
  have hload : (Project.load manifest : StateM Disk _) d =
      (((d.readText manifest).mapError fun e => Diagnostic.general (unreadable manifest e)).bind
        fun text => readManifest text (manifest.parent?.getD ⟨"."⟩), d) := rfl
  unfold loadProject
  rw [Job.value_lift_bind, hload]
  cases d.readText manifest with
  | error e => simp [Except.mapError, Except.bind]
  | ok text =>
    dsimp only [Except.mapError, Except.bind]
    cases hmanifest : readManifest text (manifest.parent?.getD ⟨"."⟩) with
    | ok project' => simp [hmanifest]
    | error e => simp [hmanifest]

theorem readText_of_find {text : String} (hfile : d.find p = .ok (.file content))
    (htext : String.fromUTF8? content = some text) : d.readText p = .ok text := by
  unfold readText
  rw [bind_of_eq_ok hfile]
  dsimp only
  rw [htext]
  rfl

theorem exists_file_of_readText {text : String} (h : d.readText p = .ok text) :
    ∃ content, d.find p = .ok (.file content) ∧ String.fromUTF8? content = some text := by
  unfold readText at h
  obtain ⟨e, hfind, h⟩ := exists_of_bind_eq_ok h
  cases e with
  | directory => cases h
  | file content =>
    refine ⟨content, hfind, ?_⟩
    dsimp only at h
    split at h
    · rename_i htext
      rw [htext, Except.ok.inj h]
    · cases h

/-- Loading the project in a directory finds one that its manifest describes. -/
theorem LeadsTo.hasProject (h : d.LeadsTo q l) {project : Project}
    (hload : Job.value (loadProject (q.join ⟨manifestName⟩)) d = .ok project) :
    d.HasProject l project := by
  obtain ⟨text, hread, hmanifest⟩ := loadProject_eq_ok_iff.mp hload
  obtain ⟨content, hfile, htext⟩ := exists_file_of_readText hread
  rw [h.find_manifest] at hfile
  cases hentry : d.entry? (manifestName :: l) with
  | none => simp [hentry] at hfile
  | some e =>
    rw [hentry] at hfile
    obtain rfl := Except.ok.inj hfile
    obtain ⟨root, hparent, hroot⟩ := h.parent_manifest (by simp [hasManifest, hentry])
    rw [hparent, Option.getD_some] at hmanifest
    obtain ⟨hdescribes, hname⟩ := describes_of_readManifest hmanifest
    exact ⟨content, text, root, hentry, htext, hroot, hdescribes, hname⟩

theorem HasProject.hasManifest {project : Project} (h : d.HasProject l project) :
    d.hasManifest l = true := by
  obtain ⟨_, _, _, hentry, _⟩ := h
  simp [Disk.hasManifest, hentry]

/-- A project that is there can be loaded. -/
theorem HasProject.exists_loadProject {project : Project} (h : d.HasProject l project)
    (hq : d.LeadsTo q l) :
    ∃ project', Job.value (loadProject (q.join ⟨manifestName⟩)) d = .ok project' := by
  obtain ⟨content, text, root, hentry, htext, _, hdescribes, hname⟩ := h
  have hfile : d.find (q.join ⟨manifestName⟩) = .ok (.file content) := by
    rw [hq.find_manifest, hentry]
    rfl
  obtain ⟨project', hread⟩ :=
    hdescribes.exists_readManifest hname ((q.join ⟨manifestName⟩).parent?.getD ⟨"."⟩)
  exact ⟨project', loadProject_eq_ok_iff.mpr ⟨text, readText_of_find hfile htext, hread⟩⟩

/-- Paths to one directory can be exchanged in front of another path. -/
theorem LeadsTo.locate_join_eq {q' : Path} (h : d.LeadsTo q l) (h' : d.LeadsTo q' l)
    (hp : p.text ≠ "") : d.locate (q.join p) = d.locate (q'.join p) := by
  by_cases habsolute : p.isAbsolute = true
  · simp [Path.join, habsolute]
  · have hrelative : p.isAbsolute = false := by simpa using habsolute
    rw [h.locate_join hp hrelative, h'.locate_join hp hrelative]

/-- The entry of the project in a directory is one place. -/
theorem HasProject.locate_entry {project project' : Project} (h : d.HasProject l project)
    (h' : d.HasProject l project') : d.locate project.entry = d.locate project'.entry := by
  obtain ⟨content, text, root, hentry, htext, hroot, hdescribes, _⟩ := h
  obtain ⟨content', text', root', hentry', htext', hroot', hdescribes', _⟩ := h'
  obtain rfl : content = content' := by
    have hsame := hentry.symm.trans hentry'
    exact Entry.file.inj (Option.some.inj hsame)
  obtain rfl : text = text' := Option.some.inj (htext.symm.trans htext')
  obtain ⟨entry, hvalue, heq⟩ := hdescribes.entry
  obtain ⟨entry', hvalue', heq'⟩ := hdescribes'.entry
  obtain rfl := hvalue.unique hvalue'
  rw [heq, heq']
  apply hroot.locate_join_eq hroot'
  split
  · decide
  · assumption

/-! ## Section 4: Inputs -/

/-- The project that a source file belongs to: the nearest one on its way, if the
    file is the entry of that. -/
inductive BelongsTo (d : Disk) (p : Path) : Option Project → Prop
  | alone : d.nearest? p = none → BelongsTo d p none
  | entry {l : Location} {project : Project} : d.nearest? p = some l → d.HasProject l project →
      d.locate project.entry = d.locate p → BelongsTo d p (some project)
  | other {l : Location} {project : Project} : d.nearest? p = some l → d.HasProject l project →
      d.locate project.entry ≠ d.locate p → BelongsTo d p none

/-- The nearest manifest describes a project, whether the file is its entry or not. -/
theorem BelongsTo.exists_project {owner : Option Project} (h : d.BelongsTo p owner)
    (hsome : d.nearest? p = some l) : ∃ project, d.HasProject l project := by
  cases h with
  | alone hnone =>
    rw [hsome] at hnone
    cases hnone
  | entry hsome' hproject _ | other hsome' hproject _ =>
    obtain rfl := Option.some.inj (hsome.symm.trans hsome')
    exact ⟨_, hproject⟩

/-- What a path stands for: a directory for the entry of the project in it, and a
    source file for itself. -/
inductive StandsFor (d : Disk) (p : Path) : Input → Prop
  | directory {l : Location} {project : Project} : d.locate p = .ok l →
      d.entry? l = some .directory → d.HasProject l project →
      StandsFor d p ⟨project.entry, some project⟩
  | file {directory stem : List Char} {content : ByteArray} {owner : Option Project} :
      p.IsNamed directory stem "mnd" → d.find p = .ok (.file content) → d.BelongsTo p owner →
      StandsFor d p ⟨p, owner⟩

/-- The first manifest in directories that paths lead to. -/
theorem firstManifest_cases {paths : List Path} {places : List Location}
    (h : List.Forall₂ d.LeadsTo paths places) :
    (places.find? d.hasManifest = none ∧ (firstManifest paths : StateM Disk _) d = (none, d)) ∨
      ∃ q l, places.find? d.hasManifest = some l ∧ d.LeadsTo q l ∧
        (firstManifest paths : StateM Disk _) d = (some (q.join ⟨manifestName⟩), d) := by
  induction h with
  | nil => exact .inl ⟨rfl, rfl⟩
  | @cons q l paths places hq _ ih =>
    have hthere : (FileSystem.isThere (q.join ⟨manifestName⟩) : StateM Disk _) d =
        (d.hasManifest l, d) := by rw [← hq.isThere_manifest]; rfl
    rw [firstManifest, bind_apply, hthere, List.find?_cons]
    cases hmanifest : d.hasManifest l with
    | true => exact .inr ⟨q, l, rfl, hq, rfl⟩
    | false => exact ih

/-- The search starts at the parent, whose parents are those of the file. -/
theorem manifestFor_eq_firstManifest (h : p.parents ≠ []) :
    (manifestFor p : StateM Disk _) = firstManifest p.parents := by
  obtain ⟨q, others, hq⟩ := List.exists_cons_of_ne_nil h
  have hparent : p.parent? = some q := by
    unfold Path.parent?
    rw [hq]
    rfl
  unfold manifestFor Project.find
  rw [hparent]
  dsimp only
  rw [parents_parent hparent]

/-- The manifest that is found for a source file is the nearest one on its way. -/
theorem manifestFor_cases {directory stem : List Char} (hnamed : p.IsNamed directory stem "mnd")
    (hfile : d.find p = .ok (.file content)) :
    (d.nearest? p = none ∧ (manifestFor p : StateM Disk _) d = (none, d)) ∨
      ∃ q l, d.nearest? p = some l ∧ d.LeadsTo q l ∧
        (manifestFor p : StateM Disk _) d = (some (q.join ⟨manifestName⟩), d) := by
  obtain ⟨place, hlocate, _⟩ := locate_of_find hfile
  obtain ⟨back, _, hall, _⟩ := hnamed.partsBack (by decide)
  obtain ⟨l, above, _, hparents, hfind⟩ :=
    leadsTo_parents hlocate hall (Path.isFiller_append hnamed.stem.1 _)
      (Path.append_mnd_ne_up stem)
  have hne : p.parents ≠ [] := by
    intro hnil
    rw [hnil] at hparents
    cases hparents
  unfold nearest?
  rw [manifestFor_eq_firstManifest hne, hfind]
  exact firstManifest_cases hparents

/-- The input that is found for a path. -/
def resolve (d : Disk) (p : Path) : Except Outcome Input := Job.value (resolveInput p) d

theorem resolveDirectory_eq_ok_iff {input : Input} :
    Job.value (resolveDirectory p) d = .ok input ↔
      d.isThere (p.join ⟨manifestName⟩) = true ∧
        ∃ project, Job.value (loadProject (p.join ⟨manifestName⟩)) d = .ok project ∧
          ⟨project.entry, some project⟩ = input := by
  unfold resolveDirectory
  rw [Job.value_lift_bind]
  change Job.value (if d.isThere (p.join ⟨manifestName⟩) = true then _ else _) d = _ ↔ _
  split
  · rename_i hthere
    rw [(Looks.loadProject _).bind_eq_ok_iff]
    simp [hthere]
  · rename_i hthere
    simp [hthere]

theorem resolveFile_eq_ok_iff {input : Input} :
    Job.value (resolveFile p) d = .ok input ↔
      match ((manifestFor p : StateM Disk _) d).1 with
      | none => ⟨p, none⟩ = input
      | some manifest => ∃ project, Job.value (loadProject manifest) d = .ok project ∧
          ⟨p, if d.isSame project.entry p then some project else none⟩ = input := by
  unfold resolveFile
  rw [Job.value_lift_bind]
  cases ((manifestFor p : StateM Disk _) d).1 with
  | none => simp
  | some manifest =>
    dsimp only
    rw [(Looks.loadProject _).bind_eq_ok_iff]
    refine exists_congr fun project => and_congr_right fun _ => ?_
    rw [Job.value_lift_bind]
    change Job.value (if d.isSame project.entry p = true then _ else _) d = _ ↔ _
    split <;> simp

theorem resolve_eq_ok_iff {input : Input} :
    d.resolve p = .ok input ↔
      (d.isDirectory p = true ∧ Job.value (resolveDirectory p) d = .ok input) ∨
        (d.isDirectory p = false ∧ p.extension? = some ['m', 'n', 'd'] ∧
          Job.value (resolveFile p) d = .ok input) := by
  unfold resolve resolveInput
  rw [Job.value_lift_bind]
  change Job.value (if d.isDirectory p = true then _ else _) d = _ ↔ _
  cases hdirectory : d.isDirectory p with
  | true => simp
  | false =>
    rw [if_neg (by simp)]
    split
    · simp [*]
    · simp [*]

theorem isThere_of_find {e : Entry} (h : d.find p = .ok e) : d.isThere p = true := by
  unfold isThere
  rw [h]
  rfl

theorem isDirectory_iff : d.isDirectory p = true ↔ d.find p = .ok .directory := by
  unfold isDirectory
  split <;> simp_all

/-- What is there and is no directory is a file. -/
theorem exists_file_of_isThere (hthere : d.isThere p = true)
    (hdirectory : d.isDirectory p = false) : ∃ content, d.find p = .ok (.file content) := by
  cases hfind : d.find p with
  | error e => simp [isThere, hfind, Except.toBool] at hthere
  | ok e =>
    cases e with
    | file content => exact ⟨content, rfl⟩
    | directory => simp [isDirectory_iff.mpr hfind] at hdirectory

theorem isSame_iff (hlocate : d.locate p = .ok l) :
    d.isSame q p = true ↔ d.locate q = d.locate p := by
  unfold isSame
  rw [hlocate]
  cases d.locate q with
  | ok l' => simp
  | error e => simp

theorem StandsFor.isThere {input : Input} (h : d.StandsFor p input) : d.isThere p = true := by
  cases h with
  | directory hlocate hentry _ => exact isThere_of_find (find_of_locate hlocate hentry)
  | file _ hfile _ => exact isThere_of_find hfile

/-- What is found for a path that leads somewhere is what it stands for. -/
theorem resolve_sound {input : Input} (hthere : d.isThere p = true)
    (h : d.resolve p = .ok input) : d.StandsFor p input := by
  rcases resolve_eq_ok_iff.mp h with ⟨hdirectory, h⟩ | ⟨hdirectory, hextension, h⟩
  -- a directory stands for the project that its own manifest describes
  · obtain ⟨l, hlocate, hentry⟩ := locate_of_find (isDirectory_iff.mp hdirectory)
    obtain ⟨_, project, hload, rfl⟩ := resolveDirectory_eq_ok_iff.mp h
    have hleads : d.LeadsTo p l := ⟨hentry, follow_of_locate hlocate⟩
    exact .directory hlocate hentry (hleads.hasProject hload)
  -- a source file stands for itself, and its manifest tells whether for a project too
  · obtain ⟨content, hfile⟩ := exists_file_of_isThere hthere hdirectory
    obtain ⟨directory, stem, hnamed⟩ := isNamed_of_extension? hfile hextension
    obtain ⟨place, hlocate, _⟩ := locate_of_find hfile
    have h := resolveFile_eq_ok_iff.mp h
    rcases manifestFor_cases hnamed hfile with ⟨hnone, hmanifest⟩ | ⟨q, l, hsome, hq, hmanifest⟩
    · rw [hmanifest] at h
      obtain rfl := h
      exact .file hnamed hfile (.alone hnone)
    · rw [hmanifest] at h
      obtain ⟨project, hload, rfl⟩ := h
      have hproject := hq.hasProject hload
      refine .file hnamed hfile ?_
      split
      · rename_i hsame
        exact .entry hsome hproject ((isSame_iff hlocate).mp hsame)
      · rename_i hsame
        exact .other hsome hproject fun heq => hsame ((isSame_iff hlocate).mpr heq)

/-- An input with a text is found only for a path that leads somewhere. -/
theorem standsFor_of_readText {input : Input} {text : String} (h : d.resolve p = .ok input)
    (hread : d.readText input.entry = .ok text) : d.StandsFor p input := by
  refine resolve_sound ?_ h
  rcases resolve_eq_ok_iff.mp h with ⟨hdirectory, _⟩ | ⟨_, _, h⟩
  · exact isThere_of_find (isDirectory_iff.mp hdirectory)
  · have hentry : input.entry = p := by
      have h := resolveFile_eq_ok_iff.mp h
      split at h
      · rw [← h]
      · obtain ⟨_, _, rfl⟩ := h
        rfl
    rw [hentry] at hread
    obtain ⟨content, hfile, _⟩ := exists_file_of_readText hread
    exact isThere_of_find hfile

/-- For a path that stands for something, an input is found. -/
theorem resolve_complete {input : Input} (h : d.StandsFor p input) :
    ∃ input', d.resolve p = .ok input' := by
  cases h with
  | @directory l project hlocate hentry hproject =>
    have hleads : d.LeadsTo p l := ⟨hentry, follow_of_locate hlocate⟩
    have hdirectory := isDirectory_iff.mpr (find_of_locate hlocate hentry)
    obtain ⟨project', hload⟩ := hproject.exists_loadProject hleads
    have hthere : d.isThere (p.join ⟨manifestName⟩) = true := by
      rw [hleads.isThere_manifest, hproject.hasManifest]
    exact ⟨_, resolve_eq_ok_iff.mpr (.inl ⟨hdirectory,
      resolveDirectory_eq_ok_iff.mpr ⟨hthere, project', hload, rfl⟩⟩)⟩
  | @file directory stem content owner hnamed hfile howner =>
    have hdirectory : d.isDirectory p = false := by
      rw [← Bool.not_eq_true, isDirectory_iff, hfile]
      simp
    suffices hfound : ∃ input', Job.value (resolveFile p) d = .ok input' by
      obtain ⟨input', hfound⟩ := hfound
      exact ⟨input', resolve_eq_ok_iff.mpr (.inr ⟨hdirectory, hnamed.extension?, hfound⟩)⟩
    rcases manifestFor_cases hnamed hfile with ⟨_, hmanifest⟩ | ⟨q, l, hsome, hq, hmanifest⟩
    · exact ⟨⟨p, none⟩, by rw [resolveFile_eq_ok_iff, hmanifest]⟩
    · obtain ⟨project, hproject⟩ := howner.exists_project hsome
      obtain ⟨project', hload⟩ := hproject.exists_loadProject hq
      exact ⟨_, by rw [resolveFile_eq_ok_iff, hmanifest]; exact ⟨project', hload, rfl⟩⟩

/-- Whatever a path stands for, it has one source text. -/
theorem StandsFor.readText_eq {input input' : Input} (h : d.StandsFor p input)
    (h' : d.StandsFor p input') : d.readText input.entry = d.readText input'.entry := by
  cases h with
  | directory hlocate hentry hproject =>
    cases h' with
    | directory hlocate' _ hproject' =>
      obtain rfl := Except.ok.inj (hlocate.symm.trans hlocate')
      unfold readText find
      rw [hproject.locate_entry hproject']
    | file _ hfile _ =>
      rw [find_of_locate hlocate hentry] at hfile
      cases hfile
  | file _ hfile _ =>
    cases h' with
    | directory hlocate hentry _ =>
      rw [find_of_locate hlocate hentry] at hfile
      cases hfile
    | file _ _ _ => rfl

/-! ## Section 5: Outputs -/

/-- Where the listing of a build goes: to the path that was asked for, to the
    output of the project, or beside the source file. -/
inductive GoesTo (d : Disk) (b : BuildArguments) : Path → Prop
  | asked {output : Path} : b.output = some output → GoesTo d b output
  | project {entry : Path} {project : Project} : b.output = none →
      d.StandsFor b.input ⟨entry, some project⟩ → GoesTo d b project.output
  | beside {entry output : Path} {directory stem : List Char} : b.output = none →
      d.StandsFor b.input ⟨entry, none⟩ → b.input.IsNamed directory stem "mnd" → stem ≠ ['.'] →
      output.IsNamed directory stem "mlog" → GoesTo d b output
  /-- A source file `..mnd` is the exception: without its extension it is `..`. -/
  | above {entry output : Path} {directory : List Char} : b.output = none →
      d.StandsFor b.input ⟨entry, none⟩ → b.input.IsNamed directory ['.'] "mnd" →
      output.text.toList = directory ++ ['.', '.'] → GoesTo d b output

theorem goesTo_output {b : BuildArguments} {input : Input} (h : d.StandsFor b.input input) :
    d.GoesTo b (b.output.getD (defaultOutput b input)) := by
  cases houtput : b.output with
  | some output => exact .asked houtput
  | none =>
    rw [Option.getD_none]
    obtain ⟨entry, owner⟩ := input
    cases owner with
    | some project => exact .project houtput h
    | none =>
      cases h with
      | @file directory stem _ _ hnamed hfile howner =>
        rcases hnamed.withExtension "mlog" with ⟨hstem, hnamed'⟩ | ⟨rfl, htext⟩
        · exact .beside houtput (.file hnamed hfile howner) hnamed hstem hnamed'
        · exact .above houtput (.file hnamed hfile howner) hnamed htext

end Disk

end Mlog
