import Mlog.Proofs.Inputs

/-! # What a run of the command line touches

    Finding an input, reading it and compiling it only look at the disk.  Only
    a build that has a listing to write changes it: directories are made on the
    way to the output, and the output is written.

    * `Disk.Lists d p emitEnd text`: the path stands for an input whose source
      text compiles to the listing.
    * `Disk.Wrote`: what a build may have changed, and what it has written.
    * `runs_touch_output_only`: all that for every build and every check, and
      that a check agrees with a build that prints. -/

namespace Mlog

/-! ## Section 1: Source texts of inputs -/

namespace Disk

variable {d d' : Disk} {p : Path} {input : Input} {source text : String} {emitEnd : Bool}

/-- The path stands for an input with that source text. -/
def Reads (d : Disk) (p : Path) (source : String) : Prop :=
  ∃ input, d.StandsFor p input ∧ d.readText input.entry = .ok source

/-- The path stands for an input whose source text compiles to the listing. -/
def Lists (d : Disk) (p : Path) (emitEnd : Bool) (text : String) : Prop :=
  ∃ source, d.Reads p source ∧ compile emitEnd source = .ok text

theorem Reads.unique {source' : String} (h : d.Reads p source) (h' : d.Reads p source') :
    source' = source := by
  obtain ⟨input, hstands, hread⟩ := h
  obtain ⟨input', hstands', hread'⟩ := h'
  rw [hstands'.readText_eq hstands, hread] at hread'
  exact (Except.ok.inj hread').symm

theorem Lists.unique {text' : String} (h : d.Lists p emitEnd text)
    (h' : d.Lists p emitEnd text') : text' = text := by
  obtain ⟨source, hreads, htext⟩ := h
  obtain ⟨source', hreads', htext'⟩ := h'
  obtain rfl := hreads.unique hreads'
  exact Except.ok.inj (htext'.symm.trans htext)

theorem on_readSource_ok (h : d.readText input.entry = .ok source) :
    Job.on (readSource input) d = (.ok source, d) := by
  have hread : Job.on (liftM (readFile input.entry : StateM Disk _)) d = (.ok (.ok source), d) := by
    show (Except.ok ((d.readText input.entry).mapError _), d) = _
    rw [h]
    rfl
  unfold readSource
  rw [Job.on_bind_ok hread]
  rfl

theorem on_readSource_error {e : FileError} (h : d.readText input.entry = .error e) :
    ∃ outcome, Job.on (readSource input) d = (.error outcome, d) ∧ outcome.exitCode = 1 := by
  have hread : Job.on (liftM (readFile input.entry : StateM Disk _)) d =
      (.ok (.error (.general (unreadable input.entry e))), d) := by
    show (Except.ok ((d.readText input.entry).mapError _), d) = _
    rw [h]
    rfl
  refine ⟨.failed (unreadable input.entry e), ?_, rfl⟩
  unfold readSource
  rw [Job.on_bind_ok hread]
  rfl

end Disk

/-- A job that needs the source text of an input. -/
def withSource {α : Type} (p : Path) (next : Input → String → Job α) : Job α := do
  let input ← resolveInput p
  let source ← readSource input
  next input source

section

variable {α : Type} {d : Disk} {p : Path} {next : Input → String → Job α}

/-- The input that is found is one that the path stands for. -/
theorem on_withSource_of_reads {source : String} (h : d.Reads p source)
    (next : Input → String → Job α) :
    ∃ input, d.StandsFor p input ∧ (withSource p next).on d = (next input source).on d := by
  obtain ⟨input, hstands, hread⟩ := h
  obtain ⟨found, hfound⟩ := Disk.resolve_complete hstands
  have hstands' := Disk.resolve_sound hstands.isThere hfound
  have hresolve : Job.on (resolveInput p) d = (.ok found, d) := by
    rw [(Looks.resolveInput p).on_eq]
    exact Prod.ext hfound rfl
  refine ⟨found, hstands', ?_⟩
  unfold withSource
  rw [← hstands'.readText_eq hstands] at hread
  rw [Job.on_bind_ok hresolve, Job.on_bind_ok (Disk.on_readSource_ok hread)]

theorem on_withSource_of_not_reads (h : ∀ source, ¬ d.Reads p source) :
    ∃ outcome, (withSource p next).on d = (.error outcome, d) ∧ outcome.exitCode = 1 := by
  have hlooks := (Looks.resolveInput p).on_eq d
  unfold withSource
  cases hresult : (Job.on (resolveInput p) d).1 with
  | error outcome =>
    rw [hresult] at hlooks
    exact ⟨outcome, Job.on_bind_error hlooks, (Looks.resolveInput p).failed d outcome hresult⟩
  | ok input =>
    rw [hresult] at hlooks
    rw [Job.on_bind_ok hlooks]
    cases hread : d.readText input.entry with
    | ok source =>
      exact absurd ⟨input, Disk.standsFor_of_readText hresult hread, hread⟩ (h source)
    | error e =>
      obtain ⟨outcome, hsource, hcode⟩ := Disk.on_readSource_error hread
      exact ⟨outcome, Job.on_bind_error hsource, hcode⟩

end

/-! ## Section 2: Texts that compile -/

/-- The source text is a program that can be lowered. -/
def Compilable (source : String) : Prop :=
  ∃ program fragment, parseSource source = .ok program ∧
    ((lower program).runFrom .none).1 = .ok fragment

/-- The final `end` does not matter for what can be compiled. -/
theorem exists_instructions_iff (emitEnd : Bool) (source : String) :
    (∃ code, compileToInstructions emitEnd source = .ok code) ↔ Compilable source := by
  unfold compileToInstructions Compilable
  cases hparse : parseSource source with
  | error reports =>
    constructor
    · rintro ⟨code, h⟩
      cases h
    · rintro ⟨program, fragment, h, _⟩
      cases h
  | ok program =>
    -- the `end` is put behind code that is there already
    have hgenerate : generateWith emitEnd program =
        ((lower program).runFrom .none).1.map fun f =>
          if emitEnd then f.code ++ [.end_] else f.code := by
      cases emitEnd <;> rfl
    show (∃ code, (generateWith emitEnd program).mapError _ = .ok code) ↔ _
    rw [hgenerate]
    cases hlower : ((lower program).runFrom .none).1 with
    | error e =>
      constructor
      · rintro ⟨code, h⟩
        cases h
      · rintro ⟨program', fragment, hprogram, hfragment⟩
        cases hprogram
        rw [hlower] at hfragment
        cases hfragment
    | ok fragment =>
      constructor
      · intro _
        exact ⟨program, fragment, rfl, hlower⟩
      · intro _
        exact ⟨_, rfl⟩

theorem exists_compile_iff (emitEnd : Bool) (source : String) :
    (∃ text, compile emitEnd source = .ok text) ↔ Compilable source := by
  rw [← exists_instructions_iff emitEnd]
  unfold compile
  constructor
  · rintro ⟨text, h⟩
    obtain ⟨code, hcode, _⟩ := exists_of_bind_eq_ok h
    exact ⟨code, hcode⟩
  · rintro ⟨code, hcode⟩
    rw [hcode]
    exact ⟨listing code, rfl⟩

theorem check_eq_ok_iff (source : String) : check source = .ok () ↔ Compilable source := by
  rw [← exists_instructions_iff true]
  unfold check
  constructor
  · intro h
    obtain ⟨code, hcode, _⟩ := exists_of_bind_eq_ok h
    exact ⟨code, hcode⟩
  · rintro ⟨code, hcode⟩
    rw [hcode]
    rfl

/-! ## Section 3: Writing a listing -/

/-- What a build may have changed that had a listing to write: nothing is
    removed, all that is made are directories on the way of the output, and
    only the output itself is written. -/
structure Disk.Wrote (d : Disk) (output : Path) (text : String) (outcome : Outcome) (d' : Disk) :
    Prop where
  le : d.Le d'
  changed : ∀ l, d'.entry? l ≠ d.entry? l →
    (d.entry? l = none ∧ d'.entry? l = some .directory ∧ d'.OnWay output l) ∨
      (outcome.exitCode = 0 ∧ d'.locate output = .ok l)
  /-- If all went well, the output is the listing. -/
  written : outcome.exitCode = 0 → d'.find output = .ok (.file text.toUTF8)
  /-- If not, the files are the same as before. -/
  files : outcome.exitCode ≠ 0 → ∀ l content,
    d'.entry? l = some (.file content) ↔ d.entry? l = some (.file content)

/-- A build that could not write its listing may have made directories. -/
theorem Disk.MakesWay.wrote {d d' : Disk} {output : Path} {outcome : Outcome}
    (h : MakesWay output d d') (hcode : outcome.exitCode ≠ 0) (text : String) :
    d.Wrote output text outcome d' where
  le := h.le
  changed := fun l hl => .inl (h.made l hl)
  written := fun hdone => absurd hdone hcode
  files := by
    intro _ l content
    by_cases hl : d'.entry? l = d.entry? l
    · rw [hl]
    · obtain ⟨hnone, hdirectory, _⟩ := h.made l hl
      simp [hnone, hdirectory]

/-- A build that has written its listing. -/
theorem Disk.MakesWay.wrote_of_write {d d₁ d' : Disk} {output : Path} {outcome : Outcome}
    {text : String} (h : MakesWay output d d₁) (hwrite : d₁.write output text.toUTF8 = .ok d')
    (hcode : outcome.exitCode = 0) : d.Wrote output text outcome d' := by
  obtain ⟨name, l, hput, hlocate, hplace⟩ := write_eq_ok hwrite
  have hle : d₁.Le d' := by
    rw [hput]
    exact le_put hplace
  refine ⟨h.le.trans hle, fun l' hl' => ?_, fun _ => ?_, fun hne => absurd hcode hne⟩
  · by_cases heq : l' = name :: l
    · rw [heq]
      exact .inr ⟨hcode, hlocate⟩
    · -- what is elsewhere was made on the way
      have hsame : d'.entry? l' = d₁.entry? l' := by
        rw [hput]
        exact entry?_put_of_ne heq
      rw [hsame] at hl' ⊢
      obtain ⟨hnone, hdirectory, hway⟩ := h.made l' hl'
      exact .inl ⟨hnone, hdirectory, hle.onWay hway⟩
  · have hentry : d'.entry? (name :: l) = some (.file text.toUTF8) := by
      rw [hput]
      exact entry?_put_self ..
    exact find_of_locate hlocate hentry

/-- Making the directory above an output makes way for it, whether it fails or
    not. -/
theorem on_prepareDirectory {output directory : Path} (hparent : output.parent? = some directory)
    (d : Disk) :
    ∃ d', Disk.MakesWay output d d' ∧
      (Job.on (prepareDirectory directory) d = (.ok (), d') ∨
        ∃ outcome, Job.on (prepareDirectory directory) d = (.error outcome, d') ∧
          outcome.exitCode = 1) := by
  have hway := Disk.makesWay_makeDirectories hparent d
  have hlift : Job.on (liftM (FileSystem.makeDirectories directory : StateM Disk _)) d =
      (.ok (FileSystem.makeDirectories (m := StateM Disk) directory d).1,
        (FileSystem.makeDirectories (m := StateM Disk) directory d).2) := rfl
  refine ⟨_, hway, ?_⟩
  unfold prepareDirectory
  rw [Job.on_bind_ok hlift]
  cases (FileSystem.makeDirectories (m := StateM Disk) directory d).1 with
  | ok u => exact .inl rfl
  | error e => exact .inr ⟨_, rfl, rfl⟩

theorem on_prepare (output : Path) (d : Disk) :
    ∃ d', Disk.MakesWay output d d' ∧
      (Job.on (output.parent?.forM prepareDirectory) d = (.ok (), d') ∨
        ∃ outcome, Job.on (output.parent?.forM prepareDirectory) d = (.error outcome, d') ∧
          outcome.exitCode = 1) := by
  cases hparent : output.parent? with
  | none => exact ⟨d, .refl output d, .inl rfl⟩
  | some directory => exact on_prepareDirectory hparent d

/-- The outcome of a job, whether it ended early or not. -/
def settled : Except Outcome Outcome → Outcome
  | .ok outcome => outcome
  | .error outcome => outcome

/-- Writing a listing does to the disk what a build may do. -/
theorem wrote_writeListing (output : Path) (text : String) (d : Disk) :
    d.Wrote output text (settled (Job.on (writeListing output text) d).1)
      (Job.on (writeListing output text) d).2 := by
  obtain ⟨d₁, hway, hprepared | ⟨outcome, hfailed, hcode⟩⟩ := on_prepare output d
  · have hlift : Job.on (liftM (FileSystem.writeText output text : StateM Disk _)) d₁ =
        (.ok (Disk.attempt (fun d => d.write output text.toUTF8) d₁).1,
          (Disk.attempt (fun d => d.write output text.toUTF8) d₁).2) := rfl
    unfold writeListing
    rw [Job.on_bind_ok hprepared, Job.on_bind_ok hlift, Disk.attempt]
    cases hwrite : d₁.write output text.toUTF8 with
    | ok d' => exact hway.wrote_of_write hwrite rfl
    | error e => exact hway.wrote Nat.one_ne_zero text
  · unfold writeListing
    rw [Job.on_bind_error hfailed]
    apply hway.wrote
    show outcome.exitCode ≠ 0
    omega

/-! ## Section 4: Builds and checks of a source text -/

/-- What a build does with the source text of its input. -/
def buildFrom (arguments : BuildArguments) (input : Input) (source : String) : Job Outcome :=
  match compile (!arguments.noEnd) source with
  | .error diagnostics => throw (.rejected "" diagnostics)
  | .ok text =>
    if arguments.stdout then return .printed text
    else writeListing (arguments.output.getD (defaultOutput arguments input)) text

/-- What a check does with the source text of its input. -/
def checkFrom (arguments : CheckArguments) (source : String) : Job Outcome :=
  match parseSource source with
  | .error diagnostics => throw (.rejected "" diagnostics)
  | .ok tree =>
    let shown := if arguments.showTree then tree.text ++ "\n" else ""
    match check source with
    | .error diagnostics => throw (.rejected shown diagnostics)
    | .ok () => return .done shown (.accepted arguments.input)

theorem runBuild_eq (arguments : BuildArguments) :
    runBuild arguments = withSource arguments.input (buildFrom arguments) := rfl

theorem runCheck_eq (arguments : CheckArguments) :
    runCheck arguments = withSource arguments.input fun _ source => checkFrom arguments source :=
  rfl

section

variable {b : BuildArguments} {c : CheckArguments} {d : Disk} {input : Input} {source text : String}

theorem on_buildFrom_error {reports : List Diagnostic}
    (h : compile (!b.noEnd) source = .error reports) :
    (buildFrom b input source).on d = (.error (.rejected "" reports), d) := by
  unfold buildFrom
  rw [h]
  rfl

theorem on_buildFrom_stdout (h : compile (!b.noEnd) source = .ok text) (hstdout : b.stdout = true) :
    (buildFrom b input source).on d = (.ok (.printed text), d) := by
  unfold buildFrom
  rw [h]
  dsimp only
  rw [if_pos hstdout]
  rfl

theorem buildFrom_write (h : compile (!b.noEnd) source = .ok text) (hstdout : b.stdout = false) :
    buildFrom b input source = writeListing (b.output.getD (defaultOutput b input)) text := by
  unfold buildFrom
  rw [h]
  dsimp only
  rw [if_neg (by simp [hstdout])]

/-- A check of a source text leaves the disk as it is, and ends well iff the
    text can be compiled. -/
theorem on_checkFrom (c : CheckArguments) (source : String) (d : Disk) :
    ((checkFrom c source).on d).2 = d ∧
      ((settled ((checkFrom c source).on d).1).exitCode = 0 ↔ Compilable source) := by
  rw [← check_eq_ok_iff]
  unfold checkFrom
  cases hparse : parseSource source with
  | error reports =>
    have hcheck : check source = .error reports := by
      unfold check compileToInstructions
      rw [hparse]
      rfl
    rw [hcheck]
    exact ⟨rfl, fun h => absurd h Nat.one_ne_zero, nofun⟩
  | ok tree =>
    dsimp only
    cases hcheck : check source with
    | error reports => exact ⟨rfl, fun h => absurd h Nat.one_ne_zero, nofun⟩
    | ok u => exact ⟨rfl, fun _ => rfl, fun _ => rfl⟩

end

/-! ## Section 5: Runs -/

/-- What a request comes to on a disk, and the disk after it. -/
def Disk.answer (d : Disk) (request : Request) : Outcome × Disk :=
  (request.run : StateM Disk Outcome) d

theorem finish_apply (job : Job Outcome) (d : Disk) :
    Request.run.finish job d = (settled (job.on d).1, (job.on d).2) := by
  unfold Request.run.finish
  rw [Disk.bind_apply]
  show _ = (settled (job.run d).1, (job.run d).2)
  cases (job.run d).1 <;> rfl

theorem answer_build (b : BuildArguments) (d : Disk) :
    d.answer (.build b) = (settled (Job.on (runBuild b) d).1, (Job.on (runBuild b) d).2) :=
  finish_apply (runBuild b) d

theorem answer_check (c : CheckArguments) (d : Disk) :
    d.answer (.check c) = (settled (Job.on (runCheck c) d).1, (Job.on (runCheck c) d).2) :=
  finish_apply (runCheck c) d

/-- What a build comes to on a disk. -/
structure BuildArguments.Touches (b : BuildArguments) (d : Disk) (outcome : Outcome) (d' : Disk) :
    Prop where
  /-- Without a listing, the build fails and the disk stays as it is. -/
  rejected : (∀ text, ¬ d.Lists b.input (!b.noEnd) text) → outcome.exitCode = 1 ∧ d' = d
  /-- A listing that is to be printed is printed, and the disk stays as it is. -/
  printed : b.stdout = true →
    d' = d ∧ ∀ text, d.Lists b.input (!b.noEnd) text → outcome = .printed text
  /-- Any other listing is written to where it goes. -/
  wrote : b.stdout = false → ∀ text, d.Lists b.input (!b.noEnd) text →
    ∃ output, d.GoesTo b output ∧ d.Wrote output text outcome d'

/-- A build without a listing, which fails and leaves the disk as it is. -/
theorem touches_of_not_lists {b : BuildArguments} {d : Disk} {outcome : Outcome}
    (hnone : ∀ text, ¬ d.Lists b.input (!b.noEnd) text)
    (hcode : outcome.exitCode = 1) : b.Touches d outcome d where
  rejected := fun _ => ⟨hcode, rfl⟩
  printed := fun _ => ⟨rfl, fun text h => absurd h (hnone text)⟩
  wrote := fun _ text h => absurd h (hnone text)

theorem touches_runBuild (b : BuildArguments) (d : Disk) :
    b.Touches d (settled (Job.on (runBuild b) d).1) (Job.on (runBuild b) d).2 := by
  rw [runBuild_eq]
  by_cases hreads : ∃ source, d.Reads b.input source
  · obtain ⟨source, hreads⟩ := hreads
    obtain ⟨input, hstands, hon⟩ := on_withSource_of_reads hreads (buildFrom b)
    rw [hon]
    -- the text is that of every input that the path stands for, so one case of it is enough
    cases hcompile : compile (!b.noEnd) source with
    | error reports =>
      rw [on_buildFrom_error hcompile]
      apply touches_of_not_lists _ rfl
      rintro text ⟨source', hreads', htext⟩
      obtain rfl := hreads.unique hreads'
      rw [hcompile] at htext
      cases htext
    | ok text =>
      have hlists : d.Lists b.input (!b.noEnd) text := ⟨source, hreads, hcompile⟩
      refine ⟨fun hnone => absurd hlists (hnone text), fun hstdout => ?_, fun hstdout => ?_⟩
      · rw [on_buildFrom_stdout hcompile hstdout]
        refine ⟨rfl, fun text' h => ?_⟩
        obtain rfl := hlists.unique h
        rfl
      -- the input that was found is one that the path stands for, so its output is one too
      · intro text' h
        obtain rfl := hlists.unique h
        rw [buildFrom_write hcompile hstdout]
        exact ⟨_, Disk.goesTo_output hstands, wrote_writeListing _ _ d⟩
  -- without a text nothing is compiled, let alone written
  · have hreads' : ∀ source, ¬ d.Reads b.input source := fun source h => hreads ⟨source, h⟩
    obtain ⟨outcome, hon, hcode⟩ := on_withSource_of_not_reads hreads'
    rw [hon]
    apply touches_of_not_lists _ hcode
    rintro text ⟨source, h, _⟩
    exact hreads' source h

/-- The path stands for an input that can be compiled. -/
def Disk.Accepts (d : Disk) (p : Path) : Prop := ∃ source, d.Reads p source ∧ Compilable source

theorem exists_lists_iff {d : Disk} {p : Path} (emitEnd : Bool) :
    (∃ text, d.Lists p emitEnd text) ↔ d.Accepts p := by
  constructor
  · rintro ⟨text, source, hreads, htext⟩
    exact ⟨source, hreads, (exists_compile_iff emitEnd source).mp ⟨text, htext⟩⟩
  · rintro ⟨source, hreads, hcompilable⟩
    obtain ⟨text, htext⟩ := (exists_compile_iff emitEnd source).mpr hcompilable
    exact ⟨text, source, hreads, htext⟩

/-- A check leaves the disk as it is, and ends well iff its input can be
    compiled. -/
theorem on_runCheck (c : CheckArguments) (d : Disk) :
    (Job.on (runCheck c) d).2 = d ∧
      ((settled (Job.on (runCheck c) d).1).exitCode = 0 ↔ d.Accepts c.input) := by
  rw [runCheck_eq]
  by_cases hreads : ∃ source, d.Reads c.input source
  · obtain ⟨source, hreads⟩ := hreads
    obtain ⟨hsame, hcode⟩ := on_checkFrom c source d
    obtain ⟨_, _, hon⟩ := on_withSource_of_reads hreads fun _ => checkFrom c
    rw [hon]
    refine ⟨hsame, hcode.trans ⟨fun h => ⟨source, hreads, h⟩, ?_⟩⟩
    rintro ⟨source', hreads', h⟩
    obtain rfl := hreads.unique hreads'
    exact h
  · obtain ⟨outcome, hon, hcode⟩ := on_withSource_of_not_reads fun source h => hreads ⟨source, h⟩
    rw [hon]
    refine ⟨rfl, fun h => ?_, fun ⟨source, h, _⟩ => absurd ⟨source, h⟩ hreads⟩
    exact absurd (hcode.symm.trans h) Nat.one_ne_zero

/-- A build that prints ends well iff its input can be compiled. -/
theorem BuildArguments.Touches.exitCode_iff {b : BuildArguments} {d d' : Disk} {outcome : Outcome}
    (h : b.Touches d outcome d') (hstdout : b.stdout = true) :
    outcome.exitCode = 0 ↔ d.Accepts b.input := by
  rw [← exists_lists_iff (!b.noEnd)]
  constructor
  · intro hcode
    refine Classical.byContradiction fun hnone => ?_
    have hfailed := (h.rejected fun text hlists => hnone ⟨text, hlists⟩).1
    omega
  · rintro ⟨text, hlists⟩
    rw [(h.printed hstdout).2 text hlists]
    rfl

/-- A run touches its output only.  A check leaves the disk as it is; a build
    does so too unless it has a listing to write, and then it writes that and
    makes directories on the way, and nothing else.  And a check ends well iff
    a build that prints does, which then prints what another build writes. -/
theorem runs_touch_output_only (d : Disk) :
    (∀ c, (d.answer (.check c)).2 = d) ∧
    (∀ b : BuildArguments, b.Touches d (d.answer (.build b)).1 (d.answer (.build b)).2) ∧
    ∀ (c : CheckArguments) (b : BuildArguments), b.stdout = true → b.input = c.input →
      ((d.answer (.check c)).1.exitCode = 0 ↔ (d.answer (.build b)).1.exitCode = 0) ∧
      ∀ b' : BuildArguments, b'.stdout = false → b'.input = b.input → b'.noEnd = b.noEnd →
        (d.answer (.build b)).1.exitCode = 0 →
        ∃ output, d.GoesTo b' output ∧
          d.Wrote output (d.answer (.build b)).1.stdout (d.answer (.build b')).1
            (d.answer (.build b')).2 := by
  have hbuild : ∀ b : BuildArguments,
      b.Touches d (d.answer (.build b)).1 (d.answer (.build b)).2 := by
    intro b
    rw [answer_build]
    exact touches_runBuild b d
  refine ⟨fun c => ?_, hbuild, fun c b hstdout hinput => ?_⟩
  · rw [answer_check]
    exact (on_runCheck c d).1
  · have hprinted := (hbuild b).exitCode_iff hstdout
    refine ⟨?_, fun b' hstdout' hinput' hnoEnd hcode => ?_⟩
    · rw [hprinted, answer_check, hinput]
      exact (on_runCheck c d).2
    -- the build that writes has the listing that the other one has printed
    · obtain ⟨text, hlists⟩ := (exists_lists_iff (!b.noEnd)).mpr (hprinted.mp hcode)
      have htext : (d.answer (.build b)).1.stdout = text := by
        rw [((hbuild b).printed hstdout).2 text hlists]
        rfl
      have hlists' : d.Lists b'.input (!b'.noEnd) text := by rwa [hinput', hnoEnd]
      rw [htext]
      exact (hbuild b').wrote hstdout' text hlists'

/-- A disk with a project in its working directory. -/
def oneProject : Disk :=
  (((Disk.empty ["work"]).put ["src", "work"] .directory).put ["a.mnd", "src", "work"]
    (.file "x = 1".toUTF8)).put ["mindcode.toml", "work"]
      (.file "[project]\nname = a\nentry = src/a.mnd\noutput = out/lists/a.mlog".toUTF8)

/-- A build of the entry of that project, given by its own path. -/
def buildEntry : BuildArguments := ⟨⟨"src/a.mnd"⟩, none, false, false⟩

theorem oneProject_touched :
    (oneProject.answer (.build buildEntry)).1.exitCode = 0 ∧
      (∃ output, oneProject.GoesTo buildEntry output ∧
        (oneProject.answer (.build buildEntry)).2.find output =
          .ok (.file "set tmp0 1\nset x tmp0\nend\n".toUTF8)) ∧
      oneProject.Le (oneProject.answer (.build buildEntry)).2 := by
  have hresolve : oneProject.resolve ⟨"src/a.mnd"⟩ = .ok ⟨⟨"src/a.mnd"⟩,
      some ⟨"a", "", ⟨"src/a.mnd"⟩, ⟨"out/lists/a.mlog"⟩, ⟨""⟩⟩⟩ := rfl
  have hread : oneProject.readText ⟨"src/a.mnd"⟩ = .ok "x = 1" := by decide +kernel
  have hlists : oneProject.Lists ⟨"src/a.mnd"⟩ true "set tmp0 1\nset x tmp0\nend\n" :=
    ⟨"x = 1", ⟨_, Disk.standsFor_of_readText hresolve hread, hread⟩, by decide +kernel⟩
  have hcode : (oneProject.answer (.build buildEntry)).1.exitCode = 0 := by decide +kernel
  obtain ⟨output, hgoes, hwrote⟩ :=
    ((runs_touch_output_only oneProject).2.1 buildEntry).wrote rfl _ hlists
  exact ⟨hcode, ⟨output, hgoes, hwrote.written hcode⟩, hwrote.le⟩

end Mlog
