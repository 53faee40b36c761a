import Mlog.Proofs.Temporaries

/-! # Temporary variables are assigned before they are read

    On every path through a program, whatever the outcomes of its conditional
    jumps and however often its loops are gone through, a temporary variable is
    written before it is read.  The value of a loop is what its last round left
    behind, so there must be no use of it: the loop may have had no round.

    A place in a program is the code from there on, as for the machine.  `Safe`
    follows all paths from a place for a number of steps, together with the
    variables that are known to be written there, and `Passes` says what the code
    of a tree adds to these.

    * `Lowers.passes`: one tree, in whatever program its code stands.
    * `assigned_before_read`: all paths through a whole program. -/

namespace Mlog

/-! ## Section 1: Paths -/

/-- May the program go on with the next instruction? -/
def Instruction.fallsThrough (i : Instruction) : Bool :=
  i.opcode ≠ .end_ && !(i.opcode = .jump && i.operands[1]? = some "always")

/-- Where a program may go on after the first instruction of the code at hand.
    A jump on a condition may have either outcome. -/
def successors (program : List Instruction) : List Instruction → List (List Instruction)
  | [] => []
  | i :: rest =>
    (if i.fallsThrough then [rest] else []) ++
      (i.target?.map fun label => codeFrom label program).toList

/-- A path through a program from its first instruction: the instructions that
    have been run, in their order, and the code at hand. -/
inductive ProgramPath (program : List Instruction) : List Instruction → List Instruction → Prop
  | start : ProgramPath program [] program
  | step {done rest next : List Instruction} {i : Instruction} :
      ProgramPath program done (i :: rest) → next ∈ successors program (i :: rest) →
      ProgramPath program (done ++ [i]) next

theorem mem_successors {program rest next : List Instruction} {i : Instruction}
    (h : next ∈ successors program (i :: rest)) :
    (i.fallsThrough = true ∧ next = rest) ∨
      ∃ label, i.target? = some label ∧ next = codeFrom label program := by
  unfold successors at h
  rcases List.mem_append.mp h with h | h
  · by_cases hfalls : i.fallsThrough = true
    · rw [if_pos hfalls, List.mem_singleton] at h
      exact .inl ⟨hfalls, h⟩
    · rw [if_neg hfalls] at h
      exact absurd h List.not_mem_nil
  · cases htarget : i.target? with
    | none => simp [htarget] at h
    | some label => exact .inr ⟨label, rfl, by simpa [htarget] using h⟩

/-- The path that goes on by the given choices among the successors. -/
def walk (program : List Instruction) (done : List Instruction) :
    List Instruction → List Nat → Option (List Instruction × List Instruction)
  | code, [] => some (done, code)
  | [], _ :: _ => none
  | i :: rest, choice :: choices =>
    ((successors program (i :: rest))[choice]?).bind fun next =>
      walk program (done ++ [i]) next choices

theorem path_of_walk {program done code done' code' : List Instruction} {choices : List Nat}
    (hpath : ProgramPath program done code)
    (h : walk program done code choices = some (done', code')) :
    ProgramPath program done' code' := by
  induction choices generalizing done code with
  | nil =>
    cases h
    exact hpath
  | cons choice choices ih =>
    cases code with
    | nil => exact absurd h (by simp [walk])
    | cons i rest =>
      obtain ⟨next, hnext, hwalk⟩ := Option.bind_eq_some_iff.mp h
      exact ih (.step hpath (List.mem_of_getElem? hnext)) hwalk

/-! ## Section 2: Known variables -/

/-- Every temporary variable among the operands is known. -/
def Covers (known operands : List String) : Prop := ∀ x ∈ operands, Text.isTemp x = true → x ∈ known

section

variable {known known' xs ys : List String} {x : String}

@[simp] theorem covers_nil : Covers known [] := fun _ hx => absurd hx List.not_mem_nil

@[simp] theorem covers_cons :
    Covers known (x :: xs) ↔ (Text.isTemp x = true → x ∈ known) ∧ Covers known xs := by
  unfold Covers
  rw [List.forall_mem_cons]

@[simp] theorem covers_append : Covers known (xs ++ ys) ↔ Covers known xs ∧ Covers known ys := by
  unfold Covers
  rw [List.forall_mem_append]

theorem covers_of_subset (h : xs ⊆ known) : Covers known xs := fun _ hx _ => h hx

theorem covers_refl (known : List String) : Covers known known :=
  covers_of_subset (List.Subset.refl known)

theorem covers_left (known ys : List String) : Covers (known ++ ys) known :=
  covers_of_subset (List.subset_append_left known ys)

theorem covers_right (known ys : List String) : Covers (known ++ ys) ys :=
  covers_of_subset (List.subset_append_right known ys)

theorem Covers.trans (h : Covers known' known) (h' : Covers known xs) : Covers known' xs :=
  fun x hx htemp => h x (h' x hx htemp) htemp

theorem Covers.more (h : Covers known xs) (ys : List String) : Covers (known ++ ys) xs :=
  (covers_left known ys).trans h

theorem Covers.append (h : Covers known' known) (ys : List String) :
    Covers (known' ++ ys) (known ++ ys) :=
  covers_append.mpr ⟨h.more ys, covers_right known' ys⟩

end

/-- For a number of steps from the code at hand, on every path, a temporary
    variable that is read is known or has been written on the way. -/
def Safe (program : List Instruction) : Nat → List String → List Instruction → Prop
  | 0, _, _ => True
  | _ + 1, _, [] => True
  | n + 1, known, i :: rest =>
    Covers known i.reads ∧
      ∀ next ∈ successors program (i :: rest),
        Safe program n (known ++ i.destination?.toList) next

variable {program : List Instruction}

/-- Fewer steps and more known variables are as safe. -/
theorem Safe.mono {m n : Nat} {known known' : List String} {code : List Instruction}
    (h : Safe program n known code) (hle : m ≤ n) (hknown : Covers known' known) :
    Safe program m known' code := by
  induction m generalizing n known known' code with
  | zero => trivial
  | succ m ih =>
    obtain ⟨n, rfl⟩ : ∃ k, n = k + 1 := ⟨n - 1, by omega⟩
    cases code with
    | nil => trivial
    | cons i rest =>
      obtain ⟨hreads, hnext⟩ := h
      refine ⟨hknown.trans hreads, ?_⟩
      intro next hmem
      apply ih (hnext next hmem) (by omega)
      exact hknown.append _

theorem Safe.more {n : Nat} {known known' : List String} {code : List Instruction}
    (h : Safe program n known code) (hknown : Covers known' known) : Safe program n known' code :=
  h.mono (Nat.le_refl n) hknown

/-- An instruction is safe if what it reads is known and it goes on safely. -/
theorem safe_cons {n : Nat} {known : List String} {i : Instruction} {rest : List Instruction}
    (hreads : Covers known i.reads)
    (hnext : ∀ next ∈ successors program (i :: rest),
      Safe program n (known ++ i.destination?.toList) next) :
    Safe program n known (i :: rest) := by
  cases n with
  | zero => trivial
  | succ n =>
    refine ⟨hreads, ?_⟩
    intro next hmem
    exact (hnext next hmem).mono (Nat.le_succ n) (covers_refl _)

/-- On a path from a safe start, what is written on it is known. -/
theorem ProgramPath.safe {done code : List Instruction} (h : ProgramPath program done code)
    (hsafe : ∀ n, Safe program n [] program) (n : Nat) :
    Safe program n (done.filterMap Instruction.destination?) code := by
  -- each step uses up one of the steps that the place before it was safe for
  induction h generalizing n with
  | start => exact hsafe n
  | @step done rest next i _ hmem ih =>
    have hnext := (ih (n + 1)).2 next hmem
    have hdone : (done ++ [i]).filterMap Instruction.destination? =
        done.filterMap Instruction.destination? ++ i.destination?.toList := by
      cases hdest : i.destination? <;> simp [hdest]
    rw [hdone]
    exact hnext

/-! ## Section 3: Single instructions -/

section

variable {n : Nat} {known : List String} {rest : List Instruction}

/-- An instruction without a jump. -/
theorem safe_straight {i : Instruction} (hi : i.target? = none) (hreads : Covers known i.reads)
    (hrest : Safe program n (known ++ i.destination?.toList) rest) :
    Safe program n known (i :: rest) := by
  apply safe_cons hreads
  intro next hmem
  rcases mem_successors hmem with ⟨_, rfl⟩ | ⟨label, hlabel, _⟩
  · exact hrest
  · rw [hi] at hlabel
    exact absurd hlabel (by simp)

theorem safe_label {l : String} (hl : Text.isTemp l = false) (hrest : Safe program n known rest) :
    Safe program n known (.label l :: rest) := by
  apply safe_straight rfl
  · show Covers known [l]
    simp [hl]
  · show Safe program n (known ++ []) rest
    rwa [List.append_nil]

theorem safe_set {dest value : String} (hvalue : Covers known [value])
    (hrest : Safe program n (known ++ [dest]) rest) :
    Safe program n known (.set dest value :: rest) :=
  safe_straight rfl hvalue hrest

theorem safe_jumpAlways {l : String} (hl : Text.isTemp l = false)
    (htarget : Safe program n known (codeFrom l program)) :
    Safe program n known (.jumpAlways l :: rest) := by
  apply safe_cons
  · show Covers known [l, "always"]
    simp [hl, Text.isTemp_codeWords "always" (by decide)]
  · intro next hmem
    show Safe program n (known ++ []) next
    rw [List.append_nil]
    rcases mem_successors hmem with ⟨hfalls, _⟩ | ⟨label, hlabel, rfl⟩
    · exact absurd hfalls (by simp [Instruction.fallsThrough, Instruction.jumpAlways])
    · obtain rfl : l = label := Option.some.inj hlabel
      exact htarget

theorem safe_jumpNotEqual {l a b : String} (hl : Text.isTemp l = false)
    (hoperands : Covers known [a, b]) (hrest : Safe program n known rest)
    (htarget : Safe program n known (codeFrom l program)) :
    Safe program n known (.jumpNotEqual l a b :: rest) := by
  apply safe_cons
  · show Covers known ([l, "notEqual"] ++ [a, b])
    refine covers_append.mpr ⟨?_, hoperands⟩
    simp [hl, Text.isTemp_codeWords "notEqual" (by decide)]
  · intro next hmem
    show Safe program n (known ++ []) next
    rw [List.append_nil]
    rcases mem_successors hmem with ⟨_, rfl⟩ | ⟨label, hlabel, rfl⟩
    · exact hrest
    · obtain rfl : l = label := Option.some.inj hlabel
      exact htarget

end

/-! ## Section 4: Code that passes -/

/-- Wherever the code stands in the program: if the operands it needs are known
    and the program is safe after it with those it gives known as well, then the
    program is safe from the code on. -/
def Passes (program code : List Instruction) (needs gives : List String) : Prop :=
  ∀ n known rest, code ++ rest <:+ program → Covers known needs →
    Safe program n (known ++ gives) rest → Safe program n known (code ++ rest)

section

variable {c d : List Instruction} {xs ys zs : List String}

/-- No code gives only what is no temporary variable. -/
theorem passes_nil (hgives : Covers [] ys) : Passes program [] xs ys := by
  intro n known rest _ _ hrest
  apply hrest.more
  exact covers_append.mpr ⟨covers_refl known,
    (covers_of_subset (List.nil_subset known)).trans hgives⟩

/-- An operand that is no temporary variable needs no code. -/
theorem passes_constant {x : String} (hx : Text.isTemp x = false) : Passes program [] [] [x] :=
  passes_nil (by simp [hx])

theorem Passes.append {needs : List String} (hc : Passes program c xs ys)
    (hd : Passes program d needs zs) (hneeds : Covers (xs ++ ys) needs) :
    Passes program (c ++ d) xs (ys ++ zs) := by
  intro n known rest hsuffix hknown hrest
  rw [List.append_assoc] at hsuffix ⊢
  have hd' := hd n (known ++ ys) rest ((List.suffix_append ..).trans hsuffix) ?_ ?_
  · exact hc n known (d ++ rest) hsuffix hknown hd'
  · exact (hknown.append ys).trans hneeds
  · rwa [List.append_assoc]

theorem Passes.gives {ys' : List String} (h : Passes program c xs ys) (hgives : Covers ys ys') :
    Passes program c xs ys' := by
  intro n known rest hsuffix hknown hrest
  apply h n known rest hsuffix hknown
  apply hrest.more
  exact covers_append.mpr ⟨covers_left _ _, (covers_right _ _).trans hgives⟩

/-- One instruction needs what it reads and gives what it writes. -/
theorem passes_straight {i : Instruction} (hi : i.target? = none) :
    Passes program [i] i.reads i.destination?.toList :=
  fun _ _ _ _ hreads hrest => safe_straight hi hreads hrest

/-- One more instruction, which reads what is given. -/
theorem Passes.andThen {i : Instruction} (h : Passes program c xs ys) (hi : i.target? = none)
    (hreads : Covers (xs ++ ys) i.reads) (hgives : Covers (ys ++ i.destination?.toList) zs) :
    Passes program (c ++ [i]) xs zs :=
  (h.append (passes_straight hi) hreads).gives hgives

/-- An instruction for each operand, which reads the operand only. -/
theorem passes_map {make : String → Instruction} (htarget : ∀ x, (make x).target? = none)
    (hreads : ∀ x, (make x).reads = [x]) (args : List String) :
    Passes program (args.map make) args [] := by
  intro n known rest hsuffix hknown hrest
  rw [List.append_nil] at hrest
  induction args with
  | nil => exact hrest
  | cons arg args ih =>
    obtain ⟨harg, hargs⟩ := covers_cons.mp hknown
    apply safe_straight (htarget arg)
    · rw [hreads]
      exact covers_cons.mpr ⟨harg, covers_nil⟩
    · apply (ih ((List.suffix_cons ..).trans hsuffix) hargs).more
      exact covers_left _ _

end

/-! ## Section 5: Control flow -/

section

variable (hnodup : (labelsIn program).Nodup)

include hnodup

/-- Both ways through an `if` end at its last label with the result written. -/
theorem passes_branch {c y : Valued} {f : Fragment} {result elseLabel endLabel : String}
    (hc : Passes program c.code [] [c.value]) (hy : Passes program y.code [] [y.value])
    (hf : Passes program f.code [] [f.valueOrNull]) (helse : Text.isTemp elseLabel = false)
    (hend : Text.isTemp endLabel = false) :
    Passes program (branchCode c y f result elseLabel endLabel) [] [result] := by
  intro n known rest hsuffix _ hrest
  have hcode : branchCode c y f result elseLabel endLabel ++ rest =
      c.code ++ .jumpNotEqual elseLabel c.value "true" :: (y.code ++ .set result y.value ::
        .jumpAlways endLabel :: .label elseLabel :: (f.code ++ .set result f.valueOrNull ::
          .label endLabel :: rest)) := by
    simp [branchCode]
  rw [hcode] at hsuffix ⊢
  -- the places after each part, all of them in the program
  have hafterCond := (List.suffix_append ..).trans hsuffix
  have hyes := (List.suffix_cons ..).trans hafterCond
  have hset := (List.suffix_append ..).trans hyes
  have helseCode := (List.suffix_cons ..).trans ((List.suffix_cons ..).trans hset)
  have hno := (List.suffix_cons ..).trans helseCode
  have hendCode := (List.suffix_cons ..).trans ((List.suffix_append ..).trans hno)
  -- more may be known on one way than on the other, so what is known is left open
  have hjoin : ∀ known', Covers known' (known ++ [result]) →
      Safe program n known' (.label endLabel :: rest) :=
    fun known' hknown' => safe_label hend (hrest.more hknown')
  have hotherwise : ∀ known', Covers known' known → Safe program n known'
      (.label elseLabel :: (f.code ++ .set result f.valueOrNull :: .label endLabel :: rest)) := by
    intro known' hknown'
    apply safe_label helse
    apply hf n known' _ hno covers_nil
    apply safe_set (covers_right _ _)
    exact hjoin _ ((hknown'.more _).append _)
  apply hc n known _ hsuffix covers_nil
  have hknown : Covers (known ++ [c.value]) known := covers_left _ _
  apply safe_jumpNotEqual helse
  · simp [Text.isTemp_codeWords "true" (by decide)]
  · apply hy n _ _ hyes covers_nil
    apply safe_set (covers_right _ _)
    apply safe_jumpAlways hend
    rw [codeFrom_eq hnodup hendCode]
    exact hjoin _ ((hknown.more _).append _)
  · -- the jump is taken, and the code of the first side is passed over
    rw [codeFrom_eq hnodup helseCode]
    exact hotherwise _ hknown

/-- A loop is safe however many rounds it has; what it gives is not known, as it
    may have none. -/
theorem passes_loop {c : Valued} {f : Fragment} {condLabel doneLabel : String} {ys : List String}
    (hc : Passes program c.code [] [c.value]) (hf : Passes program f.code [] ys)
    (hcond : Text.isTemp condLabel = false) (hdone : Text.isTemp doneLabel = false) :
    Passes program (loopCode c f condLabel doneLabel) [] [] := by
  intro n known rest hsuffix _ hrest
  rw [List.append_nil] at hrest
  have hcode : loopCode c f condLabel doneLabel ++ rest =
      .label condLabel :: (c.code ++ .jumpNotEqual doneLabel c.value "true" ::
        (f.code ++ .jumpAlways condLabel :: .label doneLabel :: rest)) := by
    simp [loopCode]
  rw [hcode] at hsuffix ⊢
  have hround := (List.suffix_cons ..).trans hsuffix
  have hbody := (List.suffix_cons ..).trans ((List.suffix_append ..).trans hround)
  have hdoneCode := (List.suffix_cons ..).trans ((List.suffix_append ..).trans hbody)
  -- each round takes a step at least, so there is one step less for those after it
  suffices hrounds : ∀ k ≤ n, ∀ known', Covers known' known → Safe program k known'
      (.label condLabel :: (c.code ++ .jumpNotEqual doneLabel c.value "true" ::
        (f.code ++ .jumpAlways condLabel :: .label doneLabel :: rest))) from
    hrounds n (Nat.le_refl n) known (covers_refl _)
  intro k
  induction k with
  | zero => exact fun _ _ _ => trivial
  | succ k ih =>
    intro hk known' hknown'
    refine ⟨?_, ?_⟩
    · show Covers known' [condLabel]
      simp [hcond]
    intro next hmem
    obtain rfl : next = _ := by
      rcases mem_successors hmem with ⟨_, hnext⟩ | ⟨label, hlabel, _⟩
      · exact hnext
      · exact absurd hlabel (by simp [Instruction.target?, Instruction.label])
    show Safe program k (known' ++ []) _
    rw [List.append_nil]
    apply hc k known' _ hround covers_nil
    have hknown := hknown'.more [c.value]
    apply safe_jumpNotEqual hdone
    · simp [Text.isTemp_codeWords "true" (by decide)]
    · apply hf k _ _ hbody covers_nil
      apply safe_jumpAlways hcond
      rw [codeFrom_eq hnodup hsuffix]
      exact ih (by omega) _ (hknown.more _)
    · rw [codeFrom_eq hnodup hdoneCode]
      exact safe_label hdone (hrest.mono (by omega) hknown)

/-- Through the arms of a `case`: a match ends at the last label with the result
    written, and without a match the program goes on after the arms. -/
theorem safe_arms {n : Nat} {known : List String} {subject result endLabel : String}
    {as : List (Valued × Valued)} {labels : List String} {rest : List Instruction}
    (has : ∀ arm ∈ as, Passes program arm.1.code [] [arm.1.value] ∧
      Passes program arm.2.code [] [arm.2.value])
    (hlabels : ∀ l ∈ labels, Text.isTemp l = false) (hend : Text.isTemp endLabel = false)
    (hsuffix : armsCode subject result endLabel as labels ++ rest <:+ program)
    (hsubject : Covers known [subject])
    (hjoin : ∀ known', Covers known' (known ++ [result]) →
      Safe program n known' (codeFrom endLabel program))
    (hrest : ∀ known', Covers known' known → Safe program n known' rest) :
    ∀ known', Covers known' known →
      Safe program n known' (armsCode subject result endLabel as labels ++ rest) := by
  induction as generalizing labels with
  | nil => simpa [armsCode] using hrest
  | cons arm as ih =>
    cases labels with
    | nil => simpa [armsCode] using hrest
    | cons next labels =>
      obtain ⟨⟨hpattern, hbody⟩, has⟩ := List.forall_mem_cons.mp has
      obtain ⟨hnext, hlabels⟩ := List.forall_mem_cons.mp hlabels
      have hcode : armsCode subject result endLabel (arm :: as) (next :: labels) ++ rest =
          arm.1.code ++ .jumpNotEqual next subject arm.1.value :: (arm.2.code ++
            .set result arm.2.value :: .jumpAlways endLabel :: .label next ::
              (armsCode subject result endLabel as labels ++ rest)) := by
        simp [armsCode, armCode]
      rw [hcode] at hsuffix ⊢
      -- where the pieces of this arm stand in the program
      have hbodyCode := (List.suffix_cons ..).trans ((List.suffix_append ..).trans hsuffix)
      have hset := (List.suffix_append ..).trans hbodyCode
      have hnextCode := (List.suffix_cons ..).trans ((List.suffix_cons ..).trans hset)
      have hothers := ih has hlabels ((List.suffix_cons ..).trans hnextCode)
      intro known' hknown'
      apply hpattern n known' _ hsuffix covers_nil
      have hknown := hknown'.more [arm.1.value]
      -- the subject has been known since before the arms, the pattern is known by now
      apply safe_jumpNotEqual hnext
      · refine covers_cons.mpr ⟨?_, covers_right _ _⟩
        exact (covers_cons.mp (hknown.trans hsubject)).1
      · apply hbody n _ _ hbodyCode covers_nil
        apply safe_set (covers_right _ _)
        apply safe_jumpAlways hend
        exact hjoin _ ((hknown.more _).append _)
      -- without a match the other arms are tried, with what was known before this one
      · rw [codeFrom_eq hnodup hnextCode]
        exact safe_label hnext (hothers _ hknown)

theorem passes_select {s : Valued} {as : List (Valued × Valued)} {f : Fragment}
    {result endLabel : String} {labels : List String}
    (hs : Passes program s.code [] [s.value])
    (has : ∀ arm ∈ as, Passes program arm.1.code [] [arm.1.value] ∧
      Passes program arm.2.code [] [arm.2.value])
    (hf : Passes program f.code [] [f.valueOrNull])
    (hlabels : ∀ l ∈ labels, Text.isTemp l = false) (hend : Text.isTemp endLabel = false) :
    Passes program (selectCode s as f result labels endLabel) [] [result] := by
  intro n known rest hsuffix _ hrest
  have hcode : selectCode s as f result labels endLabel ++ rest =
      s.code ++ (armsCode s.value result endLabel as labels ++
        (f.code ++ .set result f.valueOrNull :: .label endLabel :: rest)) := by
    simp [selectCode]
  rw [hcode] at hsuffix ⊢
  have harms := (List.suffix_append ..).trans hsuffix
  have hno := (List.suffix_append ..).trans harms
  have hendCode := (List.suffix_cons ..).trans ((List.suffix_append ..).trans hno)
  apply hs n known _ hsuffix covers_nil
  have hknown : Covers (known ++ [s.value]) known := covers_left _ _
  have hjoin : ∀ known', Covers known' (known ++ [s.value] ++ [result]) →
      Safe program n known' (.label endLabel :: rest) := by
    intro known' hknown'
    apply safe_label hend
    apply hrest.more
    -- the subject is known as well, but not asked for after the `case`
    rw [covers_append] at hknown'
    exact covers_append.mpr ⟨hknown'.1.trans hknown, hknown'.2⟩
  apply safe_arms hnodup has hlabels hend harms (covers_right _ _)
  · rw [codeFrom_eq hnodup hendCode]
    exact hjoin
  · intro known' hknown'
    apply hf n known' _ hno covers_nil
    apply safe_set (covers_right _ _)
    exact hjoin _ ((hknown'.more _).append _)
  · exact covers_refl _

end

/-! ## Section 6: Trees -/

namespace Expr

/-- The parts of a node whose values it uses.  An else part need not have a
    value, but if it has one it is used. -/
def consumed : Expr → List Expr
  | seq _ _ | assignBuiltin _ _ => []
  | loop cond _ => [cond]
  | e => e.children

/-- No node of the tree uses what a loop left behind: the last statement of a part
    whose value is used is no loop with a value. -/
def UsesNoLoop (e : Expr) : Prop :=
  ∀ node ∈ e.nodes, ∀ part ∈ node.consumed, part.endsInLoop = false

instance (e : Expr) : Decidable e.UsesNoLoop :=
  inferInstanceAs (Decidable (∀ node ∈ e.nodes, ∀ part ∈ node.consumed, part.endsInLoop = false))

theorem UsesNoLoop.child {e child : Expr} (h : e.UsesNoLoop) (hchild : child ∈ e.children) :
    child.UsesNoLoop :=
  fun node hnode => h node (mem_nodes_of_child hchild hnode)

theorem UsesNoLoop.part {e part : Expr} (h : e.UsesNoLoop) (hpart : part ∈ e.consumed) :
    part.endsInLoop = false :=
  h e (mem_nodes.mpr .refl) part hpart

theorem consumed_subset (e : Expr) : e.consumed ⊆ e.children := by
  cases e with
  | seq | assignBuiltin => exact List.nil_subset _
  | loop => simp [consumed, children, parts]
  | _ => exact List.Subset.refl _

end Expr

/-- The operand that is known to be written after the code of a tree: its value,
    unless a loop left it behind. -/
def Fragment.given (f : Fragment) (e : Expr) : List String :=
  if e.endsInLoop then [] else f.value.toList

theorem Fragment.given_eq {e : Expr} (he : e.endsInLoop = false) (f : Fragment) :
    f.given e = f.value.toList := by
  rw [given, he]
  rfl

/-- A loop gives nothing: if its body has no value, it has none either. -/
theorem Lowers.given_loop {body : Expr} {n n' : Names} {f : Fragment} (h : Lowers body n f n')
    (cond : Expr) : f.given (.loop cond body) = [] := by
  have hvalue := h.isSome_value
  cases hbody : body.hasValue <;> simp_all [Fragment.given, Expr.endsInLoop]

/-- An absent value is read as `null`. -/
theorem Passes.valueOrNull {f : Fragment} {xs : List String}
    (h : Passes program f.code xs f.value.toList) : Passes program f.code xs [f.valueOrNull] := by
  apply h.gives
  cases hvalue : f.value <;>
    simp [Fragment.valueOrNull, hvalue, Text.isTemp_codeWords "null" (by decide)]

/-- All arguments of a call are known after their code. -/
theorem passes_args {vs : List Valued} (hvs : ∀ v ∈ vs, Passes program v.code [] [v.value]) :
    Passes program (vs.flatMap Valued.code) [] (vs.map Valued.value) := by
  induction vs with
  | nil => exact passes_nil covers_nil
  | cons v vs ih =>
    obtain ⟨hfirst, hothers⟩ := List.forall_mem_cons.mp hvs
    exact hfirst.append (ih hothers) covers_nil

theorem Order.reads_ucontrol (o : Order) (operands : List String) :
    (Instruction.ucontrol o.command operands).reads = o.command :: operands := by
  cases o <;> rfl

theorem reads_within (operands : List String) (dest : String) :
    (Instruction.ucontrol "within" (operands ++ [dest])).reads = "within" :: operands := by
  simp [Instruction.reads, Instruction.ucontrol, Instruction.destinationIndex?,
    List.eraseIdx_append_of_length_le]

/-- The code of a call reads its arguments and writes the variable that it takes. -/
theorem Intrinsic.passes_code (f : Intrinsic) (result : String) (args : List String) :
    Passes program (f.code result args).code args (if f.temps = 1 then [result] else []) := by
  have htake : ∀ k, Covers args (args.take k) := fun k => covers_of_subset (List.take_subset k args)
  have hnone : Passes program [] args [] := passes_nil covers_nil
  cases f with
  | print => exact passes_map (fun _ => rfl) (fun _ => rfl) args
  | printflush => exact passes_map (fun _ => rfl) (fun _ => rfl) args
  | rand =>
    refine hnone.andThen rfl ?_ (covers_refl _)
    show Covers (args ++ []) ("rand" :: args.take 1)
    simp [htake, Text.isTemp_codeWords "rand" (by decide)]
  | getlink =>
    refine hnone.andThen rfl ?_ (covers_refl _)
    show Covers (args ++ []) (args.take 1)
    simp [htake]
  | ubind =>
    refine hnone.andThen rfl ?_ (covers_refl _)
    show Covers (args ++ []) (args.take 1)
    simp [htake]
  -- the operand that is written is not among those that are read
  | within =>
    refine hnone.andThen rfl ?_ ?_
    · rw [reads_within]
      simp [htake, Text.isTemp_codeWords "within" (by decide)]
    · simp [temps]
  | order o =>
    refine hnone.andThen rfl ?_ covers_nil
    rw [o.reads_ucontrol]
    simp [Text.isTemp_codeWords o.command o.command_mem, covers_of_subset (o.operands_subset args)]

/-- The value of a call is the variable that it takes, one of its arguments, or
    `null`, so it is known after the call. -/
theorem passes_call (f : Intrinsic) (result : String) {vs : List Valued}
    (hvs : ∀ v ∈ vs, Passes program v.code [] [v.value]) :
    Passes program (vs.flatMap Valued.code ++ (f.code result (vs.map Valued.value)).code) []
      [(f.code result (vs.map Valued.value)).value] := by
  have hcode := (passes_args hvs).append (f.passes_code result _) (covers_refl _)
  apply hcode.gives
  rw [f.value_code]
  rcases f.result_mem "null" result (vs.map Valued.value) with ⟨heq, htemps⟩ | hmem
  · rw [heq, if_pos htemps]
    exact covers_right _ _
  · rcases List.mem_cons.mp hmem with heq | hmem
    · rw [heq]
      simp [Text.isTemp_codeWords "null" (by decide)]
    · exact (covers_of_subset (by simpa using hmem)).more _

/-- The code of a tree reads no temporary variable before it has written it, and
    has written that of its value when it ends. -/
theorem Lowers.passes (hnodup : (labelsIn program).Nodup) {e : Expr} {n n' : Names} {f : Fragment}
    (h : Lowers e n f n') (hspares : e.SparesTemps) (huses : e.UsesNoLoop) :
    Passes program f.code [] (f.given e) := by
  induction e using Expr.children_induction generalizing n f n' with
  | step e ih =>
    have hpart : ∀ part ∈ e.children, ∀ {n n' : Names} {f : Fragment}, Lowers part n f n' →
        Passes program f.code [] (f.given part) := fun part hpart _ _ _ hlowers =>
      ih part hpart hlowers (hspares.child hpart) (huses.child hpart)
    -- a part that ends in a loop gives nothing, but none of these is used
    have hused : ∀ part ∈ e.consumed, ∀ {n n' : Names} {f : Fragment}, Lowers part n f n' →
        Passes program f.code [] f.value.toList := by
      intro part hmem _ _ f hlowers
      rw [← f.given_eq (huses.part hmem)]
      exact hpart part (e.consumed_subset hmem) hlowers
    have hvalued : ∀ part ∈ e.consumed, ∀ {n n' : Names} {v : Valued},
        Lowers part n v.toFragment n' → Passes program v.code [] [v.value] :=
      fun part hmem _ _ _ hlowers => hused part hmem hlowers
    -- what the node names itself is no temporary variable, so it can be read anywhere
    have hspelled := hspares.self
    have hword : ∀ x ∈ codeWords, Text.isTemp x = false := Text.isTemp_codeWords
    have hnone : Passes program [] [] [] := passes_nil covers_nil
    cases h with
    | seq hrest hlast =>
      have hpasses := (hpart _ (by simp [Expr.children, Expr.parts]) hrest).append
        (hpart _ (by simp [Expr.children, Expr.parts]) hlast) covers_nil
      exact hpasses.gives (covers_right _ _)
    | branch hcond hyes hno =>
      have hc := hvalued _ (by simp [Expr.consumed, Expr.children, Expr.parts]) hcond
      have hy := hvalued _ (by simp [Expr.consumed, Expr.children, Expr.parts]) hyes
      have hf := hused _ (by simp [Expr.consumed, Expr.children, Expr.parts]) hno
      exact passes_branch hnodup hc hy hf.valueOrNull (Text.isTemp_labelName _)
        (Text.isTemp_labelName _)
    -- the value of a loop is that of its last round, and there may have been none
    | @loop cond body c g _ _ n₂ hcond hbody =>
      have hc := hvalued _ (by simp [Expr.consumed]) hcond
      have hf := hpart _ (by simp [Expr.children, Expr.parts]) hbody
      have hpasses := passes_loop hnodup hc hf (Text.isTemp_labelName n₂.labels)
        (Text.isTemp_labelName (n₂.labels + 1))
      show Passes program _ [] (g.given (.loop cond body))
      rwa [hbody.given_loop]
    -- all arms and the else part write the result, so all of their values are used
    | @select subject arms otherwise s as g _ _ _ _ hsubject harms hotherwise =>
      have hmem : ∀ arm ∈ arms, ∀ part ∈ [arm.1, arm.2],
          part ∈ (Expr.select subject arms otherwise).consumed := by
        intro arm harm part hpart
        show part ∈ (Expr.select subject arms otherwise).children
        rw [Expr.children_select]
        exact List.mem_cons_of_mem _ (List.mem_append_left _ (List.mem_flatMap.mpr
          ⟨arm, harm, hpart⟩))
      have hs := hvalued _ (by simp [Expr.consumed, Expr.children_select]) hsubject
      have has := harms.forall_mem (Q := fun v => Passes program v.code [] [v.value])
        fun arm harm => ⟨fun _ _ _ => hvalued _ (hmem arm harm _ (by simp)),
          fun _ _ _ => hvalued _ (hmem arm harm _ (by simp))⟩
      have hf := hused _ (by simp [Expr.consumed, Expr.children_select]) hotherwise
      refine passes_select hnodup hs has hf.valueOrNull ?_ (Text.isTemp_labelName _)
      intro l hl
      obtain ⟨k, _, rfl⟩ := List.mem_map.mp hl
      exact Text.isTemp_labelName k
    | assign hvalue =>
      have hv := hvalued _ (by simp [Expr.consumed, Expr.children, Expr.parts]) hvalue
      exact hv.andThen rfl (covers_right _ _) (covers_left _ _)
    | @assignBuiltin name value g _ _ hvalue =>
      have hv := hpart _ (by simp [Expr.children, Expr.parts]) hvalue
      apply hv.gives
      show Covers _ ["@" ++ name]
      simp [hspelled ("@" ++ name) (by simp [Expr.spelled])]
    | @load cell address a _ _ haddress =>
      have ha := hvalued _ (by simp [Expr.consumed, Expr.children, Expr.parts]) haddress
      refine ha.andThen rfl ?_ (covers_right _ _)
      show Covers [a.value] [cell, a.value]
      simp [hspelled cell (by simp [Expr.spelled])]
    | @store cell address value a v _ _ _ haddress hvalue =>
      have ha := hvalued _ (by simp [Expr.consumed, Expr.children, Expr.parts]) haddress
      have hv := hvalued _ (by simp [Expr.consumed, Expr.children, Expr.parts]) hvalue
      refine (ha.append hv covers_nil).andThen rfl ?_ ?_
      · show Covers [a.value, v.value] [v.value, cell, a.value]
        simp [hspelled cell (by simp [Expr.spelled])]
      · exact (covers_right [a.value] [v.value]).more _
    | @control property target value v _ _ hvalue =>
      have hv := hvalued _ (by simp [Expr.consumed, Expr.children, Expr.parts]) hvalue
      refine hv.andThen rfl ?_ (covers_left _ _)
      show Covers [v.value] [property, target, v.value]
      simp [hspelled property (by simp [Expr.spelled]), hspelled target (by simp [Expr.spelled])]
    | @unary op operand operation v _ _ hoperand hop =>
      have hv := hvalued _ (by simp [Expr.consumed, Expr.children, Expr.parts]) hoperand
      refine hv.andThen rfl ?_ (covers_right _ _)
      show Covers [v.value] [operation, v.value]
      simp [hword operation (unaryOperation?_mem hop)]
    | @binary op left right operation l r _ _ _ hleft hright hop =>
      have hl := hvalued _ (by simp [Expr.consumed, Expr.children, Expr.parts]) hleft
      have hr := hvalued _ (by simp [Expr.consumed, Expr.children, Expr.parts]) hright
      refine (hl.append hr covers_nil).andThen rfl ?_ (covers_right _ _)
      show Covers [l.value, r.value] [operation, l.value, r.value]
      simp [hword operation (binaryOperation?_mem hop)]
    | @call name args vs fn _ n₁ hargs hname harity =>
      apply passes_call fn
      apply hargs.forall_mem (Q := fun v => Passes program v.code [] [v.value])
      intro arg harg _ _ _ hlowers
      exact hvalued arg (by simpa [Expr.consumed, Expr.children_call] using harg) hlowers
    | num literal n =>
      refine hnone.andThen rfl ?_ (covers_refl _)
      show Covers [] [literal]
      simp [hspelled literal (by simp [Expr.spelled])]
    | str text n =>
      refine hnone.andThen rfl ?_ (covers_refl _)
      show Covers [] [Text.quoted text]
      simp [hspelled (Text.quoted text) (by simp [Expr.spelled])]
    | sensor target name n =>
      refine hnone.andThen rfl ?_ (covers_refl _)
      show Covers [] [target, name]
      simp [hspelled target (by simp [Expr.spelled]), hspelled name (by simp [Expr.spelled])]
    | var name n => exact passes_constant (hspelled name (by simp [Expr.spelled]))
    | builtin name n => exact passes_constant (hspelled ("@" ++ name) (by simp [Expr.spelled]))
    | null n => exact passes_constant (hword "null" (by decide))
    | bool value n =>
      apply passes_constant (x := if value then "true" else "false")
      cases value
      · exact hword "false" (by decide)
      · exact hword "true" (by decide)
    | comment text n => exact hnone
    | nop n => exact hnone

/-! ## Section 7: Programs -/

/-- On every path through the program of a tree, each temporary variable that an
    instruction reads has been written by an instruction before it on the path.
    The tree must spell no name of a temporary variable, and no node of it may use
    what a loop left behind. -/
theorem assigned_before_read {e : Expr} {program : List Instruction} (hspares : e.SparesTemps)
    (huses : e.UsesNoLoop) (hprogram : generate e = .ok program) {done rest : List Instruction}
    {i : Instruction} (hpath : ProgramPath program done (i :: rest)) :
    ∀ x ∈ i.reads, Text.isTemp x = true → ∃ writer ∈ done, writer.destination? = some x := by
  obtain ⟨f, n', hlowers, rfl⟩ := lowers_of_generate hprogram
  have hnodup : (labelsIn (f.code ++ [.end_])).Nodup := by
    have hlabels := hlowers.settlesLabels.defined
    rw [labelsIn_append, show labelsIn [.end_] = [] from rfl, List.append_nil]
    exact hlabels.nodup_iff.mpr (nodup_labelRange _ _)
  have hstart : ∀ n, Safe (f.code ++ [.end_]) n [] (f.code ++ [.end_]) := by
    intro n
    -- nothing is known at the start, and nothing is read after the code of the tree
    apply hlowers.passes hnodup hspares huses n [] [.end_] (List.suffix_refl _) covers_nil
    exact safe_straight rfl covers_nil (by cases n <;> trivial)
  have hreads := (hpath.safe hstart 1).1
  intro x hx htemp
  exact List.mem_filterMap.mp (hreads x hx htemp)

/-- A loop, and after it an `if` whose value is used. -/
def loopThenBranch : Expr :=
  .seq (.loop (.var "go") (.assign "x" (.num "1")))
    (.assign "y" (.branch (.var "up") (.load "cell1" (.num "0")) .nop))

theorem assigned_before_read_loopThenBranch :
    loopThenBranch.SparesTemps ∧ loopThenBranch.UsesNoLoop ∧
    ∃ program done rest, generate loopThenBranch = .ok program ∧
      ProgramPath program done (.set "y" "tmp3" :: rest) ∧ done.length = 14 ∧
      ∃ writer ∈ done, writer.destination? = some "tmp3" := by
  have hspares : loopThenBranch.SparesTemps := by decide +kernel
  have huses : loopThenBranch.UsesNoLoop := by decide +kernel
  obtain ⟨program, hprogram⟩ : ∃ program, generate loopThenBranch = .ok program := ⟨_, rfl⟩
  -- one round of the loop, then out of it and through the first side of the `if`
  have hwalk : (((generate loopThenBranch).toOption.bind fun program =>
      walk program [] program [0, 0, 0, 0, 0, 0, 1, 0, 0, 0, 0, 0, 0, 0]).map
        fun c => (c.1.length, c.2.head?)) = some (14, some (.set "y" "tmp3")) := by
    decide +kernel
  rw [hprogram] at hwalk
  obtain ⟨⟨done, code⟩, hwalk, heq⟩ := Option.map_eq_some_iff.mp hwalk
  obtain ⟨hlength, hhead⟩ := Prod.mk.inj heq
  obtain ⟨rest, rfl⟩ := List.head?_eq_some_iff.mp hhead
  have hpath := path_of_walk .start hwalk
  refine ⟨hspares, huses, program, done, rest, hprogram, hpath, hlength, ?_⟩
  exact assigned_before_read hspares huses hprogram hpath "tmp3" (by decide +kernel)
    (by decide +kernel)

end Mlog
