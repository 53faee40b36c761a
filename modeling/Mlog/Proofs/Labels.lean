import Mlog.Proofs.Lowering

/-! # Labels of lowered code

    The code of a tree defines exactly the labels that were given out while
    it was lowered, each of them once, and jumps to no other label.  So does
    a session of any number of trees, of which some may fail: the labels of a
    tree that failed are never defined and never jumped to.

    * `Lowers.settlesLabels`: one tree.
    * `labels_of_session`: all trees of a session, one by one and together. -/

namespace Mlog

/-! ## Section 1: Labels and targets -/

/-- The label that an instruction defines. -/
def Instruction.label? (i : Instruction) : Option String :=
  if i.opcode = .label then i.operands.head? else none

/-- The label that an instruction jumps to. -/
def Instruction.target? (i : Instruction) : Option String :=
  if i.opcode = .jump then i.operands.head? else none

/-- The labels that code defines, in the order of the code. -/
def labelsIn (code : List Instruction) : List String := code.filterMap Instruction.label?

/-- The labels that code jumps to. -/
def targetsIn (code : List Instruction) : List String := code.filterMap Instruction.target?

/-- The labels with the numbers from `a` up to but not including `b`. -/
def labelRange (a b : Nat) : List String := (List.range' a (b - a)).map labelName

@[simp] theorem labelsIn_nil : labelsIn [] = [] := rfl

@[simp] theorem targetsIn_nil : targetsIn [] = [] := rfl

theorem labelsIn_cons (i : Instruction) (c : List Instruction) :
    labelsIn (i :: c) = i.label?.toList ++ labelsIn c := by
  unfold labelsIn
  rw [List.filterMap_cons]
  cases i.label? <;> rfl

theorem targetsIn_cons (i : Instruction) (c : List Instruction) :
    targetsIn (i :: c) = i.target?.toList ++ targetsIn c := by
  unfold targetsIn
  rw [List.filterMap_cons]
  cases i.target? <;> rfl

@[simp] theorem labelsIn_set (dest value : String) (c : List Instruction) :
    labelsIn (.set dest value :: c) = labelsIn c := labelsIn_cons ..

@[simp] theorem labelsIn_jumpNotEqual (l a b : String) (c : List Instruction) :
    labelsIn (.jumpNotEqual l a b :: c) = labelsIn c := labelsIn_cons ..

@[simp] theorem labelsIn_jumpAlways (l : String) (c : List Instruction) :
    labelsIn (.jumpAlways l :: c) = labelsIn c := labelsIn_cons ..

@[simp] theorem labelsIn_label (l : String) (c : List Instruction) :
    labelsIn (.label l :: c) = l :: labelsIn c := labelsIn_cons ..

@[simp] theorem labelsIn_end (c : List Instruction) : labelsIn (.end_ :: c) = labelsIn c :=
  labelsIn_cons ..

@[simp] theorem targetsIn_set (dest value : String) (c : List Instruction) :
    targetsIn (.set dest value :: c) = targetsIn c := targetsIn_cons ..

@[simp] theorem targetsIn_jumpNotEqual (l a b : String) (c : List Instruction) :
    targetsIn (.jumpNotEqual l a b :: c) = l :: targetsIn c := targetsIn_cons ..

@[simp] theorem targetsIn_jumpAlways (l : String) (c : List Instruction) :
    targetsIn (.jumpAlways l :: c) = l :: targetsIn c := targetsIn_cons ..

@[simp] theorem targetsIn_label (l : String) (c : List Instruction) :
    targetsIn (.label l :: c) = targetsIn c := targetsIn_cons ..

@[simp] theorem targetsIn_end (c : List Instruction) : targetsIn (.end_ :: c) = targetsIn c :=
  targetsIn_cons ..

@[simp] theorem labelsIn_append (c d : List Instruction) :
    labelsIn (c ++ d) = labelsIn c ++ labelsIn d := List.filterMap_append

@[simp] theorem targetsIn_append (c d : List Instruction) :
    targetsIn (c ++ d) = targetsIn c ++ targetsIn d := List.filterMap_append

theorem labelRange_append {a b c : Nat} (hab : a ≤ b) (hbc : b ≤ c) :
    labelRange a b ++ labelRange b c = labelRange a c := by
  have hlen : c - a = (b - a) + (c - b) := by omega
  have hstart : a + 1 * (b - a) = b := by omega
  unfold labelRange
  rw [← List.map_append, hlen, ← List.range'_append, hstart]

theorem nodup_labelRange (a b : Nat) : (labelRange a b).Nodup := by
  unfold labelRange
  refine List.Pairwise.map labelName ?_ List.nodup_range'
  intro i j hne heq
  exact hne (labelName_inj.mp heq)

theorem mem_labelRange {a b : Nat} {l : String} :
    l ∈ labelRange a b ↔ ∃ k, a ≤ k ∧ k < b ∧ labelName k = l := by
  unfold labelRange
  simp only [List.mem_map, List.mem_range'_1]
  constructor
  · rintro ⟨k, ⟨hak, hkb⟩, rfl⟩
    exact ⟨k, hak, by omega, rfl⟩
  · rintro ⟨k, hak, hkb, rfl⟩
    exact ⟨k, ⟨hak, by omega⟩, rfl⟩

/-! ## Section 2: Code that settles its labels -/

/-- The code defines exactly the labels from `a` up to `b`, each of them once,
    and jumps to these only. -/
structure SettlesLabels (code : List Instruction) (a b : Nat) : Prop where
  le : a ≤ b
  defined : (labelsIn code).Perm (labelRange a b)
  targets : ∀ target ∈ targetsIn code, target ∈ labelsIn code

/-- Code without labels and jumps. -/
theorem settlesLabels_straight {code : List Instruction} (hlabels : labelsIn code = [])
    (htargets : targetsIn code = []) (a : Nat) : SettlesLabels code a a := by
  refine ⟨Nat.le_refl a, ?_, ?_⟩
  · simp [hlabels, labelRange]
  · simp [htargets]

theorem SettlesLabels.append {c d : List Instruction} {a₀ a₁ a₂ : Nat}
    (hc : SettlesLabels c a₀ a₁) (hd : SettlesLabels d a₁ a₂) : SettlesLabels (c ++ d) a₀ a₂ := by
  refine ⟨Nat.le_trans hc.le hd.le, ?_, ?_⟩
  · rw [labelsIn_append, ← labelRange_append hc.le hd.le]
    exact hc.defined.append hd.defined
  · intro target hmem
    rw [targetsIn_append, List.mem_append] at hmem
    rw [labelsIn_append, List.mem_append]
    exact hmem.imp (hc.targets target) (hd.targets target)

/-- Code followed by code without labels and jumps. -/
theorem SettlesLabels.append_straight {c d : List Instruction} {a b : Nat}
    (hc : SettlesLabels c a b) (hlabels : labelsIn d = []) (htargets : targetsIn d = []) :
    SettlesLabels (c ++ d) a b := hc.append (settlesLabels_straight hlabels htargets b)

theorem labelRange_two (a : Nat) : labelRange a (a + 2) = [labelName a, labelName (a + 1)] := by
  have hlen : a + 2 - a = 2 := by omega
  rw [labelRange, hlen]
  rfl

/-- An `if` with the next two labels. -/
theorem settlesLabels_branch {c y : Valued} {f : Fragment} {a₀ a₁ a₂ a₃ : Nat}
    (hc : SettlesLabels c.code a₀ a₁) (hy : SettlesLabels y.code a₁ a₂)
    (hf : SettlesLabels f.code a₂ a₃) (result : String) :
    SettlesLabels (branchCode c y f result (labelName a₃) (labelName (a₃ + 1))) a₀ (a₃ + 2) := by
  have hinner := (hc.append hy).append hf
  refine ⟨Nat.le_add_right_of_le hinner.le, ?_, ?_⟩
  · rw [← labelRange_append hinner.le (Nat.le_add_right a₃ 2), labelRange_two]
    -- both labels stand once in the code, behind those of the parts
    apply List.perm_iff_count.mpr
    intro l
    have hcount := hinner.defined.count_eq l
    simp only [branchCode, labelsIn_append, labelsIn_jumpNotEqual, labelsIn_set,
      labelsIn_jumpAlways, labelsIn_label, labelsIn_nil, List.count_append, List.count_cons,
      List.count_nil] at hcount ⊢
    omega
  · intro target hmem
    have hc := hc.targets target
    have hy := hy.targets target
    have hf := hf.targets target
    simp only [branchCode, targetsIn_append, targetsIn_jumpNotEqual, targetsIn_set,
      targetsIn_jumpAlways, targetsIn_label, targetsIn_nil, List.mem_append,
      List.mem_singleton] at hmem
    simp only [branchCode, labelsIn_append, labelsIn_jumpNotEqual, labelsIn_set,
      labelsIn_jumpAlways, labelsIn_label, labelsIn_nil, List.mem_append, List.mem_singleton]
    grind

/-- A `while` with the next two labels. -/
theorem settlesLabels_loop {c : Valued} {f : Fragment} {a₀ a₁ a₂ : Nat}
    (hc : SettlesLabels c.code a₀ a₁) (hf : SettlesLabels f.code a₁ a₂) :
    SettlesLabels (loopCode c f (labelName a₂) (labelName (a₂ + 1))) a₀ (a₂ + 2) := by
  have hinner := hc.append hf
  refine ⟨Nat.le_add_right_of_le hinner.le, ?_, ?_⟩
  · rw [← labelRange_append hinner.le (Nat.le_add_right a₂ 2), labelRange_two]
    apply List.perm_iff_count.mpr
    intro l
    have hcount := hinner.defined.count_eq l
    simp only [loopCode, labelsIn_append, labelsIn_jumpNotEqual, labelsIn_jumpAlways,
      labelsIn_label, labelsIn_nil, List.count_append, List.count_cons,
      List.count_nil] at hcount ⊢
    omega
  · intro target hmem
    have hc := hc.targets target
    have hf := hf.targets target
    simp only [loopCode, targetsIn_append, targetsIn_jumpNotEqual, targetsIn_jumpAlways,
      targetsIn_label, targetsIn_nil, List.mem_append, List.mem_singleton] at hmem
    simp only [loopCode, labelsIn_append, labelsIn_jumpNotEqual, labelsIn_jumpAlways,
      labelsIn_label, labelsIn_nil, List.mem_append, List.mem_singleton]
    grind

/-- The arms of a `case` define the labels of their parts and the label after
    each arm, and jump to these or to the end of the `case`. -/
structure SettlesArms (code : List Instruction) (a b : Nat) (nextLabels : List String)
    (endLabel : String) : Prop where
  le : a ≤ b
  defined : (labelsIn code).Perm (labelRange a b ++ nextLabels)
  targets : ∀ target ∈ targetsIn code, target ∈ labelsIn code ∨ target = endLabel

theorem settlesArms_nil (a : Nat) (endLabel : String) : SettlesArms [] a a [] endLabel := by
  refine ⟨Nat.le_refl a, ?_, ?_⟩
  · simp [labelRange]
  · simp

theorem SettlesArms.cons {p b : Valued} {code : List Instruction} {a₀ a₁ a₂ a₃ : Nat}
    {labels : List String} {endLabel : String} (hp : SettlesLabels p.code a₀ a₁)
    (hb : SettlesLabels b.code a₁ a₂) (hcode : SettlesArms code a₂ a₃ labels endLabel)
    (subject result next : String) :
    SettlesArms (armCode subject p b result next endLabel ++ code) a₀ a₃ (next :: labels)
      endLabel := by
  have hfirst := hp.append hb
  refine ⟨Nat.le_trans hfirst.le hcode.le, ?_, ?_⟩
  · rw [← labelRange_append hfirst.le hcode.le]
    -- the label of this arm joins those of the others, which are counted apart
    apply List.perm_iff_count.mpr
    intro l
    have hcount := hfirst.defined.count_eq l
    have hothers := hcode.defined.count_eq l
    simp only [armCode, labelsIn_append, labelsIn_jumpNotEqual, labelsIn_set,
      labelsIn_jumpAlways, labelsIn_label, labelsIn_nil, List.count_append, List.count_cons,
      List.count_nil] at hcount hothers ⊢
    omega
  -- a jump goes to the next arm, to the end, or to a label of its own part
  · intro target hmem
    have hp := hp.targets target
    have hb := hb.targets target
    have hcode := hcode.targets target
    simp only [armCode, targetsIn_append, targetsIn_jumpNotEqual, targetsIn_set,
      targetsIn_jumpAlways, targetsIn_label, targetsIn_nil, List.mem_append,
      List.mem_singleton] at hmem
    simp only [armCode, labelsIn_append, labelsIn_jumpNotEqual, labelsIn_set,
      labelsIn_jumpAlways, labelsIn_label, labelsIn_nil, List.mem_append, List.mem_singleton]
    grind

theorem EachArm.settlesArms {arms : List (Expr × Expr)} {vs : List (Valued × Valued)}
    {n n' : Names}
    (h : EachArm (fun _ n v n' => SettlesLabels v.code n.labels n'.labels) arms n vs n')
    (subject result endLabel : String) (nextLabels : List String)
    (hlength : nextLabels.length = vs.length) :
    SettlesArms (armsCode subject result endLabel vs nextLabels) n.labels n'.labels nextLabels
      endLabel := by
  induction h generalizing nextLabels with
  | nil n =>
    obtain rfl := List.length_eq_zero_iff.mp hlength
    exact settlesArms_nil n.labels endLabel
  | cons hpattern hbody _ ih =>
    obtain ⟨next, labels, rfl⟩ := List.exists_cons_of_length_eq_add_one hlength
    have hothers := ih labels (Nat.succ.inj hlength)
    exact hothers.cons hpattern hbody subject result next

/-- A `case` with the next labels: one for each arm, and one for the end. -/
theorem settlesLabels_select {s : Valued} {as : List (Valued × Valued)} {f : Fragment}
    {a₀ a₁ a₂ a₃ : Nat} {result : String} (hs : SettlesLabels s.code a₀ a₁)
    (has : SettlesArms (armsCode s.value result (labelName (a₃ + as.length)) as
      ((List.range' a₃ as.length).map labelName)) a₁ a₂
      ((List.range' a₃ as.length).map labelName) (labelName (a₃ + as.length)))
    (hf : SettlesLabels f.code a₂ a₃) :
    SettlesLabels (selectCode s as f result ((List.range' a₃ as.length).map labelName)
      (labelName (a₃ + as.length))) a₀ (a₃ + as.length + 1) := by
  have hle₀ : a₀ ≤ a₂ := Nat.le_trans hs.le has.le
  have hle : a₀ ≤ a₃ := Nat.le_trans hle₀ hf.le
  -- the labels of the arms come first, and the one for the end is the last of all
  have hnew : labelRange a₃ (a₃ + as.length + 1) =
      (List.range' a₃ as.length).map labelName ++ [labelName (a₃ + as.length)] := by
    have hlen : a₃ + as.length + 1 - a₃ = as.length + 1 := by omega
    rw [labelRange, hlen, List.range'_concat, List.map_append, Nat.one_mul]
    rfl
  refine ⟨by omega, ?_, ?_⟩
  -- counted by parts: subject, arms, what else is done, and the labels that are new
  · rw [← labelRange_append hle (by omega : a₃ ≤ a₃ + as.length + 1), hnew,
      ← labelRange_append hle₀ hf.le, ← labelRange_append hs.le has.le]
    apply List.perm_iff_count.mpr
    intro l
    have hs := hs.defined.count_eq l
    have has := has.defined.count_eq l
    have hf := hf.defined.count_eq l
    simp only [selectCode, labelsIn_append, labelsIn_set, labelsIn_label, labelsIn_nil,
      List.count_append] at hs has hf ⊢
    omega
  · intro target hmem
    have hs := hs.targets target
    have has := has.targets target
    have hf := hf.targets target
    simp only [selectCode, targetsIn_append, targetsIn_set, targetsIn_label, targetsIn_nil,
      List.mem_append] at hmem
    simp only [selectCode, labelsIn_append, labelsIn_set, labelsIn_label, labelsIn_nil,
      List.mem_append, List.mem_singleton]
    grind

/-! ## Section 3: Lowered trees -/

/-- Instructions of a kind without labels and jumps, one for each operand. -/
theorem labels_map {make : String → Instruction} (hlabel : ∀ arg, (make arg).label? = none)
    (htarget : ∀ arg, (make arg).target? = none) (args : List String) :
    labelsIn (args.map make) = [] ∧ targetsIn (args.map make) = [] := by
  induction args with
  | nil => exact ⟨rfl, rfl⟩
  | cons arg args ih =>
    rw [List.map_cons, labelsIn_cons, targetsIn_cons, hlabel, htarget]
    exact ih

/-- The code of a call itself has no labels and no jumps. -/
theorem Intrinsic.labels_code (f : Intrinsic) (result : String) (args : List String) :
    labelsIn (f.code result args).code = [] ∧ targetsIn (f.code result args).code = [] := by
  cases f with
  | print => exact labels_map (fun _ => rfl) (fun _ => rfl) args
  | printflush => exact labels_map (fun _ => rfl) (fun _ => rfl) args
  | _ => exact ⟨rfl, rfl⟩

theorem EachArg.settlesLabels {args : List Expr} {vs : List Valued} {n n' : Names}
    (h : EachArg (fun _ n v n' => SettlesLabels v.code n.labels n'.labels) args n vs n') :
    SettlesLabels (vs.flatMap Valued.code) n.labels n'.labels := by
  induction h with
  | nil n => exact settlesLabels_straight rfl rfl n.labels
  | cons harg _ ih => exact harg.append ih

/-- The code of a tree settles the labels that were given out for it. -/
theorem Lowers.settlesLabels {e : Expr} :
    ∀ {n : Names} {f : Fragment} {n' : Names}, Lowers e n f n' →
      SettlesLabels f.code n.labels n'.labels := by
  induction e with
  | seq rest last ihrest ihlast =>
    intro n f n' h
    cases h with
    | seq hrest hlast => exact (ihrest hrest).append (ihlast hlast)
  | branch cond yes no ihcond ihyes ihno =>
    intro n f n' h
    cases h with
    | branch hcond hyes hno =>
      exact settlesLabels_branch (ihcond hcond) (ihyes hyes) (ihno hno) _
  | loop cond body ihcond ihbody =>
    intro n f n' h
    cases h with
    | loop hcond hbody => exact settlesLabels_loop (ihcond hcond) (ihbody hbody)
  | select subject arms otherwise ihsubject iharms ihotherwise =>
    intro n f n' h
    cases h with
    | select hsubject harms hotherwise =>
      have harms := harms.imp (Q := fun _ n v n' => SettlesLabels v.code n.labels n'.labels)
        fun arm harm => ⟨fun _ _ _ => (iharms arm harm).1, fun _ _ _ => (iharms arm harm).2⟩
      exact settlesLabels_select (ihsubject hsubject) (harms.settlesArms _ _ _ _ (by simp))
        (ihotherwise hotherwise)
  | assign name value ih =>
    intro n f n' h
    cases h with
    | assign hvalue => exact (ih hvalue).append_straight rfl rfl
  | assignBuiltin name value ih =>
    intro n f n' h
    cases h with
    | assignBuiltin hvalue =>
      have hcode := ih hvalue
      exact hcode
  | load cell address ih =>
    intro n f n' h
    cases h with
    | load haddress => exact (ih haddress).append_straight rfl rfl
  | store cell address value ihaddress ihvalue =>
    intro n f n' h
    cases h with
    | store haddress hvalue =>
      exact ((ihaddress haddress).append (ihvalue hvalue)).append_straight rfl rfl
  | control property target value ih =>
    intro n f n' h
    cases h with
    | control hvalue => exact (ih hvalue).append_straight rfl rfl
  | unary op operand ih =>
    intro n f n' h
    cases h with
    | unary hoperand _ => exact (ih hoperand).append_straight rfl rfl
  | binary op left right ihleft ihright =>
    intro n f n' h
    cases h with
    | binary hleft hright _ =>
      exact ((ihleft hleft).append (ihright hright)).append_straight rfl rfl
  | call name args ih =>
    intro n f n' h
    cases h with
    | call hargs _ _ =>
      have hargs := hargs.imp (Q := fun _ n v n' => SettlesLabels v.code n.labels n'.labels)
        fun arg harg _ _ _ => ih arg harg
      obtain ⟨hlabels, htargets⟩ := Intrinsic.labels_code _ _ _
      exact hargs.settlesLabels.append_straight hlabels htargets
  -- the rest has no parts, and at most one instruction that is no label and no jump
  | _ => intro n f n' h; cases h; exact settlesLabels_straight rfl rfl n.labels

/-! ## Section 4: Sessions -/

/-- One tree of a session: the names given out before and after it was
    lowered, and what came of it. -/
structure SessionStep where
  before : Names
  result : Except LoweringError Fragment
  after : Names

/-- Lowers trees one after another; after a failure the session goes on with
    the names as the failure left them. -/
def session (names : Names) : List Expr → List SessionStep
  | [] => []
  | e :: es =>
    let (result, names') := (lower e).runFrom names
    ⟨names, result, names'⟩ :: session names' es

/-- The code of a tree of a session, none if it failed. -/
def SessionStep.code (step : SessionStep) : List Instruction :=
  match step.result with
  | .ok f => f.code
  | .error _ => []

/-- The code of all trees of a session that did not fail. -/
def sessionCode (steps : List SessionStep) : List Instruction := steps.flatMap SessionStep.code

/-- What one tree of a session does to the labels. -/
theorem settlesLabels_of_mem_session {es : List Expr} {names : Names} {step : SessionStep}
    (hstep : step ∈ session names es) {f : Fragment} (hf : step.result = .ok f) :
    SettlesLabels f.code step.before.labels step.after.labels := by
  induction es generalizing names with
  | nil => simp [session] at hstep
  | cons e es ih =>
    rw [session, List.mem_cons] at hstep
    rcases hstep with rfl | hstep
    · have hrun : (lower e).runFrom names = (.ok f, ((lower e).runFrom names).2) := by
        rw [← hf]
      exact (lowers_of_run hrun).settlesLabels
    · exact ih hstep

/-- Whether a tree lowers or fails, what it adds to the session defines labels
    that were given out for it, none of them twice, and jumps to these. -/
theorem labels_sessionStep (e : Expr) (names : Names) :
    let step : SessionStep := ⟨names, ((lower e).runFrom names).1, ((lower e).runFrom names).2⟩
    (∀ l ∈ labelsIn step.code, l ∈ labelRange names.labels step.after.labels) ∧
      (labelsIn step.code).Nodup ∧ ∀ target ∈ targetsIn step.code, target ∈ labelsIn step.code := by
  rcases hrun : (lower e).runFrom names with ⟨error | f, names'⟩
  · -- a failure adds no code
    simp [SessionStep.code]
  · have hsettles := (lowers_of_run hrun).settlesLabels
    refine ⟨?_, ?_, hsettles.targets⟩
    · intro l hl
      exact hsettles.defined.mem_iff.mp hl
    · exact hsettles.defined.nodup_iff.mpr (nodup_labelRange _ _)

/-- A session defines labels that were not given out before it, none of them
    twice, and jumps to labels that it defines. -/
theorem labels_sessionCode (es : List Expr) (names : Names) :
    (∀ l ∈ labelsIn (sessionCode (session names es)), ∃ k, names.labels ≤ k ∧ labelName k = l) ∧
      (labelsIn (sessionCode (session names es))).Nodup ∧
      ∀ target ∈ targetsIn (sessionCode (session names es)),
        target ∈ labelsIn (sessionCode (session names es)) := by
  induction es generalizing names with
  | nil => simp [session, sessionCode]
  | cons e es ih =>
    obtain ⟨hfirst, hfirstNodup, hfirstTargets⟩ := labels_sessionStep e names
    obtain ⟨hothers, hothersNodup, hothersTargets⟩ := ih ((lower e).runFrom names).2
    have hgrows : names.labels ≤ ((lower e).runFrom names).2.labels :=
      (Lowering.grows_lower e names).labels
    have hcode : ∀ step steps, sessionCode (step :: steps) = step.code ++ sessionCode steps :=
      fun _ _ => List.flatMap_cons
    simp only [session, hcode, labelsIn_append, targetsIn_append]
    refine ⟨?_, ?_, ?_⟩
    · intro l hl
      rcases List.mem_append.mp hl with hl | hl
      · obtain ⟨k, hk, _, hname⟩ := mem_labelRange.mp (hfirst l hl)
        exact ⟨k, hk, hname⟩
      · obtain ⟨k, hk, hname⟩ := hothers l hl
        exact ⟨k, Nat.le_trans hgrows hk, hname⟩
    · -- the labels of the first tree have lower numbers than all later ones
      refine List.nodup_append.mpr ⟨hfirstNodup, hothersNodup, ?_⟩
      intro l hl l' hl' heq
      obtain ⟨i, _, hi, hiname⟩ := mem_labelRange.mp (hfirst l hl)
      obtain ⟨j, hj, hjname⟩ := hothers l' hl'
      have hij : i = j := labelName_inj.mp (by rw [hiname, hjname, heq])
      exact absurd hi (by rw [hij]; exact Nat.not_lt.mpr hj)
    · intro target hmem
      rcases List.mem_append.mp hmem with hmem | hmem
      · exact List.mem_append_left _ (hfirstTargets target hmem)
      · exact List.mem_append_right _ (hothersTargets target hmem)

/-- In a session from the start, the code of each tree that lowers defines
    exactly the labels between the two counts, each of them once, and jumps to
    these only.  In all the code of the session no label is defined twice, and
    each target of a jump is defined exactly once. -/
theorem labels_of_session (es : List Expr) :
    (∀ step ∈ session .none es, ∀ f, step.result = .ok f →
      step.before.labels ≤ step.after.labels ∧
      (labelsIn f.code).Perm
        ((List.range' step.before.labels (step.after.labels - step.before.labels)).map labelName) ∧
      ∀ target ∈ targetsIn f.code, target ∈ labelsIn f.code) ∧
    (labelsIn (sessionCode (session .none es))).Nodup ∧
    ∀ target ∈ targetsIn (sessionCode (session .none es)),
      (labelsIn (sessionCode (session .none es))).count target = 1 := by
  obtain ⟨_, hnodup, htargets⟩ := labels_sessionCode es .none
  refine ⟨?_, hnodup, ?_⟩
  · intro step hstep f hf
    have hsettles := settlesLabels_of_mem_session hstep hf
    exact ⟨hsettles.le, hsettles.defined, hsettles.targets⟩
  · intro target hmem
    rw [hnodup.count, if_pos (htargets target hmem)]

end Mlog
