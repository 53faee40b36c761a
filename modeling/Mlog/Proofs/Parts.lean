import Mlog.Compile
import Mlog.Proofs.Assembly
import Mlog.Proofs.Labels

/-! # Where the code of a part stands

    The code of each part of a tree stands in one piece in the code of the tree.
    What is around it has been given other labels, so no jump from there goes into
    the piece.

    * `LowersWithin`: a part of a tree and what became of it while the tree was
      lowered.
    * `LowersWithin.enclosed`: its code within the code of the tree.
    * `Lowers.mem_code`: each instruction is added by a node of the tree.
    * `lowers_of_compileToInstructions`: the program of a source text is the code of
      its tree. -/

namespace Mlog

/-! ## Section 1: Parts within a tree -/

theorem Lowers.unique {e : Expr} {n n₁ n₂ : Names} {f g : Fragment} (h : Lowers e n f n₁)
    (h' : Lowers e n g n₂) : f = g ∧ n₁ = n₂ := by
  have hruns := (run_of_lowers h).symm.trans (run_of_lowers h')
  obtain ⟨hresult, rfl⟩ := Prod.mk.inj hruns
  exact ⟨Except.ok.inj hresult, rfl⟩

namespace LowersAll

variable {es es' : List Expr} {fs gs : List Fragment} {n n₁ n₂ : Names}

theorem unique (h : LowersAll es n fs n₁) (h' : LowersAll es n gs n₂) : fs = gs ∧ n₁ = n₂ := by
  induction h generalizing gs with
  | nil n =>
    cases h'
    exact ⟨rfl, rfl⟩
  | cons he _ ih =>
    cases h' with
    | cons he' hes' =>
      obtain ⟨rfl, rfl⟩ := he.unique he'
      obtain ⟨rfl, rfl⟩ := ih hes'
      exact ⟨rfl, rfl⟩

theorem exists_append (h : LowersAll (es ++ es') n fs n₁) :
    ∃ gs hs m, fs = gs ++ hs ∧ LowersAll es n gs m ∧ LowersAll es' m hs n₁ := by
  induction es generalizing n fs with
  | nil => exact ⟨[], fs, n, rfl, .nil n, h⟩
  | cons e es ih =>
    cases h with
    | cons he hes =>
      obtain ⟨gs, hs, m, rfl, hfirst, hlast⟩ := ih hes
      exact ⟨_ :: gs, hs, m, rfl, .cons he hfirst, hlast⟩

/-- One of the trees, and those before and after it. -/
theorem exists_middle {e : Expr} (h : LowersAll (es ++ e :: es') n fs n₁) :
    ∃ gs g hs m m', fs = gs ++ g :: hs ∧ LowersAll es n gs m ∧ Lowers e m g m' ∧
      LowersAll es' m' hs n₁ := by
  obtain ⟨gs, _, m, rfl, hbefore, hrest⟩ := h.exists_append
  cases hrest with
  | cons he hafter => exact ⟨gs, _, _, m, _, rfl, hbefore, he, hafter⟩

/-- Which of the trees a fragment comes from. -/
theorem exists_split (h : LowersAll es n fs n₁) {f : Fragment} (hf : f ∈ fs) :
    ∃ before e after gs m m', es = before ++ e :: after ∧ LowersAll before n gs m ∧
      Lowers e m f m' := by
  induction h with
  | nil n => exact absurd hf List.not_mem_nil
  | @cons e es g fs n₀ n₁ n₂ he _ ih =>
    rcases List.mem_cons.mp hf with rfl | hf
    · exact ⟨[], e, es, [], n₀, n₁, rfl, .nil n₀, he⟩
    · obtain ⟨before, e', after, gs, m, m', rfl, hbefore, hlowers⟩ := ih hf
      exact ⟨e :: before, e', after, g :: gs, m, m', rfl, .cons he hbefore, hlowers⟩

/-- Which of the trees a temporary variable was given out for. -/
theorem exists_temp (h : LowersAll es n fs n₁) {k : Nat} (hk : n.temps ≤ k) (hk' : k < n₁.temps) :
    ∃ before e after gs f m m', es = before ++ e :: after ∧ LowersAll before n gs m ∧
      Lowers e m f m' ∧ m.temps ≤ k ∧ k < m'.temps := by
  induction h with
  | nil n => omega
  | @cons e es f fs n₀ n₁ n₂ he _ ih =>
    by_cases hfirst : k < n₁.temps
    · exact ⟨[], e, es, [], f, n₀, n₁, rfl, .nil n₀, he, hk, hfirst⟩
    · obtain ⟨before, e', after, gs, g, m, m', rfl, hbefore, hrest⟩ := ih (by omega) hk'
      exact ⟨e :: before, e', after, f :: gs, g, m, m', rfl, .cons he hbefore, hrest⟩

end LowersAll

/-- While the tree is lowered from the names `n` on, its part `node` is lowered from
    `m` on, gives the fragment `g`, and leaves `m'`. -/
inductive LowersWithin (node : Expr) (m : Names) (g : Fragment) (m' : Names) : Expr → Names → Prop
  | self : Lowers node m g m' → LowersWithin node m g m' node m
  | part {e child : Expr} {before after : List Expr} {fs : List Fragment} {n k : Names} :
      e.children = before ++ child :: after → LowersAll before n fs k →
      LowersWithin node m g m' child k → LowersWithin node m g m' e n

namespace LowersWithin

variable {node e : Expr} {n n' m m' : Names} {f g : Fragment}

theorem lowers (h : LowersWithin node m g m' e n) : Lowers node m g m' := by
  induction h with
  | self hnode => exact hnode
  | part _ _ _ ih => exact ih

theorem within (h : LowersWithin node m g m' e n) : node.Within e := by
  induction h with
  | self _ => exact .refl
  | part hchildren _ _ ih => exact ih.child (by simp [hchildren])

end LowersWithin

/-- Every node of a tree is lowered at some point while the tree is. -/
theorem Lowers.exists_within {node e : Expr} {n n' : Names} {f : Fragment} (h : Lowers e n f n')
    (hnode : node.Within e) : ∃ m g m', LowersWithin node m g m' e n := by
  induction hnode generalizing n f n' with
  | refl => exact ⟨n, f, n', .self h⟩
  | part hpart _ ih =>
    obtain ⟨fs, m, own, hparts, _, _⟩ := h.woven
    obtain ⟨before, after, hchildren⟩ := List.append_of_mem (List.mem_map_of_mem hpart)
    rw [← Expr.children] at hchildren
    rw [hchildren] at hparts
    obtain ⟨gs, g, hs, k, k', rfl, hbefore, hlowers, _⟩ := hparts.exists_middle
    obtain ⟨m, g', m', hwithin⟩ := ih hlowers
    exact ⟨m, g', m', .part hchildren hbefore hwithin⟩

/-! ## Section 2: Labels that a node adds -/

theorem settlesArms_bare (subject result endLabel : String) (as : List (Valued × Valued))
    (labels : List String) (hlength : labels.length = as.length) (a : Nat) :
    SettlesArms (armsCode subject result endLabel (as.map bareArm) labels) a a labels endLabel := by
  induction as generalizing labels with
  | nil =>
    obtain rfl := List.length_eq_zero_iff.mp hlength
    exact settlesArms_nil a endLabel
  | cons arm as ih =>
    obtain ⟨next, labels, rfl⟩ := List.exists_cons_of_length_eq_add_one hlength
    have hnone : SettlesLabels [] a a := settlesLabels_straight rfl rfl a
    exact (ih labels (Nat.succ.inj hlength)).cons hnone hnone subject result next

/-- What a node adds settles the labels that the node takes. -/
theorem Glued.settlesLabels {e : Expr} {n n' : Names} {fs : List Fragment}
    {own : List Instruction} {value : Option String} (h : Glued e n fs own value n') :
    SettlesLabels own n.labels n'.labels := by
  have hnone : SettlesLabels [] n.labels n.labels := settlesLabels_straight rfl rfl n.labels
  cases h with
  | branch cond yes no c y f n => exact settlesLabels_branch hnone hnone hnone _
  | loop cond body c f n => exact settlesLabels_loop hnone hnone
  | select subject arms otherwise s as f n hlength =>
    have harms := settlesArms_bare s.value (tempName n.temps) (labelName (n.labels + as.length)) as
      ((List.range' n.labels as.length).map labelName) (by simp) n.labels
    rw [← List.length_map bareArm] at harms ⊢
    exact settlesLabels_select hnone harms hnone
  | call args vs n hname harity =>
    obtain ⟨hlabels, htargets⟩ := Intrinsic.labels_code _ _ _
    exact settlesLabels_straight hlabels htargets n.labels
  | _ => exact settlesLabels_straight rfl rfl _

theorem SettlesLabels.target_mem {code : List Instruction} {a b : Nat}
    (h : SettlesLabels code a b) : ∀ target ∈ targetsIn code, target ∈ labelRange a b :=
  fun target hmem => h.defined.mem_iff.mp (h.targets target hmem)

/-- Labels from separate ranges are different. -/
theorem not_mem_labelRange {a b c d : Nat} {l : String} (h : l ∈ labelRange a b)
    (hapart : b ≤ c ∨ d ≤ a) : l ∉ labelRange c d := by
  intro h'
  obtain ⟨i, hai, hib, rfl⟩ := mem_labelRange.mp h
  obtain ⟨j, hcj, hjd, heq⟩ := mem_labelRange.mp h'
  rw [labelName_inj.mp heq] at hcj hjd
  omega

/-- A label that is given out later is not in the range. -/
theorem labelName_not_mem_labelRange {a b k : Nat} (h : b ≤ k) : labelName k ∉ labelRange a b := by
  intro hmem
  obtain ⟨j, _, hj, heq⟩ := mem_labelRange.mp hmem
  rw [labelName_inj.mp heq] at hj
  omega

/-! ## Section 3: The code of a part -/

theorem Woven.mem_targetsIn {fs : List Fragment} {own code : List Instruction}
    (h : Woven fs own code) {t : String} :
    t ∈ targetsIn code ↔ (∃ f ∈ fs, t ∈ targetsIn f.code) ∨ t ∈ targetsIn own := by
  have htargets := (h.perm.filterMap Instruction.target?).mem_iff (a := t)
  rw [List.filterMap_append, List.mem_append, List.filterMap_flatMap, List.mem_flatMap] at htargets
  exact htargets

theorem LowersAll.target_mem {es : List Expr} {fs : List Fragment} {n n' : Names}
    (h : LowersAll es n fs n') {f : Fragment} (hf : f ∈ fs) :
    ∀ t ∈ targetsIn f.code, t ∈ labelRange n.labels n'.labels := by
  intro t ht
  obtain ⟨e, _, m, m', hle, hlowers, hle'⟩ := h.exists_of_mem hf
  obtain ⟨k, hk, hk', rfl⟩ := mem_labelRange.mp (hlowers.settlesLabels.target_mem t ht)
  have hlabels := hle.labels
  have hlabels' := hle'.labels
  exact mem_labelRange.mpr ⟨k, by omega, by omega, rfl⟩

/-- The code of a part stands in one piece, and no jump around it goes to a label
    that was given out for the part. -/
theorem LowersWithin.enclosed {node e : Expr} {n n' m m' : Names} {f g : Fragment}
    (h : LowersWithin node m g m' e n) (he : Lowers e n f n') :
    n.Le m ∧ m'.Le n' ∧ ∃ before after, f.code = before ++ g.code ++ after ∧
      ∀ t ∈ targetsIn before ++ targetsIn after, t ∉ labelRange m.labels m'.labels := by
  induction h generalizing f n' with
  | self hnode =>
    obtain ⟨rfl, rfl⟩ := hnode.unique he
    exact ⟨.refl m, .refl m', [], [], by simp, by simp⟩
  | @part e child earlier later fs n k hchildren hearlier hwithin ih =>
    obtain ⟨gs, k₂, own, hparts, hglued, hwoven⟩ := he.woven
    rw [hchildren] at hparts
    obtain ⟨hs, c, ls, k', k₁, rfl, hbefore, hchild, hafter⟩ := hparts.exists_middle
    obtain ⟨rfl, rfl⟩ := hearlier.unique hbefore
    obtain ⟨hle, hle', before, after, hcode, houtside⟩ := ih hchild
    obtain ⟨own₁, own₂, before', after', rfl, hcode', hwoven₁, hwoven₂⟩ := hwoven.around
    have hlabels := hle.labels
    have hlabels' := hle'.labels
    have hlater := hafter.names_le
    -- what the other parts jump to, and what the node itself jumps to, is out of range
    have hown : ∀ t ∈ targetsIn own₁ ++ targetsIn own₂, t ∉ labelRange m.labels m'.labels := by
      intro t ht
      rw [← targetsIn_append] at ht
      have hlast := hlater.labels
      exact not_mem_labelRange (hglued.settlesLabels.target_mem t ht) (by omega)
    refine ⟨hearlier.names_le.trans hle, hle'.trans (hlater.trans hglued.names_le),
      before' ++ before, after ++ after', by simp [hcode', hcode], ?_⟩
    intro t ht
    simp only [targetsIn_append, List.mem_append, hwoven₁.mem_targetsIn,
      hwoven₂.mem_targetsIn] at ht
    simp only [List.mem_append] at houtside hown
    rcases ht with ((⟨d, hd, ht⟩ | ht) | ht) | (ht | (⟨d, hd, ht⟩ | ht))
    · exact not_mem_labelRange (hearlier.target_mem hd t ht) (.inl hlabels)
    · exact hown t (.inl ht)
    · exact houtside t (.inl ht)
    · exact houtside t (.inr ht)
    · exact not_mem_labelRange (hafter.target_mem hd t ht) (.inr hlabels')
    · exact hown t (.inr ht)

/-! ## Section 4: Instructions of all nodes -/

/-- While the tree is lowered, the node within it adds the instruction to the code of
    its parts. -/
structure AddedBy (e : Expr) (n : Names) (node : Expr) (i : Instruction) : Prop where
  exists_own : ∃ m g m' fs k own, LowersWithin node m g m' e n ∧
    LowersAll node.children m fs k ∧ Glued node k fs own g.value m' ∧ Woven fs own g.code ∧ i ∈ own

theorem AddedBy.part {e child node : Expr} {before after : List Expr} {fs : List Fragment}
    {n k : Names} {i : Instruction} (h : AddedBy child k node i)
    (hchildren : e.children = before ++ child :: after) (hbefore : LowersAll before n fs k) :
    AddedBy e n node i := by
  obtain ⟨m, g, m', gs, k', own, hwithin, hrest⟩ := h.exists_own
  exact ⟨m, g, m', gs, k', own, .part hchildren hbefore hwithin, hrest⟩

/-- The code of a tree consists of what its nodes add. -/
theorem Lowers.mem_code {e : Expr} {n n' : Names} {f : Fragment} (h : Lowers e n f n')
    {i : Instruction} : i ∈ f.code ↔ ∃ node, AddedBy e n node i := by
  constructor
  · intro hi
    induction e using Expr.children_induction generalizing n f n' with
    | step e ih =>
      obtain ⟨fs, m, own, hparts, hglued, hwoven⟩ := h.woven
      rcases List.mem_append.mp (hwoven.perm.mem_iff.mp hi) with hi | hi
      · obtain ⟨g, hg, hi⟩ := List.mem_flatMap.mp hi
        obtain ⟨before, child, after, gs, k, k', hchildren, hbefore, hchild⟩ :=
          hparts.exists_split hg
        obtain ⟨node, hadded⟩ := ih child (by simp [hchildren]) hchild hi
        exact ⟨node, hadded.part hchildren hbefore⟩
      · exact ⟨e, n, f, n', fs, m, own, .self h, hparts, hglued, hwoven, hi⟩
  · rintro ⟨node, hadded⟩
    obtain ⟨m, g, m', fs, k, own, hwithin, _, _, hwoven, hi⟩ := hadded.exists_own
    obtain ⟨_, _, before, after, hcode, _⟩ := hwithin.enclosed h
    have hmem : i ∈ g.code := hwoven.perm.mem_iff.mpr (List.mem_append_right _ hi)
    rw [hcode]
    simp [hmem]

/-- What holds of all instructions that nodes add holds of all code. -/
theorem Lowers.forall_code {P : Instruction → Prop}
    (hown : ∀ {e : Expr} {n n' : Names} {fs : List Fragment} {own : List Instruction}
      {value : Option String}, Glued e n fs own value n' → ∀ i ∈ own, P i)
    {e : Expr} {n n' : Names} {f : Fragment} (h : Lowers e n f n') : ∀ i ∈ f.code, P i := by
  intro i hi
  obtain ⟨node, hadded⟩ := h.mem_code.mp hi
  obtain ⟨_, _, _, _, _, own, _, _, hglued, _, hi⟩ := hadded.exists_own
  exact hown hglued i hi

/-- What holds of what each arm of a `case` adds holds of what all of them add. -/
theorem all_armsCode {p : Instruction → Bool} {subject result endPlace : String}
    (harm : ∀ (arm : Valued × Valued) (place : String),
      (armCode subject arm.1.bare arm.2.bare result place endPlace).all p = true)
    (as : List (Valued × Valued)) (places : List String) :
    (armsCode subject result endPlace (as.map bareArm) places).all p = true := by
  induction as generalizing places with
  | nil => rfl
  | cons arm as ih =>
    cases places with
    | nil => rfl
    | cons place places =>
      show List.all (armCode subject arm.1.bare arm.2.bare result place endPlace ++ _) _ = true
      rw [List.all_append, ih, harm]
      rfl

/-! ## Section 5: Programs of source texts -/

theorem lowers_of_generateWith {emitEnd : Bool} {e : Expr} {program : List Instruction}
    (h : generateWith emitEnd e = .ok program) :
    ∃ f n', Lowers e .none f n' ∧ program = f.code ++ if emitEnd then [.end_] else [] := by
  cases emitEnd with
  | true => exact lowers_of_generate h
  | false =>
    rcases hrun : (lower e).runFrom .none with ⟨error | f, n'⟩
    · simp [generateWith, hrun, Except.map] at h
    · obtain rfl : f.code = program := by simpa [generateWith, hrun, Except.map] using h
      exact ⟨f, n', lowers_of_run hrun, by simp⟩

/-- The instructions of a source text are those of its tree, and maybe an `end`. -/
theorem lowers_of_compileToInstructions {emitEnd : Bool} {source : String}
    {program : List Instruction} (h : compileToInstructions emitEnd source = .ok program) :
    ∃ e f n', parseSource source = .ok e ∧ Lowers e .none f n' ∧
      program = f.code ++ if emitEnd then [.end_] else [] := by
  unfold compileToInstructions at h
  cases hparse : parseSource source with
  | error faults =>
    rw [hparse] at h
    exact absurd h (by simp [bind, Except.bind])
  | ok e =>
    rw [hparse] at h
    -- a fault of the lowering is only put into a list, so success is kept
    have hgenerate : generateWith emitEnd e = .ok program := by
      have hmapped : (generateWith emitEnd e).mapError (fun error => [error.diagnostic]) =
          .ok program := h
      cases hresult : generateWith emitEnd e with
      | error fault =>
        rw [hresult] at hmapped
        cases hmapped
      | ok instructions =>
        rw [hresult] at hmapped
        exact congrArg _ (Except.ok.inj hmapped)
    obtain ⟨f, n', hlowers, heq⟩ := lowers_of_generateWith hgenerate
    exact ⟨e, f, n', rfl, hlowers, heq⟩

end Mlog
