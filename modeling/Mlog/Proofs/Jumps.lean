import Mathlib.Data.List.Forall2
import Mlog.Proofs.Assignment
import Mlog.Proofs.Parts

/-! # Jumps backwards

    The only jumps to labels that stand before them are those that close the loops
    of the tree.  Each loop has one such jump, without a condition, and can be
    entered only through its label: no jump from outside goes to a label between
    the two.  So a program without loops runs no instruction twice and comes to its
    `end`, whatever the outcomes of its jumps.

    * `Lowers.backTargets`: the loops of a tree and the jumps backwards in its code,
      one by one in the same order.
    * `jumps_of_generate`: all of it for whole programs. -/

namespace Mlog

/-! ## Section 1: Jumps to labels before them -/

/-- The targets of the jumps that go to a label among `seen`, or to one that stands
    before the jump in the code. -/
def backTargetsAfter (seen : List String) : List Instruction → List String
  | [] => []
  | i :: rest =>
    i.target?.toList.filter (· ∈ seen) ++ backTargetsAfter (seen ++ i.label?.toList) rest

/-- The targets of the jumps that go to a label before them, in the order of the
    code. -/
def backTargets (code : List Instruction) : List String := backTargetsAfter [] code

section

variable {seen seen' : List String} {c d code : List Instruction}

@[simp] theorem backTargetsAfter_nil : backTargetsAfter seen [] = [] := rfl

@[simp] theorem backTargetsAfter_set (dest value : String) :
    backTargetsAfter seen (.set dest value :: c) = backTargetsAfter seen c := by
  show backTargetsAfter (seen ++ []) c = backTargetsAfter seen c
  rw [List.append_nil]

@[simp] theorem backTargetsAfter_label (l : String) :
    backTargetsAfter seen (.label l :: c) = backTargetsAfter (seen ++ [l]) c := rfl

theorem backTargetsAfter_jumpNotEqual (l a b : String) :
    backTargetsAfter seen (.jumpNotEqual l a b :: c) =
      [l].filter (· ∈ seen) ++ backTargetsAfter seen c := by
  show _ ++ backTargetsAfter (seen ++ []) c = _
  rw [List.append_nil]
  rfl

theorem backTargetsAfter_jumpAlways (l : String) :
    backTargetsAfter seen (.jumpAlways l :: c) =
      [l].filter (· ∈ seen) ++ backTargetsAfter seen c := by
  show _ ++ backTargetsAfter (seen ++ []) c = _
  rw [List.append_nil]
  rfl

theorem backTargetsAfter_append :
    backTargetsAfter seen (c ++ d) =
      backTargetsAfter seen c ++ backTargetsAfter (seen ++ labelsIn c) d := by
  induction c generalizing seen with
  | nil => simp
  | cons i c ih =>
    rw [List.cons_append, backTargetsAfter, backTargetsAfter, ih, labelsIn_cons]
    simp only [List.append_assoc]

/-- Only the labels that the code jumps to matter. -/
theorem backTargetsAfter_congr (h : ∀ t ∈ targetsIn code, t ∈ seen ↔ t ∈ seen') :
    backTargetsAfter seen code = backTargetsAfter seen' code := by
  induction code generalizing seen seen' with
  | nil => rfl
  | cons i rest ih =>
    rw [targetsIn_cons, List.forall_mem_append] at h
    obtain ⟨hfirst, hrest⟩ := h
    rw [backTargetsAfter, backTargetsAfter]
    congr 1
    · apply List.filter_congr
      intro t ht
      exact decide_eq_decide.mpr (hfirst t ht)
    · apply ih
      intro t ht
      rw [List.mem_append, List.mem_append, hrest t ht]

/-- What was defined before does not matter if the code does not jump there. -/
theorem backTargetsAfter_eq (h : ∀ t ∈ targetsIn code, t ∉ seen) :
    backTargetsAfter seen code = backTargets code := by
  apply backTargetsAfter_congr
  intro t ht
  simp [h t ht]

theorem mem_backTargetsAfter {t : String} :
    t ∈ backTargetsAfter seen code ↔
      ∃ before i after, code = before ++ i :: after ∧ i.target? = some t ∧
        t ∈ seen ++ labelsIn before := by
  induction code generalizing seen with
  | nil => simp
  | cons i rest ih =>
    rw [backTargetsAfter, List.mem_append, ih, List.mem_filter, Option.mem_toList,
      decide_eq_true_iff]
    constructor
    · intro h
      rcases h with ⟨htarget, hseen⟩ | ⟨before, j, after, rfl, htarget, hseen⟩
      -- the first instruction jumps itself, or a later one does
      · exact ⟨[], i, rest, rfl, htarget, by simpa using hseen⟩
      · exact ⟨i :: before, j, after, rfl, htarget, by simpa [labelsIn_cons] using hseen⟩
    · rintro ⟨before, j, after, heq, htarget, hseen⟩
      cases before with
      | nil =>
        obtain ⟨rfl, rfl⟩ := List.cons.inj heq
        exact .inl ⟨htarget, by simpa using hseen⟩
      | cons k before =>
        obtain ⟨rfl, rfl⟩ := List.cons.inj heq
        exact .inr ⟨before, j, after, rfl, htarget, by simpa [labelsIn_cons] using hseen⟩

theorem mem_backTargets {t : String} :
    t ∈ backTargets code ↔
      ∃ before i after, code = before ++ i :: after ∧ i.target? = some t ∧ t ∈ labelsIn before :=
  mem_backTargetsAfter

theorem backTargetsAfter_of_straight (h : targetsIn code = []) :
    backTargetsAfter seen code = [] := by
  apply List.eq_nil_iff_forall_not_mem.mpr
  intro t ht
  obtain ⟨before, i, after, rfl, htarget, _⟩ := mem_backTargetsAfter.mp ht
  rw [targetsIn_append, targetsIn_cons, htarget] at h
  simp at h

end

/-! ## Section 2: Loops -/

namespace Expr

/-- Is the node a `while`? -/
def isLoop : Expr → Bool
  | loop _ _ => true
  | _ => false

/-- The loops of a tree in the order of evaluation, inner ones first. -/
def loops (e : Expr) : List Expr := e.nodes.filter isLoop

theorem loops_eq (e : Expr) : e.loops = e.children.flatMap loops ++ [e].filter isLoop := by
  unfold loops
  rw [nodes_eq, List.filter_append, List.filter_flatMap]

end Expr

/-- While the tree is lowered, the code of a loop within it is put between a label
    and the one jump that goes back there. -/
structure LoopAt (e : Expr) (n : Names) (node : Expr) (label : String) : Prop where
  exists_code : ∃ m g m' inside done, LowersWithin node m g m' e n ∧
    g.code = .label label :: inside ++ [.jumpAlways label, .label done] ∧ label ∉ targetsIn inside

theorem LoopAt.part {e child node : Expr} {before after : List Expr} {fs : List Fragment}
    {n k : Names} {label : String} (h : LoopAt child k node label)
    (hchildren : e.children = before ++ child :: after) (hbefore : LowersAll before n fs k) :
    LoopAt e n node label := by
  obtain ⟨m, g, m', inside, done, hwithin, hcode, htargets⟩ := h.exists_code
  exact ⟨m, g, m', inside, done, .part hchildren hbefore hwithin, hcode, htargets⟩

/-- The arms of a `case` jump to the label after the arm and to the end. -/
theorem backTargetsAfter_armsCode {subject result endLabel : String} {as : List (Valued × Valued)}
    {labels seen : List String} {rest : List Instruction} (hlength : labels.length = as.length)
    (hnodup : (seen ++ labels).Nodup) (hend : endLabel ∉ seen ++ labels) :
    backTargetsAfter seen (armsCode subject result endLabel (as.map bareArm) labels ++ rest) =
      backTargetsAfter (seen ++ labels) rest := by
  induction as generalizing labels seen with
  | nil =>
    obtain rfl := List.length_eq_zero_iff.mp hlength
    simp [armsCode]
  | cons arm as ih =>
    obtain ⟨next, labels, rfl⟩ := List.exists_cons_of_length_eq_add_one hlength
    have hmoved : seen ++ next :: labels = (seen ++ [next]) ++ labels := by simp
    have hnext : next ∉ seen := by
      intro hmem
      exact (List.nodup_append.mp hnodup).2.2 next hmem next List.mem_cons_self rfl
    have hend' : endLabel ∉ seen := fun hmem => hend (List.mem_append_left _ hmem)
    rw [hmoved] at hnodup hend ⊢
    rw [← ih (Nat.succ.inj hlength) hnodup hend]
    simp [armsCode, armCode, bareArm, backTargetsAfter_jumpNotEqual, backTargetsAfter_jumpAlways,
      hnext, hend']

/-- Apart from loops, what a node adds has no jump backwards. -/
theorem Glued.backTargets_eq_nil {e : Expr} {n n' : Names} {fs : List Fragment}
    {own : List Instruction} {value : Option String} (h : Glued e n fs own value n')
    (hloop : e.isLoop = false) : backTargets own = [] := by
  cases h with
  | loop cond body c f n => exact absurd hloop (by simp [Expr.isLoop])
  | branch cond yes no c y f n =>
    simp [backTargets, branchCode, backTargetsAfter_jumpNotEqual, backTargetsAfter_jumpAlways]
  | select subject arms otherwise s as f n hlength =>
    have hlabels : (List.range' n.labels as.length).map labelName =
        labelRange n.labels (n.labels + as.length) := by
      rw [labelRange, Nat.add_sub_cancel_left]
    have hend : labelName (n.labels + as.length) ∉ labelRange n.labels (n.labels + as.length) :=
      labelName_not_mem_labelRange (Nat.le_refl _)
    rw [hlabels, backTargets, selectCode, Valued.bare_code, Fragment.bare_code, List.nil_append,
      List.append_nil, backTargetsAfter_armsCode (by simp [labelRange])
        (by simpa using nodup_labelRange _ _) (by simpa using hend)]
    simp
  | call args vs n hname harity =>
    obtain ⟨_, htargets⟩ := Intrinsic.labels_code _ _ _
    exact backTargetsAfter_of_straight htargets
  | _ => rfl

/-- Parts keep their jumps backwards when their code is woven together, and the node
    adds none if what it adds has none. -/
theorem Woven.backTargetsAfter_eq {es : List Expr} {fs : List Fragment} {n n' : Names}
    {own code : List Instruction} {seen : List String} (h : Woven fs own code)
    (hparts : LowersAll es n fs n') (hseen : ∀ l ∈ seen, l ∉ labelRange n.labels n'.labels)
    (hlabels : ∀ l ∈ labelsIn own, l ∉ labelRange n.labels n'.labels)
    (htargets : ∀ t ∈ targetsIn own, t ∉ labelRange n.labels n'.labels)
    (hown : backTargetsAfter seen own = []) :
    backTargetsAfter seen code = fs.flatMap fun f => backTargets f.code := by
  induction h generalizing es n seen with
  | nil => rfl
  | @own fs own code i _ ih =>
    rw [labelsIn_cons, List.forall_mem_append] at hlabels
    rw [targetsIn_cons, List.forall_mem_append] at htargets
    rw [backTargetsAfter, List.append_eq_nil_iff] at hown
    rw [backTargetsAfter, hown.1, List.nil_append]
    exact ih hparts (List.forall_mem_append.mpr ⟨hseen, hlabels.1⟩) hlabels.2 htargets.2 hown.2
  | @part fs own code f _ ih =>
    cases hparts with
    | @cons e es _ _ _ n₁ _ he hes =>
      have hle := he.names_le.labels
      have hle' := hes.names_le.labels
      have hsettles := he.settlesLabels
      -- the ranges of the first part and of the others make up that of all parts
      have hall : ∀ l, l ∉ labelRange n.labels n'.labels →
          l ∉ labelRange n.labels n₁.labels ∧ l ∉ labelRange n₁.labels n'.labels := by
        intro l hl
        rw [← labelRange_append hle hle', List.mem_append, not_or] at hl
        exact hl
      rw [backTargetsAfter_append, List.flatMap_cons]
      congr 1
      · apply Mlog.backTargetsAfter_eq
        intro t ht hmem
        exact (hall t (hseen t hmem)).1 (hsettles.target_mem t ht)
      · apply ih hes
        · intro l hl
          rcases List.mem_append.mp hl with hl | hl
          · exact (hall l (hseen l hl)).2
          · exact not_mem_labelRange (hsettles.defined.mem_iff.mp hl) (.inl (Nat.le_refl _))
        · exact fun l hl => (hall l (hlabels l hl)).2
        · exact fun t ht => (hall t (htargets t ht)).2
        · -- what the node adds does not jump into the first part
          rw [← hown]
          apply backTargetsAfter_congr
          intro t ht
          have hout := (hall t (htargets t ht)).1
          rw [List.mem_append, hsettles.defined.mem_iff, or_iff_left hout]

/-- The code between the label of a loop and the jump back. -/
def loopInside (c : Valued) (f : Fragment) (doneLabel : String) : List Instruction :=
  c.code ++ .jumpNotEqual doneLabel c.value "true" :: f.code

theorem loopCode_eq (c : Valued) (f : Fragment) (condLabel doneLabel : String) :
    loopCode c f condLabel doneLabel =
      .label condLabel :: loopInside c f doneLabel ++
        [.jumpAlways condLabel, .label doneLabel] := by
  simp [loopCode, loopInside]

theorem woven_loopInside (c : Valued) (f : Fragment) (doneLabel : String) :
    Woven [c.toFragment, f] [.jumpNotEqual doneLabel c.value "true"]
      (loopInside c f doneLabel) := by
  have hbody := (Woven.ofParts [f]).own (.jumpNotEqual doneLabel c.value "true")
  simpa [loopInside, Valued.toFragment] using hbody.part c.toFragment

section

variable {cond body : Expr} {c : Valued} {f : Fragment} {n n₁ n₂ : Names}

theorem label_not_mem_loopInside (hcond : Lowers cond n c.toFragment n₁)
    (hbody : Lowers body n₁ f n₂) :
    labelName n₂.labels ∉ targetsIn (loopInside c f (labelName (n₂.labels + 1))) := by
  have hparts : LowersAll [cond, body] n [c.toFragment, f] n₂ := .cons hcond (.cons hbody (.nil n₂))
  intro hmem
  rcases (woven_loopInside c f _).mem_targetsIn.mp hmem with ⟨g, hg, hmem⟩ | hmem
  · exact labelName_not_mem_labelRange (Nat.le_refl _) (hparts.target_mem hg _ hmem)
  · have heq := labelName_inj.mp (List.mem_singleton.mp hmem)
    omega

/-- A loop has one jump backwards of its own, after those of its parts. -/
theorem backTargets_loopCode (hcond : Lowers cond n c.toFragment n₁) (hbody : Lowers body n₁ f n₂) :
    backTargets (loopCode c f (labelName n₂.labels) (labelName (n₂.labels + 1))) =
      backTargets c.code ++ backTargets f.code ++ [labelName n₂.labels] := by
  have hparts : LowersAll [cond, body] n [c.toFragment, f] n₂ := .cons hcond (.cons hbody (.nil n₂))
  have hnew : ∀ k, n₂.labels ≤ k → labelName k ∉ labelRange n.labels n₂.labels :=
    fun k => labelName_not_mem_labelRange
  have hdone : labelName (n₂.labels + 1) ≠ labelName n₂.labels := by
    intro heq
    have heq := labelName_inj.mp heq
    omega
  -- the jump out of the loop goes forward, so up to the last jump there are those of the parts
  have hinside : backTargetsAfter [labelName n₂.labels]
      (loopInside c f (labelName (n₂.labels + 1))) =
      [c.toFragment, f].flatMap fun f => backTargets f.code :=
    (woven_loopInside c f _).backTargetsAfter_eq hparts (by simpa using hnew _ (Nat.le_refl _))
      (by simp) (by simpa using hnew _ (Nat.le_succ _))
      (by simp [backTargetsAfter_jumpNotEqual, hdone])
  rw [loopCode_eq, List.cons_append, backTargets, backTargetsAfter_label, List.nil_append,
    backTargetsAfter_append, hinside]
  simp [backTargetsAfter_jumpAlways, Valued.toFragment]

end

/-- The loops among trees that are parts of one node, given those of each. -/
theorem LowersAll.loops {e : Expr} {before es : List Expr} {gs fs : List Fragment}
    {n₀ n n' : Names} (hchildren : e.children = before ++ es) (hbefore : LowersAll before n₀ gs n)
    (hes : LowersAll es n fs n')
    (ih : ∀ child ∈ e.children, ∀ {n n' : Names} {f : Fragment}, Lowers child n f n' →
      List.Forall₂ (LoopAt child n) child.loops (backTargets f.code)) :
    List.Forall₂ (LoopAt e n₀) (es.flatMap Expr.loops)
      (fs.flatMap fun f => backTargets f.code) := by
  induction hes generalizing before gs with
  | nil n => exact .nil
  | @cons child es f fs n n₁ n' hchild _ ihes =>
    have hfirst : List.Forall₂ (LoopAt e n₀) child.loops (backTargets f.code) :=
      (ih child (by simp [hchildren]) hchild).imp fun _ _ hloop => hloop.part hchildren hbefore
    have hnext : e.children = (before ++ [child]) ++ es := by simp [hchildren]
    have hothers := ihes hnext (hbefore.append (.cons hchild (.nil n₁)))
    rw [List.flatMap_cons, List.flatMap_cons]
    exact List.rel_append hfirst hothers

/-- The loops of a tree and the jumps backwards in its code, one by one. -/
theorem Lowers.backTargets {e : Expr} {n n' : Names} {f : Fragment} (h : Lowers e n f n') :
    List.Forall₂ (LoopAt e n) e.loops (Mlog.backTargets f.code) := by
  induction e using Expr.children_induction generalizing n f n' with
  | step e ih =>
    obtain ⟨fs, m, own, hparts, hglued, hwoven⟩ := h.woven
    have hchildren : e.children = [] ++ e.children := rfl
    have hall := LowersAll.loops hchildren (.nil n) hparts ih
    rw [Expr.loops_eq]
    by_cases hloop : e.isLoop = true
    · -- the loop's own jump is the last one
      cases h with
      | @loop cond body c g _ n₁ n₂ hcond hbody =>
        obtain ⟨rfl, rfl⟩ := hparts.unique (.cons hcond (.cons hbody (.nil n₂)))
        rw [backTargets_loopCode hcond hbody]
        have hself : LoopAt (.loop cond body) n (.loop cond body) (labelName m.labels) :=
          ⟨n, _, _, _, _, .self (.loop hcond hbody), loopCode_eq ..,
            label_not_mem_loopInside hcond hbody⟩
        exact List.rel_append (by simpa [Valued.toFragment] using hall) (.cons hself .nil)
      | _ => exact absurd hloop (by simp [Expr.isLoop])
    · have hloop := Bool.eq_false_iff.mpr hloop
      have hsettles := hglued.settlesLabels
      have hout : ∀ l ∈ labelRange m.labels n'.labels, l ∉ labelRange n.labels m.labels :=
        fun l hl => not_mem_labelRange hl (.inr (Nat.le_refl _))
      have hcode : Mlog.backTargets f.code = fs.flatMap fun f => Mlog.backTargets f.code :=
        hwoven.backTargetsAfter_eq hparts (by simp)
          (fun l hl => hout l (hsettles.defined.mem_iff.mp hl))
          (fun t ht => hout t (hsettles.target_mem t ht)) (hglued.backTargets_eq_nil hloop)
      rw [hcode]
      simpa [hloop] using hall

/-! ## Section 3: Jumps of a program -/

/-- An element with a property that no other has stands at one place only. -/
theorem append_cons_inj_of_unique {α : Type} {p : α → Prop} {a b c d : List α} {x y : α}
    (h : a ++ x :: b = c ++ y :: d) (hy : p y) (ha : ∀ z ∈ a, ¬ p z) (hb : ∀ z ∈ b, ¬ p z) :
    a = c ∧ x = y ∧ b = d := by
  rcases List.append_eq_append_iff.mp h with ⟨e, rfl, htail⟩ | ⟨e, rfl, htail⟩
  · cases e with
    | nil =>
      obtain ⟨rfl, rfl⟩ := List.cons.inj htail
      exact ⟨by simp, rfl, rfl⟩
    | cons z e =>
      obtain ⟨rfl, rfl⟩ := List.cons.inj htail
      exact absurd hy (hb y (by simp))
  · cases e with
    | nil =>
      obtain ⟨rfl, rfl⟩ := List.cons.inj htail
      exact ⟨by simp, rfl, rfl⟩
    | cons z e =>
      obtain ⟨rfl, rfl⟩ := List.cons.inj htail
      exact absurd hy (ha y (by simp))

theorem forall₂_mem_right {α β : Type} {R : α → β → Prop} {as : List α} {bs : List β}
    (h : List.Forall₂ R as bs) {b : β} (hb : b ∈ bs) : ∃ a ∈ as, R a b := by
  induction h with
  | nil => exact absurd hb List.not_mem_nil
  | cons hfirst _ ih =>
    rcases List.mem_cons.mp hb with rfl | hb
    · exact ⟨_, List.mem_cons_self, hfirst⟩
    · obtain ⟨a, ha, hR⟩ := ih hb
      exact ⟨a, List.mem_cons_of_mem _ ha, hR⟩

theorem Instruction.label?_eq_none_of_target? {i : Instruction} {t : String}
    (h : i.target? = some t) : i.label? = none := by
  unfold target? at h
  split at h
  · rename_i hjump
    simp [label?, hjump]
  · exact absurd h (by simp)

theorem forall_target?_ne {code : List Instruction} {t : String} (h : t ∉ targetsIn code) :
    ∀ i ∈ code, ¬ i.target? = some t :=
  fun i hi htarget => h (List.mem_filterMap.mpr ⟨i, hi, htarget⟩)

theorem forall_label?_ne {code : List Instruction} {l : String} (h : l ∉ labelsIn code) :
    ∀ i ∈ code, ¬ i.label? = some l :=
  fun i hi hlabel => h (List.mem_filterMap.mpr ⟨i, hi, hlabel⟩)

namespace Lowers

variable {e : Expr} {n n' : Names} {f : Fragment} {before after : List Instruction}
  {i : Instruction} {t : String}

theorem backTargets_program (h : Lowers e n f n') :
    List.Forall₂ (LoopAt e n) e.loops (Mlog.backTargets (f.code ++ [.end_])) := by
  have hend : Mlog.backTargets (f.code ++ [.end_]) = Mlog.backTargets f.code := by
    have hnone : backTargetsAfter ([] ++ labelsIn f.code) [.end_] = [] :=
      backTargetsAfter_of_straight rfl
    rw [Mlog.backTargets, backTargetsAfter_append, hnone, List.append_nil, Mlog.backTargets]
  rw [hend]
  exact h.backTargets

theorem nodup_labels (h : Lowers e n f n') : (labelsIn (f.code ++ [.end_])).Nodup := by
  have hnodup := h.settlesLabels.defined.nodup_iff.mpr (nodup_labelRange _ _)
  simpa using hnodup

/-- A jump to a label before it closes a loop, and no jump from elsewhere goes to a
    label between the two. -/
theorem loop_of_back (h : Lowers e n f n') (hcode : f.code ++ [.end_] = before ++ i :: after)
    (htarget : i.target? = some t) (hback : t ∈ labelsIn before) :
    i = .jumpAlways t ∧ ∃ outer inside, before = outer ++ .label t :: inside ∧
      ∀ u ∈ targetsIn outer ++ targetsIn after, u ∉ labelsIn inside := by
  have hmem := mem_backTargets.mpr ⟨before, i, after, hcode, htarget, hback⟩
  obtain ⟨node, _, hloop⟩ := forall₂_mem_right h.backTargets_program hmem
  obtain ⟨m, g, m', inside, done, hwithin, hg, hinside⟩ := hloop.exists_code
  obtain ⟨_, _, outer, rest, hf, houtside⟩ := hwithin.enclosed h
  have hsettles := hwithin.lowers.settlesLabels
  have hlabels : ∀ l ∈ labelsIn g.code, l ∈ labelRange m.labels m'.labels :=
    fun l => hsettles.defined.mem_iff.mp
  rw [hg] at hlabels
  -- nothing but the end of the loop jumps to its label
  have hplace : (outer ++ .label t :: inside) ++ .jumpAlways t :: (.label done :: rest ++ [.end_]) =
      before ++ i :: after := by
    rw [← hcode, hf, hg]
    simp
  have hlabel : t ∈ labelRange m.labels m'.labels := hlabels t (by simp)
  have hbefore : t ∉ targetsIn (outer ++ .label t :: inside) := by
    rw [targetsIn_append, targetsIn_label, List.mem_append]
    rintro (hmem | hmem)
    · exact houtside t (List.mem_append_left _ hmem) hlabel
    · exact hinside hmem
  have hafter : t ∉ targetsIn (.label done :: rest ++ [.end_]) := by
    intro hmem
    exact houtside t (List.mem_append_right _ (by simpa using hmem)) hlabel
  obtain ⟨rfl, rfl, rfl⟩ := append_cons_inj_of_unique hplace htarget
    (forall_target?_ne hbefore) (forall_target?_ne hafter)
  refine ⟨rfl, outer, inside, rfl, ?_⟩
  intro u hu hmem
  exact houtside u (by simpa using hu) (hlabels u (by simp [hmem]))

/-- A loop can be entered through its label only. -/
theorem one_entry {inside : List Instruction} (h : Lowers e n f n')
    (hcode : f.code ++ [.end_] = before ++ .label t :: inside ++ i :: after)
    (htarget : i.target? = some t) :
    ∀ u ∈ targetsIn before ++ targetsIn after, u ∉ labelsIn inside := by
  obtain ⟨_, outer, inside', heq, houtside⟩ := h.loop_of_back hcode htarget (by simp)
  have hnodup := h.nodup_labels
  rw [hcode, labelsIn_append, labelsIn_append, labelsIn_label] at hnodup
  have hnodup := (List.nodup_append.mp hnodup).1
  -- the label stands at one place only
  have hbefore : t ∉ labelsIn before :=
    fun hmem => (List.nodup_append.mp hnodup).2.2 t hmem t List.mem_cons_self rfl
  have hinside : t ∉ labelsIn inside := (List.nodup_cons.mp (List.nodup_append.mp hnodup).2.1).1
  obtain ⟨rfl, _, rfl⟩ := append_cons_inj_of_unique (p := fun z => z.label? = some t) heq rfl
    (forall_label?_ne hbefore) (forall_label?_ne hinside)
  exact houtside

/-- A jump that does not go back goes forward. -/
theorem back_or_forward (h : Lowers e n f n') (hcode : f.code ++ [.end_] = before ++ i :: after)
    (htarget : i.target? = some t) :
    (t ∈ labelsIn before ∧ i = .jumpAlways t) ∨ (t ∈ labelsIn after ∧ t ∉ labelsIn before) := by
  by_cases hback : t ∈ labelsIn before
  · exact .inl ⟨hback, (h.loop_of_back hcode htarget hback).1⟩
  · have hmem : t ∈ targetsIn (f.code ++ [.end_]) := by
      rw [hcode, targetsIn_append, targetsIn_cons, htarget]
      simp
    have hdefined : t ∈ labelsIn (f.code ++ [.end_]) := by
      rw [labelsIn_append]
      exact List.mem_append_left _ (h.settlesLabels.targets t (by simpa using hmem))
    rw [hcode, labelsIn_append, labelsIn_cons,
      Instruction.label?_eq_none_of_target? htarget] at hdefined
    exact .inr ⟨by simpa [hback] using hdefined, hback⟩

end Lowers

/-! ## Section 4: Paths without loops -/

/-- The instruction does not end the program, and if it is a label it has nothing but
    its name. -/
def Instruction.isOrderly (i : Instruction) : Bool :=
  match i.opcode with
  | .end_ => false
  | .label => i.operands.length == 1
  | _ => true

theorem Instruction.eq_label {i : Instruction} {l : String} (h : i.isOrderly = true)
    (hlabel : i.label? = some l) : i = .label l := by
  obtain ⟨opcode, operands⟩ := i
  unfold label? at hlabel
  by_cases hopcode : opcode = .label
  · subst hopcode
    rw [if_pos rfl] at hlabel
    obtain ⟨rest, rfl⟩ := List.head?_eq_some_iff.mp hlabel
    -- there is one operand, so nothing comes after the name
    have hlength : rest.length + 1 = 1 := by simpa [isOrderly] using h
    obtain rfl := List.length_eq_zero_iff.mp (by omega : rest.length = 0)
    rfl
  · rw [if_neg hopcode] at hlabel
    exact absurd hlabel (by simp)

theorem Glued.isOrderly {e : Expr} {n n' : Names} {fs : List Fragment} {own : List Instruction}
    {value : Option String} (h : Glued e n fs own value n') :
    ∀ i ∈ own, i.isOrderly = true := by
  apply List.all_eq_true.mp
  cases h with
  | select subject arms otherwise s as f n hlength =>
    rw [selectCode, Valued.bare_code, Fragment.bare_code, List.nil_append, List.append_nil,
      List.all_append, all_armsCode fun _ _ => rfl]
    rfl
  | @call name fn args vs n hname harity =>
    cases fn with
    | print | printflush =>
      rw [Intrinsic.code, List.all_map, List.all_eq_true]
      exact fun x _ => rfl
    | _ => rfl
  | _ => rfl

/-- On every path from the code at hand, the program comes to an `end` with nothing
    behind it. -/
inductive ComesToEnd (program : List Instruction) : List Instruction → Prop
  | last : ComesToEnd program [.end_]
  | step {i : Instruction} {rest : List Instruction} : successors program (i :: rest) ≠ [] →
      (∀ next ∈ successors program (i :: rest), ComesToEnd program next) →
      ComesToEnd program (i :: rest)

theorem successors_ne_nil {program rest : List Instruction} {i : Instruction}
    (h : i.opcode ≠ .end_) : successors program (i :: rest) ≠ [] := by
  unfold successors
  by_cases hfalls : i.fallsThrough = true
  · simp [hfalls]
  · -- a jump without a condition has a target
    have hjump : i.opcode = .jump ∧ i.operands[1]? = some "always" := by
      simpa [Instruction.fallsThrough, h] using hfalls
    have htarget : i.target?.isSome = true := by
      rw [Instruction.target?, if_pos hjump.1]
      cases hoperands : i.operands with
      | nil => simp [hoperands] at hjump
      | cons target operands => rfl
    obtain ⟨target, htarget⟩ := Option.isSome_iff_exists.mp htarget
    simp [htarget]

namespace Lowers

variable {e : Expr} {n n' : Names} {f : Fragment}

theorem eq_label (h : Lowers e n f n') {i : Instruction} {l : String}
    (hi : i ∈ f.code ++ [.end_]) (hlabel : i.label? = some l) : i = .label l := by
  rcases List.mem_append.mp hi with hi | hi
  · exact Instruction.eq_label (h.forall_code Glued.isOrderly i hi) hlabel
  · rw [List.mem_singleton.mp hi] at hlabel
    exact absurd hlabel (by simp [Instruction.label?, Instruction.end_])

theorem opcode_ne_end (h : Lowers e n f n') {i : Instruction} (hi : i ∈ f.code) :
    i.opcode ≠ .end_ := by
  intro hend
  have horderly := h.forall_code Glued.isOrderly i hi
  simp [Instruction.isOrderly, hend] at horderly

/-- One step of a program without loops. -/
theorem step_forward (h : Lowers e n f n') (hloops : e.loops = []) {i : Instruction}
    {rest next : List Instruction} (hsuffix : i :: rest <:+ f.code ++ [.end_])
    (hnext : next ∈ successors (f.code ++ [.end_]) (i :: rest)) : next <:+ rest ∧ next ≠ [] := by
  obtain ⟨before, hcode⟩ := hsuffix
  rcases mem_successors hnext with ⟨hfalls, rfl⟩ | ⟨t, htarget, rfl⟩
  · refine ⟨List.suffix_refl _, ?_⟩
    rintro rfl
    -- the last instruction is `end`, and there the program does not go on
    obtain ⟨_, heq⟩ := List.append_inj' hcode rfl
    rw [List.singleton_inj.mp heq] at hfalls
    exact absurd hfalls (by decide)
  · have hback : Mlog.backTargets (f.code ++ [.end_]) = [] := by
      have hnone := h.backTargets_program
      rw [hloops] at hnone
      exact List.forall₂_nil_left_iff.mp hnone
    rcases h.back_or_forward hcode.symm htarget with ⟨hmem, _⟩ | ⟨hmem, _⟩
    · have hbad := mem_backTargets.mpr ⟨before, i, rest, hcode.symm, htarget, hmem⟩
      rw [hback] at hbad
      exact absurd hbad List.not_mem_nil
    · obtain ⟨j, hj, hlabel⟩ := List.mem_filterMap.mp hmem
      obtain rfl := h.eq_label (by rw [← hcode]; simp [hj]) hlabel
      obtain ⟨inside, after, rfl⟩ := List.append_of_mem hj
      have htail : .label t :: after <:+ f.code ++ [.end_] :=
        ⟨before ++ i :: inside, by rw [← hcode]; simp⟩
      rw [codeFrom_eq h.nodup_labels htail]
      exact ⟨List.suffix_append inside _, by simp⟩

/-- What has been run on a path and what is still to be run follow one another in a
    program without loops. -/
theorem sublist_of_path (h : Lowers e n f n') (hloops : e.loops = [])
    {done code : List Instruction} (hpath : ProgramPath (f.code ++ [.end_]) done code) :
    code <:+ f.code ++ [.end_] ∧ (done ++ code).Sublist (f.code ++ [.end_]) := by
  -- each step drops the instruction that is run, and maybe some that it jumps over
  induction hpath with
  | start => exact ⟨List.suffix_refl _, List.Sublist.refl _⟩
  | @step done rest next i _ hnext ih =>
    obtain ⟨hsuffix, hsublist⟩ := ih
    have hforward := (h.step_forward hloops hsuffix hnext).1
    refine ⟨hforward.trans ((List.suffix_cons i rest).trans hsuffix), ?_⟩
    have hstep : (done ++ [i] ++ next).Sublist (done ++ i :: rest) := by
      simpa using (hforward.sublist.cons_cons i).append_left done
    exact hstep.trans hsublist

/-- A program without loops comes to its `end` from everywhere. -/
theorem comesToEnd (h : Lowers e n f n') (hloops : e.loops = []) (code : List Instruction)
    (hsuffix : code ++ [.end_] <:+ f.code ++ [.end_]) :
    ComesToEnd (f.code ++ [.end_]) (code ++ [.end_]) := by
  -- each step goes to shorter code
  induction hlength : code.length using Nat.strongRecOn generalizing code with
  | _ length ih =>
    cases code with
    | nil => exact .last
    | cons i rest =>
      have hmem : i ∈ f.code := by
        obtain ⟨before, hcode⟩ := hsuffix
        rw [← List.append_assoc] at hcode
        rw [← List.append_cancel_right hcode]
        simp
      apply ComesToEnd.step (successors_ne_nil (h.opcode_ne_end hmem))
      intro next hnext
      obtain ⟨hforward, hne⟩ := h.step_forward hloops hsuffix hnext
      rcases List.suffix_concat_iff.mp hforward with hnil | ⟨code, rfl, hshorter⟩
      · exact absurd hnil hne
      · have hlt : code.length < length := by
          have hle := hshorter.length_le
          simp only [List.length_cons] at hlength
          omega
        have hin : code ++ [.end_] <:+ f.code ++ [.end_] :=
          hforward.trans ((List.suffix_cons i _).trans hsuffix)
        exact ih code.length hlt code hin rfl

end Lowers

/-! ## Section 5: Programs -/

/-- The jumps backwards in a program are those that close the loops of the tree, one
    for each loop and in the same order.  A jump that goes back has no condition, and
    every other jump goes forward.  Between the label of a loop and the jump back
    there is no label that a jump from elsewhere goes to.  Without loops, every step
    goes on somewhere behind the instruction that is run, so that no instruction is run
    twice: what is run on a path and what is still to be run follow one another in the
    program.  And every path comes to the `end` behind the code. -/
theorem jumps_of_generate {e : Expr} {program : List Instruction} (h : generate e = .ok program) :
    List.Forall₂ (LoopAt e .none) e.loops (backTargets program) ∧
    (∀ before i after t, program = before ++ i :: after → i.target? = some t →
      (t ∈ labelsIn before ∧ i = .jumpAlways t) ∨ (t ∈ labelsIn after ∧ t ∉ labelsIn before)) ∧
    (∀ before inside i after l, program = before ++ .label l :: inside ++ i :: after →
      i.target? = some l → ∀ t ∈ targetsIn before ++ targetsIn after, t ∉ labelsIn inside) ∧
    (e.loops = [] →
      (∀ done code, ProgramPath program done code →
        code <:+ program ∧ (∀ next ∈ successors program code, next <:+ code.tail) ∧
          (done ++ code).Sublist program) ∧
      ComesToEnd program program) := by
  obtain ⟨f, n', hlowers, rfl⟩ := lowers_of_generate h
  refine ⟨hlowers.backTargets_program, ?_, ?_, ?_⟩
  · intro before i after t hcode htarget
    exact hlowers.back_or_forward hcode htarget
  · intro before inside i after l hcode htarget
    exact hlowers.one_entry hcode htarget
  · intro hloops
    -- without loops every step goes forward, so that a path is read off in order
    refine ⟨?_, hlowers.comesToEnd hloops f.code (List.suffix_refl _)⟩
    intro done code hpath
    obtain ⟨hsuffix, hsublist⟩ := hlowers.sublist_of_path hloops hpath
    refine ⟨hsuffix, ?_, hsublist⟩
    intro next hnext
    cases code with
    | nil => exact absurd hnext List.not_mem_nil
    | cons i rest => exact (hlowers.step_forward hloops hsuffix hnext).1

/-- A loop, in it an `if`, and in that a loop again. -/
def nestedLoops : Expr :=
  .loop (.var "go")
    (.branch (.var "up") (.seq (.loop (.var "on") (.call "print" [.var "x"])) .null) .nop)

def nestedProgram : List Instruction :=
  [.label "label4", .jumpNotEqual "label5" "go" "true", .jumpNotEqual "label2" "up" "true",
   .label "label0", .jumpNotEqual "label1" "on" "true", .print "x", .jumpAlways "label0",
   .label "label1", .set "tmp0" "null", .jumpAlways "label3", .label "label2", .set "tmp0" "null",
   .label "label3", .jumpAlways "label4", .label "label5", .end_]

/-- The body of the outer loop, without the loops. -/
def loopless : Expr := .branch (.var "up") (.call "print" [.var "x"]) .nop

theorem jumps_of_nestedLoops :
    generate nestedLoops = .ok nestedProgram ∧
    backTargets nestedProgram = ["label0", "label4"] ∧
    List.Forall₂ (LoopAt nestedLoops .none) nestedLoops.loops ["label0", "label4"] ∧
    (∀ t ∈ targetsIn (nestedProgram.take 3) ++ targetsIn (nestedProgram.drop 7),
      t ∉ labelsIn ((nestedProgram.drop 4).take 2)) ∧
    ∃ program, generate loopless = .ok program ∧ loopless.loops = [] ∧
      ComesToEnd program program := by
  have hnested : generate nestedLoops = .ok nestedProgram := rfl
  have hback : backTargets nestedProgram = ["label0", "label4"] := by decide +kernel
  obtain ⟨hloops, _, hentry, _⟩ := jumps_of_generate hnested
  rw [hback] at hloops
  obtain ⟨program, hprogram⟩ : ∃ program, generate loopless = .ok program := ⟨_, rfl⟩
  have hnone : loopless.loops = [] := by decide +kernel
  obtain ⟨_, _, _, hforward⟩ := jumps_of_generate hprogram
  exact ⟨hnested, hback, hloops,
    hentry _ _ (.jumpAlways "label0") _ "label0" (by decide +kernel) rfl,
    program, hprogram, hnone, (hforward hnone).2⟩

end Mlog
