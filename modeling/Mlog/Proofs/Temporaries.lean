import Mlog.Proofs.Assembly
import Mlog.Proofs.Labels
import Mlog.Proofs.Spelling

/-! # Temporary variables of lowered code

    A node that computes something takes one temporary variable for its result,
    after its parts have taken theirs.  So the variables that are given out for a
    tree belong to its nodes in the order of evaluation, and no two nodes share
    one.  Only the node that a variable belongs to writes it: once, except that
    each side of an `if` and each way through a `case` has a `set` of its own.

    * `Lowers.settlesTemps`: one tree.
    * `temps_of_session`: all trees of a session, of which some may fail.

    A program could name a variable `tmp0` itself, so all this is about trees that
    spell no name of this form. -/

namespace Mlog

/-! ## Section 1: Names of temporary variables -/

/-- The name has the form of a temporary variable: `tmp` and digits. -/
def Text.isTemp (s : String) : Bool :=
  match s.toList with
  | 't' :: 'm' :: 'p' :: digits => isDigits digits
  | _ => false

theorem Text.isDigits_toDigits (k : Nat) : isDigits (Nat.toDigits 10 k) = true := by
  have hdigits : ∀ c ∈ Nat.toDigits 10 k, c.isDigit = true :=
    fun c hc => Nat.isDigit_of_mem_toDigits (by decide) (by decide) hc
  simpa [isDigits, Nat.toDigits_ne_nil] using hdigits

theorem Text.isTemp_tempName (k : Nat) : isTemp (tempName k) = true := by
  have hchars : (tempName k).toList = 't' :: 'm' :: 'p' :: Nat.toDigits 10 k := by
    simp [tempName]
  rw [isTemp, hchars]
  exact isDigits_toDigits k

theorem Text.isTemp_of_head {s : String} {c : Char} {cs : List Char} (h : s.toList = c :: cs)
    (hc : c ≠ 't') : isTemp s = false := by
  unfold isTemp
  split
  · rename_i digits heq
    rw [h] at heq
    exact absurd (List.cons.inj heq).1 hc
  · rfl

theorem Text.isTemp_labelName (k : Nat) : isTemp (labelName k) = false := by
  have hchars : (labelName k).toList = "label".toList ++ (toString k).toList := by
    simp [labelName]
  exact isTemp_of_head hchars (by decide)

theorem Text.isTemp_codeWords : ∀ x ∈ codeWords, isTemp x = false := by decide

namespace Expr

/-- No operand that a node of the tree spells looks like a temporary variable.
    Texts are spelled in quotes and built-ins with their `@`, so only the other
    names and the numbers matter. -/
def SparesTemps (e : Expr) : Prop := ∀ node ∈ e.nodes, ∀ x ∈ node.spelled, Text.isTemp x = false

instance (e : Expr) : Decidable e.SparesTemps :=
  inferInstanceAs (Decidable (∀ node ∈ e.nodes, ∀ x ∈ node.spelled, Text.isTemp x = false))

theorem SparesTemps.child {e child : Expr} (h : e.SparesTemps) (hchild : child ∈ e.children) :
    child.SparesTemps :=
  fun node hnode => h node (mem_nodes_of_child hchild hnode)

theorem SparesTemps.self {e : Expr} (h : e.SparesTemps) : ∀ x ∈ e.spelled, Text.isTemp x = false :=
  h e (mem_nodes.mpr .refl)

end Expr

/-- An operand of this form in the code of a tree is a variable that was given
    out for the tree. -/
theorem Origin.exists_temp {e : Expr} {n n' : Names} {x : String} (h : Origin e n n' x)
    (he : e.SparesTemps) (hx : Text.isTemp x = true) :
    ∃ k, n.temps ≤ k ∧ k < n'.temps ∧ x = tempName k := by
  cases h with
  | spelled hnode hmem =>
    rw [he _ (Expr.mem_nodes.mpr hnode) _ hmem] at hx
    exact absurd hx (by decide)
  | @temp k hk hk' => exact ⟨k, hk, hk', rfl⟩
  | label hk hk' =>
    rw [Text.isTemp_labelName] at hx
    exact absurd hx (by decide)
  | word hmem =>
    rw [Text.isTemp_codeWords _ hmem] at hx
    exact absurd hx (by decide)

/-! ## Section 2: What instructions write and read -/

namespace Instruction

/-- Where the variable that an instruction writes stands among its operands.  The
    two outputs of `ucontrol getBlock` are left out: the program names them itself, and
    for the machine the command only changes the units, like all but `within`. -/
def destinationIndex? (i : Instruction) : Option Nat :=
  match i.opcode with
  | .set | .read | .sensor | .getlink => some 0
  | .op => some 1
  | .ucontrol =>
    if i.operands.head? = some "within" then some (i.operands.length - 1) else none
  | _ => none

/-- The variable that an instruction writes. -/
def destination? (i : Instruction) : Option String :=
  i.destinationIndex?.bind fun index => i.operands[index]?

/-- The operands that an instruction reads: all but the variable that it writes. -/
def reads (i : Instruction) : List String :=
  match i.destinationIndex? with
  | some index => i.operands.eraseIdx index
  | none => i.operands

theorem reads_subset (i : Instruction) : i.reads ⊆ i.operands := by
  unfold reads
  split
  · exact List.eraseIdx_subset ..
  · exact List.Subset.refl _

theorem destination?_mem {i : Instruction} {x : String} (h : i.destination? = some x) :
    x ∈ i.operands := by
  obtain ⟨index, _, hindex⟩ := Option.bind_eq_some_iff.mp h
  exact List.mem_of_getElem? hindex

@[simp] theorem opcode_set (dest value : String) : (set dest value).opcode = .set := rfl

@[simp] theorem opcode_op (operation dest : String) (operands : List String) :
    (op operation dest operands).opcode = .op := rfl

@[simp] theorem opcode_read (dest cell address : String) :
    (read dest cell address).opcode = .read := rfl

@[simp] theorem opcode_sensor (dest target property : String) :
    (sensor dest target property).opcode = .sensor := rfl

@[simp] theorem opcode_ucontrol (command : String) (operands : List String) :
    (ucontrol command operands).opcode = .ucontrol := rfl

@[simp] theorem destination?_set (dest value : String) :
    (set dest value).destination? = some dest := rfl

@[simp] theorem destination?_op (operation dest : String) (operands : List String) :
    (op operation dest operands).destination? = some dest := rfl

@[simp] theorem destination?_jumpAlways (l : String) : (jumpAlways l).destination? = none := rfl

@[simp] theorem destination?_jumpNotEqual (l a b : String) :
    (jumpNotEqual l a b).destination? = none := rfl

@[simp] theorem destination?_label (l : String) : (label l).destination? = none := rfl

@[simp] theorem destination?_read (dest cell address : String) :
    (read dest cell address).destination? = some dest := rfl

@[simp] theorem destination?_write (value cell address : String) :
    (write value cell address).destination? = none := rfl

@[simp] theorem destination?_control (property target value : String) :
    (control property target value).destination? = none := rfl

@[simp] theorem destination?_sensor (dest target property : String) :
    (sensor dest target property).destination? = some dest := rfl

@[simp] theorem destination?_getlink (dest : String) (operands : List String) :
    (⟨.getlink, dest :: operands⟩ : Instruction).destination? = some dest := rfl

@[simp] theorem destination?_ubind (operands : List String) :
    (⟨.ubind, operands⟩ : Instruction).destination? = none := rfl

@[simp] theorem destination?_within (operands : List String) (dest : String) :
    (ucontrol "within" (operands ++ [dest])).destination? = some dest := by
  simp [ucontrol, destination?, destinationIndex?]

@[simp] theorem destination?_order (o : Order) (operands : List String) :
    (ucontrol o.command operands).destination? = none := by
  cases o <;> rfl

end Instruction

/-- The kinds of the instructions in code that write a variable. -/
def writersIn (code : List Instruction) (x : String) : List Opcode :=
  (code.filter fun i => i.destination? = some x).map Instruction.opcode

@[simp] theorem writersIn_nil (x : String) : writersIn [] x = [] := rfl

@[simp] theorem writersIn_append (c d : List Instruction) (x : String) :
    writersIn (c ++ d) x = writersIn c x ++ writersIn d x := by
  simp [writersIn]

@[simp] theorem writersIn_cons (i : Instruction) (c : List Instruction) (x : String) :
    writersIn (i :: c) x =
      (if i.destination? = some x then [i.opcode] else []) ++ writersIn c x := by
  unfold writersIn
  by_cases h : i.destination? = some x <;> simp [h]

theorem writersIn_map {make : String → Instruction} (hmake : ∀ arg, (make arg).destination? = none)
    (args : List String) (x : String) : writersIn (args.map make) x = [] := by
  simp [writersIn, hmake]

theorem writersIn_perm {c d : List Instruction} (h : c.Perm d) (x : String) :
    (writersIn c x).Perm (writersIn d x) := (h.filter _).map _

theorem writersIn_ne_nil {code : List Instruction} {x : String} :
    writersIn code x ≠ [] ↔ ∃ i ∈ code, i.destination? = some x := by
  simp [writersIn]

/-! ## Section 3: Nodes that take a temporary variable -/

/-- The kind of instruction that writes the result of a call, if it has a
    variable for it. -/
def Intrinsic.writers : Intrinsic → List Opcode
  | rand => [.op]
  | getlink => [.getlink]
  | within => [.ucontrol]
  | _ => []

namespace Expr

/-- The kinds of the instructions that write the variable which a node takes
    for its result; none if it takes no variable. -/
def writers : Expr → List Opcode
  | num _ | str _ => [.set]
  | branch _ _ _ => [.set, .set]
  | select _ arms _ => List.replicate (arms.length + 1) .set
  | load _ _ => [.read]
  | sensor _ _ => [.sensor]
  | unary _ _ | binary _ _ _ => [.op]
  | call name _ => ((Intrinsic.ofName? name).map Intrinsic.writers).getD []
  | _ => []

/-- The nodes of a tree that take a variable, in the order of evaluation. -/
def takers (e : Expr) : List Expr := e.nodes.filter fun node => node.writers ≠ []

theorem takers_eq (e : Expr) :
    e.takers = e.children.flatMap takers ++ if e.writers = [] then [] else [e] := by
  unfold takers
  rw [nodes_eq, List.filter_append, List.filter_flatMap]
  by_cases h : e.writers = [] <;> simp [h]

/-- All instructions that write the variable of a node are of one kind. -/
theorem exists_writers_eq (e : Expr) : ∃ count kind, e.writers = List.replicate count kind := by
  cases e with
  | select subject arms otherwise => exact ⟨arms.length + 1, .set, rfl⟩
  | num | str => exact ⟨1, .set, rfl⟩
  | branch => exact ⟨2, .set, rfl⟩
  | load => exact ⟨1, .read, rfl⟩
  | sensor => exact ⟨1, .sensor, rfl⟩
  | unary | binary => exact ⟨1, .op, rfl⟩
  | call name args =>
    cases hname : Intrinsic.ofName? name with
    | none => exact ⟨0, .set, by simp [writers, hname]⟩
    | some f =>
      rw [show (call name args).writers = f.writers by simp [writers, hname]]
      cases f with
      | rand => exact ⟨1, .op, rfl⟩
      | getlink => exact ⟨1, .getlink, rfl⟩
      | within => exact ⟨1, .ucontrol, rfl⟩
      | _ => exact ⟨0, .set, rfl⟩
  | _ => exact ⟨0, .set, rfl⟩

end Expr

/-! ## Section 4: One node -/

theorem writersIn_armsCode {subject result endLabel : String} (as : List (Valued × Valued))
    {labels : List String} (hlength : labels.length = as.length) (x : String) :
    writersIn (armsCode subject result endLabel (as.map bareArm) labels) x =
      if result = x then List.replicate as.length .set else [] := by
  induction as generalizing labels with
  | nil => simp [armsCode]
  | cons arm as ih =>
    obtain ⟨next, labels, rfl⟩ := List.exists_cons_of_length_eq_add_one hlength
    rw [List.map_cons, bareArm, armsCode, writersIn_append, ih (Nat.succ.inj hlength)]
    by_cases h : result = x <;> simp [armCode, h, List.replicate_succ]

theorem Intrinsic.writersIn_code (f : Intrinsic) (result : String) (args : List String)
    (x : String) :
    writersIn (f.code result args).code x = if result = x then f.writers else [] := by
  cases f with
  | print | printflush =>
    simp only [code, writers, ite_self]
    exact writersIn_map (fun _ => rfl) args x
  | _ => simp [code, writers]

/-- A node writes the variable that it assigns to, and the next temporary variable
    if it takes one, in the way of its kind. -/
theorem Glued.writersIn_own {e : Expr} {n n' : Names} {fs : List Fragment}
    {own : List Instruction} {value : Option String} (h : Glued e n fs own value n') (x : String) :
    writersIn own x =
      (if e.assigned? = some x then [.set] else []) ++
        if tempName n.temps = x then e.writers else [] := by
  cases h with
  | assign name value v n => simp [Expr.assigned?, Expr.writers]
  | branch cond yes no c y f n =>
    by_cases hx : tempName n.temps = x <;> simp [branchCode, Expr.assigned?, Expr.writers, hx]
  | loop cond body c f n => simp [loopCode, Expr.assigned?, Expr.writers]
  | select subject arms otherwise s as f n hlength =>
    simp only [selectCode, Valued.bare_value, Valued.bare_code, Fragment.bare_code,
      List.nil_append, List.append_nil, writersIn_append]
    rw [writersIn_armsCode as (by simp)]
    by_cases hx : tempName n.temps = x <;>
      simp [Expr.assigned?, Expr.writers, hx, hlength, List.replicate_succ']
  | @call name fn args vs n hname harity =>
    rw [fn.writersIn_code]
    simp [Expr.assigned?, Expr.writers, hname]
  | _ => simp [Expr.assigned?, Expr.writers]

/-- A node takes one temporary variable or none. -/
theorem Glued.temps_eq {e : Expr} {n n' : Names} {fs : List Fragment} {own : List Instruction}
    {value : Option String} (h : Glued e n fs own value n') :
    n'.temps = n.temps + if e.writers = [] then 0 else 1 := by
  cases h with
  | @call name fn args vs n hname harity =>
    rw [show (Expr.call name args).writers = fn.writers by simp [Expr.writers, hname]]
    cases fn <;> rfl
  | _ => simp [Expr.writers]

/-- A node that takes a variable takes the next one; it writes this one in the
    way of its kind, and no other. -/
theorem Glued.writers {e : Expr} {n n' : Names} {fs : List Fragment} {own : List Instruction}
    {value : Option String} (h : Glued e n fs own value n')
    (hspelled : ∀ x ∈ e.spelled, Text.isTemp x = false) :
    (n'.temps = n.temps + if e.writers = [] then 0 else 1) ∧
      (∀ k, writersIn own (tempName k) = if n.temps = k then e.writers else []) ∧
      (e.writers ≠ [] → value = some (tempName n.temps)) := by
  refine ⟨h.temps_eq, ?_, ?_⟩
  · intro k
    -- a name that the node assigns to is not that of a temporary variable
    have hassigned : e.assigned? ≠ some (tempName k) := by
      intro heq
      have hmem : tempName k ∈ e.spelled := by
        cases e <;> simp_all [Expr.assigned?, Expr.spelled]
      have hfalse := hspelled _ hmem
      rw [Text.isTemp_tempName] at hfalse
      exact absurd hfalse (by decide)
    rw [h.writersIn_own, if_neg hassigned, List.nil_append]
    simp only [tempName_inj]
  · cases h with
    | @call name fn args vs n hname harity =>
      rw [show (Expr.call name args).writers = fn.writers by simp [Expr.writers, hname]]
      cases fn <;> simp [Intrinsic.writers, Intrinsic.code]
    | _ => simp [Expr.writers]

/-! ## Section 5: One tree -/

/-- The kinds of the instructions that write the variable with a number, if the
    nodes take the variables from `first` on. -/
def writersAt (k : Nat) : Nat → List Expr → List Opcode
  | _, [] => []
  | first, node :: nodes =>
    (if first = k then node.writers else []) ++ writersAt k (first + 1) nodes

theorem writersAt_append (k first : Nat) (xs ys : List Expr) :
    writersAt k first (xs ++ ys) = writersAt k first xs ++ writersAt k (first + xs.length) ys := by
  induction xs generalizing first with
  | nil => rfl
  | cons x xs ih =>
    have hstart : first + 1 + xs.length = first + (xs.length + 1) := by omega
    simp [writersAt, ih, hstart]

theorem writersAt_of_lt {k first : Nat} (h : k < first) (nodes : List Expr) :
    writersAt k first nodes = [] := by
  induction nodes generalizing first with
  | nil => rfl
  | cons node nodes ih =>
    have hne : first ≠ k := by omega
    simp [writersAt, hne, ih (Nat.lt_succ_of_lt h)]

/-- Each variable is written by its own node only. -/
theorem writersAt_getElem? {nodes : List Expr} {node : Expr} {i : Nat} (first : Nat)
    (h : nodes[i]? = some node) : writersAt (first + i) first nodes = node.writers := by
  induction nodes generalizing first i with
  | nil => simp at h
  | cons head nodes ih =>
    cases i with
    | zero =>
      obtain rfl : head = node := by simpa using h
      simp [writersAt, writersAt_of_lt]
    | succ i =>
      have hstart : first + (i + 1) = first + 1 + i := by omega
      have hne : first ≠ first + 1 + i := by omega
      rw [hstart, writersAt, if_neg hne, List.nil_append, ih (first + 1) (by simpa using h)]

/-- How the code of a tree uses the variables that were given out for it. -/
structure Numbered (nodes : List Expr) (code : List Instruction) (a b : Nat) : Prop where
  count : b = a + nodes.length
  writers : ∀ k, (writersIn code (tempName k)).Perm (writersAt k a nodes)

theorem Numbered.append {xs ys : List Expr} {c d : List Instruction} {a₀ a₁ a₂ : Nat}
    (h : Numbered xs c a₀ a₁) (h' : Numbered ys d a₁ a₂) :
    Numbered (xs ++ ys) (c ++ d) a₀ a₂ := by
  have hcount := h.count
  have hcount' := h'.count
  refine ⟨by rw [List.length_append]; omega, ?_⟩
  intro k
  rw [writersIn_append, writersAt_append, ← hcount]
  exact (h.writers k).append (h'.writers k)

theorem LowersAll.numbered {es : List Expr} {fs : List Fragment} {n n' : Names}
    (h : LowersAll es n fs n')
    (hes : ∀ e ∈ es, ∀ {n n' : Names} {f : Fragment}, Lowers e n f n' →
      Numbered e.takers f.code n.temps n'.temps) :
    Numbered (es.flatMap Expr.takers) (fs.flatMap Fragment.code) n.temps n'.temps := by
  induction h with
  | nil n => exact ⟨rfl, fun k => .refl _⟩
  | cons he _ ih =>
    obtain ⟨hfirst, hothers⟩ := List.forall_mem_cons.mp hes
    exact (hfirst he).append (ih hothers)

/-- The variables that are given out for a tree belong to the nodes that take
    one, in the order of evaluation. -/
theorem Lowers.numbered {e : Expr} {n n' : Names} {f : Fragment} (h : Lowers e n f n')
    (he : e.SparesTemps) : Numbered e.takers f.code n.temps n'.temps := by
  induction e using Expr.children_induction generalizing n f n' with
  | step e ih =>
    obtain ⟨fs, m, own, hparts, hglued, hperm⟩ := h.glued
    obtain ⟨hcount, hwriters, _⟩ := hglued.writers he.self
    -- the variables of the parts come first, then the one of the node, if it takes one
    have hchildren := hparts.numbered fun child hchild _ _ _ hlowers =>
      ih child hchild hlowers (he.child hchild)
    have hself : Numbered (if e.writers = [] then [] else [e]) own m.temps n'.temps := by
      refine ⟨?_, fun k => ?_⟩
      · rw [hcount]
        split <;> rfl
      · rw [hwriters k]
        by_cases hnone : e.writers = [] <;> simp [writersAt, hnone]
    rw [e.takers_eq]
    have hall := hchildren.append hself
    exact ⟨hall.count, fun k => (writersIn_perm hperm _).trans (hall.writers k)⟩

/-- The nodes hold their values in the variables from `first` on, as code says
    that has theirs in it. -/
def HeldInTurn (nodes : List Expr) (code : List Instruction) (first : Nat) : Prop :=
  ∀ i node, nodes[i]? = some node →
    ∃ m g m', Lowers node m g m' ∧ g.value = some (tempName (first + i)) ∧ g.code ⊆ code

theorem HeldInTurn.append {xs ys : List Expr} {code : List Instruction} {first : Nat}
    (h : HeldInTurn xs code first) (h' : HeldInTurn ys code (first + xs.length)) :
    HeldInTurn (xs ++ ys) code first := by
  intro i node hnode
  rw [List.getElem?_append] at hnode
  split at hnode
  · exact h i node hnode
  · rename_i hge
    obtain ⟨m, g, m', hlowers, hvalue, hsub⟩ := h' (i - xs.length) node hnode
    have hnumber : first + xs.length + (i - xs.length) = first + i := by omega
    exact ⟨m, g, m', hlowers, hnumber ▸ hvalue, hsub⟩

theorem LowersAll.heldInTurn {es : List Expr} {fs : List Fragment} {n n' : Names}
    {code : List Instruction} (h : LowersAll es n fs n')
    (hes : ∀ e ∈ es, e.SparesTemps ∧ ∀ {n n' : Names} {f : Fragment}, Lowers e n f n' →
      f.code ⊆ code → HeldInTurn e.takers code n.temps)
    (hcode : ∀ f ∈ fs, f.code ⊆ code) : HeldInTurn (es.flatMap Expr.takers) code n.temps := by
  induction h with
  | nil n => exact fun i node hnode => absurd hnode (by simp)
  | cons he _ ih =>
    obtain ⟨⟨hspares, hfirst⟩, hothers⟩ := List.forall_mem_cons.mp hes
    obtain ⟨hfirstCode, hothersCode⟩ := List.forall_mem_cons.mp hcode
    have hrest := ih hothers hothersCode
    rw [(he.numbered hspares).count] at hrest
    exact (hfirst he hfirstCode).append hrest

/-- Each variable that is given out for a tree holds the value of the node that
    it belongs to. -/
theorem Lowers.heldInTurn {e : Expr} {n n' : Names} {f : Fragment} (h : Lowers e n f n')
    (he : e.SparesTemps) {code : List Instruction} (hcode : f.code ⊆ code) :
    HeldInTurn e.takers code n.temps := by
  induction e using Expr.children_induction generalizing n f n' with
  | step e ih =>
    obtain ⟨fs, m, own, hparts, hglued, hperm⟩ := h.glued
    have hfs : ∀ g ∈ fs, g.code ⊆ code := by
      intro g hg i hi
      exact hcode (hperm.mem_iff.mpr (List.mem_append_left _ (List.mem_flatMap.mpr ⟨g, hg, hi⟩)))
    have hchildren : HeldInTurn (e.children.flatMap Expr.takers) code n.temps := by
      refine hparts.heldInTurn (fun child hchild => ⟨he.child hchild, ?_⟩) hfs
      exact fun hlowers => ih child hchild hlowers (he.child hchild)
    have hcount := (hparts.numbered fun child hchild _ _ _ hlowers =>
      hlowers.numbered (he.child hchild)).count
    rw [e.takers_eq]
    apply hchildren.append
    rw [← hcount]
    -- the node itself takes the variable after those of its parts
    intro i node hnode
    by_cases hnone : e.writers = []
    · simp [hnone] at hnode
    · rw [if_neg hnone, List.getElem?_singleton] at hnode
      split at hnode
      · rename_i hzero
        obtain rfl := Option.some.inj hnode
        exact ⟨n, f, n', h, hzero ▸ (hglued.writers he.self).2.2 hnone, hcode⟩
      · exact absurd hnode (by simp)

/-- The code of a tree, in which the variables from `a` up to `b` are given out:
    they belong to the nodes that take one, in the order of evaluation, and hold
    their values.  They are all the temporary variables that the code writes, each
    is written in the way of its node only, and no other is read. -/
structure SettlesTemps (e : Expr) (code : List Instruction) (a b : Nat) : Prop where
  count : b = a + e.takers.length
  held : HeldInTurn e.takers code a
  writers : ∀ i node, e.takers[i]? = some node → writersIn code (tempName (a + i)) = node.writers
  written : ∀ x, Text.isTemp x = true →
    ((∃ i ∈ code, i.destination? = some x) ↔ ∃ k, a ≤ k ∧ k < b ∧ x = tempName k)
  read : ∀ i ∈ code, ∀ x ∈ i.reads, Text.isTemp x = true → ∃ k, a ≤ k ∧ k < b ∧ x = tempName k

/-- The code of a tree settles the temporary variables that were given out for
    it. -/
theorem Lowers.settlesTemps {e : Expr} {n n' : Names} {f : Fragment} (h : Lowers e n f n')
    (he : e.SparesTemps) : SettlesTemps e f.code n.temps n'.temps := by
  have hnumbered := h.numbered he
  have hoperand : ∀ i ∈ f.code, ∀ x ∈ i.operands, Text.isTemp x = true →
      ∃ k, n.temps ≤ k ∧ k < n'.temps ∧ x = tempName k :=
    fun i hi x hx => (h.origin.1 i hi x hx).exists_temp he
  have hwriters : ∀ i node, e.takers[i]? = some node →
      writersIn f.code (tempName (n.temps + i)) = node.writers := by
    intro i node hnode
    have hperm := hnumbered.writers (n.temps + i)
    rw [writersAt_getElem? n.temps hnode] at hperm
    -- a rearrangement of equal kinds changes nothing
    obtain ⟨count, kind, hkind⟩ := node.exists_writers_eq
    rw [hkind] at hperm ⊢
    exact List.perm_replicate.mp hperm
  refine ⟨hnumbered.count, h.heldInTurn he (List.Subset.refl _), hwriters, ?_, ?_⟩
  · intro x hx
    constructor
    · intro hwritten
      obtain ⟨i, hi, hdest⟩ := hwritten
      exact hoperand i hi x (Instruction.destination?_mem hdest) hx
    · -- the node that took the variable writes it, as nodes that write nothing take none
      intro hrange
      obtain ⟨k, hle, hlt, rfl⟩ := hrange
      have hbound : k - n.temps < e.takers.length := by
        have hcount := hnumbered.count
        omega
      have htaker : e.takers[k - n.temps] ∈ e.takers := List.getElem_mem hbound
      have hwritten := hwriters (k - n.temps) _ (List.getElem?_eq_getElem hbound)
      rw [Nat.add_sub_cancel' hle] at hwritten
      rw [← writersIn_ne_nil, hwritten]
      simpa using (List.mem_filter.mp htaker).2
  · intro i hi x hx
    exact hoperand i hi x (i.reads_subset hx)

/-! ## Section 6: Sessions -/

/-- A step of a session that did not fail is a run of its tree. -/
theorem step_of_session {es : List Expr} {names : Names} {e : Expr} {step : SessionStep}
    (h : (e, step) ∈ es.zip (session names es)) {f : Fragment} (hf : step.result = .ok f) :
    e ∈ es ∧ Lowers e step.before f step.after := by
  induction es generalizing names with
  | nil => simp at h
  | cons first es ih =>
    rw [session, List.zip_cons_cons, List.mem_cons] at h
    rcases h with heq | h
    · obtain ⟨rfl, rfl⟩ := Prod.mk.inj heq
      have hrun : (lower e).runFrom names = (.ok f, ((lower e).runFrom names).2) := by
        rw [← hf]
      exact ⟨List.mem_cons_self, lowers_of_run hrun⟩
    · obtain ⟨hmem, hlowers⟩ := ih h
      exact ⟨List.mem_cons_of_mem _ hmem, hlowers⟩

/-- The counts of names only grow in a session, from step to step and within
    each step. -/
theorem names_le_session (es : List Expr) (names : Names) :
    (∀ step ∈ session names es, names.Le step.before ∧ step.before.Le step.after) ∧
      (session names es).Pairwise fun step later => step.after.Le later.before := by
  induction es generalizing names with
  | nil => simp [session]
  | cons e es ih =>
    have hgrows : names.Le ((lower e).runFrom names).2 := Lowering.grows_lower e names
    obtain ⟨hsteps, hpairwise⟩ := ih ((lower e).runFrom names).2
    rw [session, List.forall_mem_cons, List.pairwise_cons]
    refine ⟨⟨⟨.refl names, hgrows⟩, ?_⟩, fun later hlater => (hsteps later hlater).1, hpairwise⟩
    intro step hstep
    exact ⟨hgrows.trans (hsteps step hstep).1, (hsteps step hstep).2⟩

/-- In a session from the start with trees that spell no names of temporary
    variables, each tree that lowers settles the variables that are given out for
    it.  The counts never go down, whether a tree lowers or fails, so no two trees
    share a variable. -/
theorem temps_of_session (es : List Expr) (hes : ∀ e ∈ es, e.SparesTemps) :
    (∀ e step, (e, step) ∈ es.zip (session .none es) → ∀ f, step.result = .ok f →
      SettlesTemps e f.code step.before.temps step.after.temps) ∧
    (∀ step ∈ session .none es, step.before.Le step.after) ∧
    (session .none es).Pairwise fun step later => step.after.Le later.before := by
  obtain ⟨hsteps, hpairwise⟩ := names_le_session es .none
  refine ⟨?_, fun step hstep => (hsteps step hstep).2, hpairwise⟩
  intro e step hmem f hf
  obtain ⟨he, hlowers⟩ := step_of_session hmem hf
  exact hlowers.settlesTemps (hes e he)

/-- An `if` around a `case` with one arm, and before it a call that fails after
    a variable was taken. -/
def failingThenNested : List Expr :=
  [.call "nosuch" [.num "1"],
   .branch (.var "x") (.num "1") (.select (.var "y") [(.num "2", .str "tmp0")] .null)]

theorem temps_of_failingThenNested :
    (∀ e ∈ failingThenNested, e.SparesTemps) ∧
    ∃ e step f, (e, step) ∈ failingThenNested.zip (session .none failingThenNested) ∧
      step.result = .ok f ∧ step.before.temps = 1 ∧ step.after.temps = 6 ∧
      e.takers.map Expr.writers = [[.set], [.set], [.set], [.set, .set], [.set, .set]] ∧
      SettlesTemps e f.code 1 6 := by
  have hspares : ∀ e ∈ failingThenNested, e.SparesTemps := by decide +kernel
  refine ⟨hspares, _, _, _, List.mem_cons_of_mem _ List.mem_cons_self, rfl, rfl, rfl, ?_, ?_⟩
  · decide +kernel
  · exact (temps_of_session failingThenNested hspares).1 _ _
      (List.mem_cons_of_mem _ List.mem_cons_self) _ rfl

end Mlog
