import Mlog.Lower

/-! # Lowering as a relation

    `Lowers e n f n'` says that the tree `e` has the fragment `f` as its code
    when the names `n` have been given out before, and that the names `n'`
    have been given out after.  The rules are those of `lower`, read off its
    successful runs, with the names of temporary variables and labels written
    out.

    * `lowers_iff_run`: the derivations are the successful runs of `lower`.
    * `grows_lower`: names are given out and never taken back, also when
      lowering fails.

    Proofs about derivations go by induction on the tree and by cases on the
    rule; `EachArg.imp` and `EachArm.imp` bring the induction hypotheses to
    the arguments of a call and the arms of a `case`. -/

namespace Mlog

/-! ## Section 1: Runs of lowering steps -/

namespace Lowering

variable {α β : Type} {names names' : Names}

@[simp] theorem runFrom_pure (a : α) : (pure a : Lowering α).runFrom names = (.ok a, names) := rfl

@[simp] theorem runFrom_throw (e : LoweringError) :
    (throw e : Lowering α).runFrom names = (.error e, names) := rfl

/-- A step after another one runs from the names that the first one left. -/
theorem runFrom_bind (x : Lowering α) (f : α → Lowering β) :
    (x >>= f).runFrom names =
      match x.runFrom names with
      | (.ok a, names₁) => (f a).runFrom names₁
      | (.error e, names₁) => (.error e, names₁) := by
  simp only [runFrom, bind, ExceptT.bind, ExceptT.mk, ExceptT.run, StateT.bind, StateT.run]
  rcases x names with ⟨_ | a, names₁⟩ <;> rfl

/-- Two steps succeed together iff the first succeeds and then the second. -/
theorem runFrom_bind_eq_ok {x : Lowering α} {f : α → Lowering β} {b : β} :
    (x >>= f).runFrom names = (.ok b, names') ↔
      ∃ a names₁, x.runFrom names = (.ok a, names₁) ∧ (f a).runFrom names₁ = (.ok b, names') := by
  rw [runFrom_bind]
  rcases h : x.runFrom names with ⟨_ | a, names₁⟩
  · simp
  · simp only [Prod.mk.injEq, Except.ok.injEq]
    constructor
    · intro hf
      exact ⟨a, names₁, ⟨rfl, rfl⟩, hf⟩
    · rintro ⟨_, _, ⟨rfl, rfl⟩, hf⟩
      exact hf

@[simp] theorem runFrom_freshTemp :
    freshTemp.runFrom names =
      (.ok (tempName names.temps), { names with temps := names.temps + 1 }) := rfl

@[simp] theorem runFrom_freshLabel :
    freshLabel.runFrom names =
      (.ok (labelName names.labels), { names with labels := names.labels + 1 }) := rfl

@[simp] theorem runFrom_freshLabels (count : Nat) :
    (freshLabels count).runFrom names =
      (.ok ((List.range' names.labels count).map labelName),
        { names with labels := names.labels + count }) := rfl

theorem runFrom_pure_eq_ok {a b : α} :
    (pure a : Lowering α).runFrom names = (.ok b, names') ↔ a = b ∧ names = names' := by
  simp

theorem runFrom_freshTemp_eq_ok {temp : String} :
    freshTemp.runFrom names = (.ok temp, names') ↔
      tempName names.temps = temp ∧ { names with temps := names.temps + 1 } = names' := by
  simp

theorem runFrom_freshLabel_eq_ok {label : String} :
    freshLabel.runFrom names = (.ok label, names') ↔
      labelName names.labels = label ∧ { names with labels := names.labels + 1 } = names' := by
  simp

theorem runFrom_freshLabels_eq_ok {count : Nat} {labels : List String} :
    (freshLabels count).runFrom names = (.ok labels, names') ↔
      (List.range' names.labels count).map labelName = labels ∧
        { names with labels := names.labels + count } = names' := by
  simp

theorem runFrom_needValue (role : Role) (part : Expr) (v : Valued) :
    (needValue role part v.toFragment).runFrom names = (.ok v, names) := rfl

/-- A value is there exactly when the fragment has one. -/
theorem runFrom_needValue_eq_ok {role : Role} {part : Expr} {f : Fragment} {v : Valued} :
    (needValue role part f).runFrom names = (.ok v, names') ↔
      f = v.toFragment ∧ names = names' := by
  obtain ⟨_ | value, code⟩ := f <;> obtain ⟨value', code'⟩ := v
  · simp [needValue, Valued.toFragment]
  · simp [needValue, Valued.toFragment]

end Lowering

/-! ## Section 2: Derivations -/

/-- A relation on the arguments of a call, one after the other. -/
inductive EachArg (P : Expr → Names → Valued → Names → Prop) :
    List Expr → Names → List Valued → Names → Prop
  | nil (n : Names) : EachArg P [] n [] n
  | cons {arg args v vs n₀ n₁ n₂} : P arg n₀ v n₁ → EachArg P args n₁ vs n₂ →
      EachArg P (arg :: args) n₀ (v :: vs) n₂

/-- A relation on the patterns and the bodies of arms, one after the other. -/
inductive EachArm (P : Expr → Names → Valued → Names → Prop) :
    List (Expr × Expr) → Names → List (Valued × Valued) → Names → Prop
  | nil (n : Names) : EachArm P [] n [] n
  | cons {pattern body arms p b vs n₀ n₁ n₂ n₃} : P pattern n₀ p n₁ → P body n₁ b n₂ →
      EachArm P arms n₂ vs n₃ → EachArm P ((pattern, body) :: arms) n₀ ((p, b) :: vs) n₃

theorem EachArg.length_eq {P : Expr → Names → Valued → Names → Prop} {args : List Expr}
    {vs : List Valued} {n n' : Names} (h : EachArg P args n vs n') : vs.length = args.length := by
  induction h with
  | nil n => rfl
  | cons _ _ ih => simp [ih]

/-- A relation on arguments may be replaced by one that follows from it. -/
theorem EachArg.imp {P Q : Expr → Names → Valued → Names → Prop} {args : List Expr}
    {vs : List Valued} {n n' : Names} (h : EachArg P args n vs n')
    (himp : ∀ arg ∈ args, ∀ n v n', P arg n v n' → Q arg n v n') : EachArg Q args n vs n' := by
  induction h with
  | nil n => exact .nil n
  | cons harg _ ih =>
    obtain ⟨hfirst, hothers⟩ := List.forall_mem_cons.mp himp
    exact .cons (hfirst _ _ _ harg) (ih hothers)

/-- A relation on arms may be replaced by one that follows from it. -/
theorem EachArm.imp {P Q : Expr → Names → Valued → Names → Prop} {arms : List (Expr × Expr)}
    {vs : List (Valued × Valued)} {n n' : Names} (h : EachArm P arms n vs n')
    (himp : ∀ arm ∈ arms, (∀ n v n', P arm.1 n v n' → Q arm.1 n v n') ∧
      (∀ n v n', P arm.2 n v n' → Q arm.2 n v n')) : EachArm Q arms n vs n' := by
  induction h with
  | nil n => exact .nil n
  | cons hpattern hbody _ ih =>
    obtain ⟨⟨hfirst, hsecond⟩, hothers⟩ := List.forall_mem_cons.mp himp
    exact .cons (hfirst _ _ _ hpattern) (hsecond _ _ _ hbody) (ih hothers)

/-- How many temporary variables the code of a built-in function takes. -/
def Intrinsic.temps : Intrinsic → Nat
  | rand | getlink | within => 1
  | _ => 0

/-- The code of a call, the next temporary variable being `result`. -/
def Intrinsic.code (f : Intrinsic) (result : String) (args : List String) : Valued :=
  match f with
  | print => ⟨args.getLastD "null", args.map .print⟩
  | printflush => ⟨"null", args.map .printflush⟩
  | rand => ⟨result, [.op "rand" result (args.take 1)]⟩
  | getlink => ⟨result, [⟨.getlink, result :: args.take 1⟩]⟩
  | ubind => ⟨"null", [⟨.ubind, args.take 1⟩]⟩
  | within => ⟨result, [.ucontrol "within" (args.take 3 ++ [result])]⟩
  | order o => ⟨o.value "null" args, [.ucontrol o.command (o.operands args)]⟩

/-- The tree has the code, and the names go from the first to the second. -/
inductive Lowers : Expr → Names → Fragment → Names → Prop
  | null (n) : Lowers .null n (.constant "null") n
  | bool (value n) : Lowers (.bool value) n (.constant (if value then "true" else "false")) n
  | num (literal n) :
      Lowers (.num literal) n ⟨some (tempName n.temps), [.set (tempName n.temps) literal]⟩
        { n with temps := n.temps + 1 }
  | str (text n) :
      Lowers (.str text) n
        ⟨some (tempName n.temps), [.set (tempName n.temps) (Text.quoted text)]⟩
        { n with temps := n.temps + 1 }
  | var (name n) : Lowers (.var name) n (.constant name) n
  | builtin (name n) : Lowers (.builtin name) n (.constant ("@" ++ name)) n
  | seq {rest last f g n₀ n₁ n₂} : Lowers rest n₀ f n₁ → Lowers last n₁ g n₂ →
      Lowers (.seq rest last) n₀ ⟨g.value, f.code ++ g.code⟩ n₂
  | branch {cond yes no} {c y : Valued} {f : Fragment} {n₀ n₁ n₂ n₃ : Names} :
      Lowers cond n₀ c.toFragment n₁ → Lowers yes n₁ y.toFragment n₂ → Lowers no n₂ f n₃ →
      Lowers (.branch cond yes no) n₀
        ⟨some (tempName n₃.temps), branchCode c y f (tempName n₃.temps) (labelName n₃.labels)
          (labelName (n₃.labels + 1))⟩
        ⟨n₃.temps + 1, n₃.labels + 2⟩
  | loop {cond body} {c : Valued} {f : Fragment} {n₀ n₁ n₂ : Names} :
      Lowers cond n₀ c.toFragment n₁ → Lowers body n₁ f n₂ →
      Lowers (.loop cond body) n₀
        ⟨f.value, loopCode c f (labelName n₂.labels) (labelName (n₂.labels + 1))⟩
        { n₂ with labels := n₂.labels + 2 }
  | select {subject arms otherwise} {s : Valued} {as : List (Valued × Valued)} {f : Fragment}
      {n₀ n₁ n₂ n₃ : Names} :
      Lowers subject n₀ s.toFragment n₁ →
      EachArm (fun e n v n' => Lowers e n v.toFragment n') arms n₁ as n₂ →
      Lowers otherwise n₂ f n₃ →
      Lowers (.select subject arms otherwise) n₀
        ⟨some (tempName n₃.temps), selectCode s as f (tempName n₃.temps)
          ((List.range' n₃.labels as.length).map labelName) (labelName (n₃.labels + as.length))⟩
        ⟨n₃.temps + 1, n₃.labels + as.length + 1⟩
  | assign {name value} {v : Valued} {n₀ n₁ : Names} : Lowers value n₀ v.toFragment n₁ →
      Lowers (.assign name value) n₀ ⟨some v.value, v.code ++ [.set name v.value]⟩ n₁
  | assignBuiltin {name value f n₀ n₁} : Lowers value n₀ f n₁ →
      Lowers (.assignBuiltin name value) n₀ ⟨some ("@" ++ name), f.code⟩ n₁
  | load {cell address} {a : Valued} {n₀ n₁ : Names} : Lowers address n₀ a.toFragment n₁ →
      Lowers (.load cell address) n₀
        ⟨some (tempName n₁.temps), a.code ++ [.read (tempName n₁.temps) cell a.value]⟩
        { n₁ with temps := n₁.temps + 1 }
  | store {cell address value} {a v : Valued} {n₀ n₁ n₂ : Names} :
      Lowers address n₀ a.toFragment n₁ → Lowers value n₁ v.toFragment n₂ →
      Lowers (.store cell address value) n₀
        ⟨some v.value, a.code ++ v.code ++ [.write v.value cell a.value]⟩ n₂
  | control {property target value} {v : Valued} {n₀ n₁ : Names} :
      Lowers value n₀ v.toFragment n₁ →
      Lowers (.control property target value) n₀
        ⟨some v.value, v.code ++ [.control property target v.value]⟩ n₁
  | sensor (target name n) :
      Lowers (.sensor target name) n
        ⟨some (tempName n.temps), [.sensor (tempName n.temps) target name]⟩
        { n with temps := n.temps + 1 }
  | unary {op operand operation} {v : Valued} {n₀ n₁ : Names} :
      Lowers operand n₀ v.toFragment n₁ → unaryOperation? op = some operation →
      Lowers (.unary op operand) n₀
        ⟨some (tempName n₁.temps), v.code ++ [.op operation (tempName n₁.temps) [v.value]]⟩
        { n₁ with temps := n₁.temps + 1 }
  | binary {op left right operation} {l r : Valued} {n₀ n₁ n₂ : Names} :
      Lowers left n₀ l.toFragment n₁ → Lowers right n₁ r.toFragment n₂ →
      binaryOperation? op = some operation →
      Lowers (.binary op left right) n₀
        ⟨some (tempName n₂.temps),
          l.code ++ r.code ++ [.op operation (tempName n₂.temps) [l.value, r.value]]⟩
        { n₂ with temps := n₂.temps + 1 }
  | call {name args} {vs : List Valued} {f : Intrinsic} {n₀ n₁ : Names} :
      EachArg (fun e n v n' => Lowers e n v.toFragment n') args n₀ vs n₁ →
      Intrinsic.ofName? name = some f → f.arity ≤ args.length →
      Lowers (.call name args) n₀
        ⟨some (f.code (tempName n₁.temps) (vs.map Valued.value)).value,
          vs.flatMap Valued.code ++ (f.code (tempName n₁.temps) (vs.map Valued.value)).code⟩
        { n₁ with temps := n₁.temps + f.temps }
  | comment (text n) : Lowers (.comment text) n .empty n
  | nop (n) : Lowers .nop n .empty n

/-! ## Section 3: Successful runs are derivations -/

@[simp] theorem Intrinsic.runFrom_expand (f : Intrinsic) (args : List String) (names : Names) :
    (f.expand args).runFrom names =
      (.ok (f.code (tempName names.temps) args),
        { names with temps := names.temps + f.temps }) := by
  cases f <;> rfl

/-- A call has code iff the function is known and has enough arguments. -/
theorem Lowering.runFrom_expandCall_eq_ok {name : String} {args : List String} {v : Valued}
    {names names' : Names} :
    (expandCall name args).runFrom names = (.ok v, names') ↔
      ∃ f, Intrinsic.ofName? name = some f ∧ f.arity ≤ args.length ∧
        v = f.code (tempName names.temps) args ∧
        names' = { names with temps := names.temps + f.temps } := by
  unfold expandCall
  cases hf : Intrinsic.ofName? name with
  | none => simp
  | some f =>
    by_cases hlen : args.length < f.arity
    · have harity : ¬ f.arity ≤ args.length := Nat.not_le_of_lt hlen
      simp [hlen, harity]
    · have harity : f.arity ≤ args.length := Nat.le_of_not_lt hlen
      simp [hlen, harity, eq_comm]

open Lowering

/-- The arguments of a call, given that each of them lowers by derivation. -/
theorem eachArg_of_run {args : List Expr}
    (hargs : ∀ arg ∈ args, ∀ n f n', (lower arg).runFrom n = (.ok f, n') → Lowers arg n f n')
    {name : String} {position : Nat} {n n' : Names} {vs : List Valued}
    (h : (lowerArgs name position args).runFrom n = (.ok vs, n')) :
    EachArg (fun e n v n' => Lowers e n v.toFragment n') args n vs n' := by
  induction args generalizing position n vs with
  | nil =>
    simp only [lowerArgs, runFrom_pure_eq_ok] at h
    obtain ⟨rfl, rfl⟩ := h
    exact .nil n
  | cons arg args ih =>
    obtain ⟨harg, hargs⟩ := List.forall_mem_cons.mp hargs
    simp only [lowerArgs, runFrom_bind_eq_ok, runFrom_needValue_eq_ok, runFrom_pure_eq_ok] at h
    obtain ⟨f, n₁, hf, v, _, ⟨rfl, rfl⟩, ws, n₂, hws, rfl, rfl⟩ := h
    exact .cons (harg _ _ _ hf) (ih hargs hws)

/-- The arms of a `case`, given that each of their parts lowers by derivation. -/
theorem eachArm_of_run {arms : List (Expr × Expr)}
    (harms : ∀ arm ∈ arms,
      (∀ n f n', (lower arm.1).runFrom n = (.ok f, n') → Lowers arm.1 n f n') ∧
      (∀ n f n', (lower arm.2).runFrom n = (.ok f, n') → Lowers arm.2 n f n'))
    {n n' : Names} {vs : List (Valued × Valued)}
    (h : (lowerArms arms).runFrom n = (.ok vs, n')) :
    EachArm (fun e n v n' => Lowers e n v.toFragment n') arms n vs n' := by
  induction arms generalizing n vs with
  | nil =>
    simp only [lowerArms, runFrom_pure_eq_ok] at h
    obtain ⟨rfl, rfl⟩ := h
    exact .nil n
  | cons arm arms ih =>
    obtain ⟨pattern, body⟩ := arm
    obtain ⟨⟨hpattern, hbody⟩, harms⟩ := List.forall_mem_cons.mp harms
    simp only [lowerArms, runFrom_bind_eq_ok, runFrom_needValue_eq_ok, runFrom_pure_eq_ok] at h
    obtain ⟨f, n₁, hf, p, _, ⟨rfl, rfl⟩, g, n₂, hg, b, _, ⟨rfl, rfl⟩, ws, n₃, hws, rfl, rfl⟩ := h
    exact .cons (hpattern _ _ _ hf) (hbody _ _ _ hg) (ih harms hws)

/-- A successful run of `lower` is a derivation. -/
theorem lowers_of_run {e : Expr} :
    ∀ {n : Names} {f : Fragment} {n' : Names}, (lower e).runFrom n = (.ok f, n') →
      Lowers e n f n' := by
  -- each case takes the run apart into the runs of the parts, in their order, and the names
  induction e with
  | null =>
    intro n f n' h
    simp only [lower, runFrom_pure_eq_ok] at h
    obtain ⟨rfl, rfl⟩ := h
    exact .null n
  | bool value =>
    intro n f n' h
    simp only [lower, runFrom_pure_eq_ok] at h
    obtain ⟨rfl, rfl⟩ := h
    exact .bool value n
  | num literal =>
    intro n f n' h
    simp only [lower, runFrom_bind_eq_ok, runFrom_freshTemp_eq_ok, runFrom_pure_eq_ok] at h
    obtain ⟨_, _, ⟨rfl, rfl⟩, rfl, rfl⟩ := h
    exact .num literal n
  | str text =>
    intro n f n' h
    simp only [lower, runFrom_bind_eq_ok, runFrom_freshTemp_eq_ok, runFrom_pure_eq_ok] at h
    obtain ⟨_, _, ⟨rfl, rfl⟩, rfl, rfl⟩ := h
    exact .str text n
  | var name =>
    intro n f n' h
    simp only [lower, runFrom_pure_eq_ok] at h
    obtain ⟨rfl, rfl⟩ := h
    exact .var name n
  | builtin name =>
    intro n f n' h
    simp only [lower, runFrom_pure_eq_ok] at h
    obtain ⟨rfl, rfl⟩ := h
    exact .builtin name n
  | seq rest last hrest hlast =>
    intro n f n' h
    simp only [lower, runFrom_bind_eq_ok, runFrom_pure_eq_ok] at h
    obtain ⟨g, n₁, hg, k, n₂, hk, rfl, rfl⟩ := h
    exact .seq (hrest hg) (hlast hk)
  | branch cond yes no hcond hyes hno =>
    intro n f n' h
    simp only [lower, runFrom_bind_eq_ok, runFrom_needValue_eq_ok, runFrom_freshTemp_eq_ok,
      runFrom_freshLabel_eq_ok, runFrom_pure_eq_ok] at h
    obtain ⟨_, n₁, hc, c, _, ⟨rfl, rfl⟩, _, n₂, hy, y, _, ⟨rfl, rfl⟩, g, n₃, hg,
      _, _, ⟨rfl, rfl⟩, _, _, ⟨rfl, rfl⟩, _, _, ⟨rfl, rfl⟩, rfl, rfl⟩ := h
    exact .branch (hcond hc) (hyes hy) (hno hg)
  | loop cond body hcond hbody =>
    intro n f n' h
    simp only [lower, runFrom_bind_eq_ok, runFrom_needValue_eq_ok, runFrom_freshLabel_eq_ok,
      runFrom_pure_eq_ok] at h
    obtain ⟨_, n₁, hc, c, _, ⟨rfl, rfl⟩, g, n₂, hg, _, _, ⟨rfl, rfl⟩, _, _, ⟨rfl, rfl⟩,
      rfl, rfl⟩ := h
    exact .loop (hcond hc) (hbody hg)
  | select subject arms otherwise hsubject harms hotherwise =>
    intro n f n' h
    simp only [lower, runFrom_bind_eq_ok, runFrom_needValue_eq_ok, runFrom_freshTemp_eq_ok,
      runFrom_freshLabels_eq_ok, runFrom_freshLabel_eq_ok, runFrom_pure_eq_ok] at h
    obtain ⟨_, n₁, hs, s, _, ⟨rfl, rfl⟩, as, n₂, has, g, n₃, hg, _, _, ⟨rfl, rfl⟩,
      _, _, ⟨rfl, rfl⟩, _, _, ⟨rfl, rfl⟩, rfl, rfl⟩ := h
    -- the arms and the arguments are runs of lists, with derivations of their own
    have harms' := eachArm_of_run (fun arm harm =>
      ⟨fun _ _ _ => (harms arm harm).1, fun _ _ _ => (harms arm harm).2⟩) has
    exact .select (hsubject hs) harms' (hotherwise hg)
  | assign name value hvalue =>
    intro n f n' h
    simp only [lower, runFrom_bind_eq_ok, runFrom_needValue_eq_ok, runFrom_pure_eq_ok] at h
    obtain ⟨_, n₁, hv, v, _, ⟨rfl, rfl⟩, rfl, rfl⟩ := h
    exact .assign (hvalue hv)
  | assignBuiltin name value hvalue =>
    intro n f n' h
    simp only [lower, runFrom_bind_eq_ok, runFrom_pure_eq_ok] at h
    obtain ⟨g, n₁, hg, rfl, rfl⟩ := h
    exact .assignBuiltin (hvalue hg)
  | load cell address haddress =>
    intro n f n' h
    simp only [lower, runFrom_bind_eq_ok, runFrom_needValue_eq_ok, runFrom_freshTemp_eq_ok,
      runFrom_pure_eq_ok] at h
    obtain ⟨_, n₁, ha, a, _, ⟨rfl, rfl⟩, _, _, ⟨rfl, rfl⟩, rfl, rfl⟩ := h
    exact .load (haddress ha)
  | store cell address value haddress hvalue =>
    intro n f n' h
    simp only [lower, runFrom_bind_eq_ok, runFrom_needValue_eq_ok, runFrom_pure_eq_ok] at h
    obtain ⟨_, n₁, ha, a, _, ⟨rfl, rfl⟩, _, n₂, hv, v, _, ⟨rfl, rfl⟩, rfl, rfl⟩ := h
    exact .store (haddress ha) (hvalue hv)
  | control property target value hvalue =>
    intro n f n' h
    simp only [lower, runFrom_bind_eq_ok, runFrom_needValue_eq_ok, runFrom_pure_eq_ok] at h
    obtain ⟨_, n₁, hv, v, _, ⟨rfl, rfl⟩, rfl, rfl⟩ := h
    exact .control (hvalue hv)
  | sensor target name =>
    intro n f n' h
    simp only [lower, runFrom_bind_eq_ok, runFrom_freshTemp_eq_ok, runFrom_pure_eq_ok] at h
    obtain ⟨_, _, ⟨rfl, rfl⟩, rfl, rfl⟩ := h
    exact .sensor target name n
  | unary op operand hoperand =>
    intro n f n' h
    simp only [lower, runFrom_bind_eq_ok, runFrom_needValue_eq_ok] at h
    obtain ⟨_, n₁, hv, v, _, ⟨rfl, rfl⟩, h⟩ := h
    cases hop : unaryOperation? op with
    -- an operation that the machine does not have makes the run fail
    | none => simp [hop] at h
    | some operation =>
      simp only [hop, runFrom_bind_eq_ok, runFrom_freshTemp_eq_ok, runFrom_pure_eq_ok] at h
      obtain ⟨_, _, ⟨rfl, rfl⟩, rfl, rfl⟩ := h
      exact .unary (hoperand hv) hop
  | binary op left right hleft hright =>
    intro n f n' h
    simp only [lower, runFrom_bind_eq_ok, runFrom_needValue_eq_ok] at h
    obtain ⟨_, n₁, hl, l, _, ⟨rfl, rfl⟩, _, n₂, hr, r, _, ⟨rfl, rfl⟩, h⟩ := h
    cases hop : binaryOperation? op with
    | none => simp [hop] at h
    | some operation =>
      simp only [hop, runFrom_bind_eq_ok, runFrom_freshTemp_eq_ok, runFrom_pure_eq_ok] at h
      obtain ⟨_, _, ⟨rfl, rfl⟩, rfl, rfl⟩ := h
      exact .binary (hleft hl) (hright hr) hop
  | call name args hargs =>
    intro n f n' h
    simp only [lower, runFrom_bind_eq_ok, runFrom_expandCall_eq_ok, runFrom_pure_eq_ok] at h
    obtain ⟨vs, n₁, hvs, _, _, ⟨fn, hfn, harity, rfl, rfl⟩, rfl, rfl⟩ := h
    have hargs' := eachArg_of_run (fun arg harg _ _ _ => hargs arg harg) hvs
    -- the arguments are counted in the run by their operands, and in the rule as trees
    rw [List.length_map, hargs'.length_eq] at harity
    exact .call hargs' hfn harity
  | comment text =>
    intro n f n' h
    simp only [lower, runFrom_pure_eq_ok] at h
    obtain ⟨rfl, rfl⟩ := h
    exact .comment text n
  | nop =>
    intro n f n' h
    simp only [lower, runFrom_pure_eq_ok] at h
    obtain ⟨rfl, rfl⟩ := h
    exact .nop n

/-! ## Section 4: Derivations are successful runs -/

/-- The arguments of a call lower as they are derived. -/
theorem run_of_eachArg {args : List Expr} {n n' : Names} {vs : List Valued}
    (h : EachArg (fun e n v n' => (lower e).runFrom n = (.ok v.toFragment, n')) args n vs n')
    (name : String) (position : Nat) :
    (lowerArgs name position args).runFrom n = (.ok vs, n') := by
  induction h generalizing position with
  | nil n => rfl
  | cons harg _ ih => simp only [lowerArgs, runFrom_bind, harg, runFrom_needValue, ih, runFrom_pure]

/-- The arms of a `case` lower as they are derived. -/
theorem run_of_eachArm {arms : List (Expr × Expr)} {n n' : Names} {vs : List (Valued × Valued)}
    (h : EachArm (fun e n v n' => (lower e).runFrom n = (.ok v.toFragment, n')) arms n vs n') :
    (lowerArms arms).runFrom n = (.ok vs, n') := by
  induction h with
  | nil n => rfl
  | cons hpattern hbody _ ih =>
    simp only [lowerArms, runFrom_bind, hpattern, hbody, runFrom_needValue, ih, runFrom_pure]

/-- A derivation is a successful run of `lower`. -/
theorem run_of_lowers {e : Expr} :
    ∀ {n : Names} {f : Fragment} {n' : Names}, Lowers e n f n' →
      (lower e).runFrom n = (.ok f, n') := by
  induction e with
  | seq rest last ihrest ihlast =>
    intro n f n' h
    cases h with
    | seq hrest hlast =>
      simp only [lower, runFrom_bind, ihrest hrest, ihlast hlast, runFrom_pure]
  | branch cond yes no ihcond ihyes ihno =>
    intro n f n' h
    cases h with
    | branch hcond hyes hno =>
      simp only [lower, runFrom_bind, ihcond hcond, ihyes hyes, ihno hno, runFrom_needValue,
        runFrom_freshTemp, runFrom_freshLabel, runFrom_pure]
  | loop cond body ihcond ihbody =>
    intro n f n' h
    cases h with
    | loop hcond hbody =>
      simp only [lower, runFrom_bind, ihcond hcond, ihbody hbody, runFrom_needValue,
        runFrom_freshLabel, runFrom_pure]
  | select subject arms otherwise ihsubject iharms ihotherwise =>
    intro n f n' h
    cases h with
    | select hsubject harms hotherwise =>
      have hrun := run_of_eachArm (harms.imp fun arm harm =>
        ⟨fun _ _ _ => (iharms arm harm).1, fun _ _ _ => (iharms arm harm).2⟩)
      simp only [lower, runFrom_bind, ihsubject hsubject, hrun, ihotherwise hotherwise,
        runFrom_needValue, runFrom_freshTemp, runFrom_freshLabels, runFrom_freshLabel, runFrom_pure]
  | assign name value ih =>
    intro n f n' h
    cases h with
    | assign hvalue => simp only [lower, runFrom_bind, ih hvalue, runFrom_needValue, runFrom_pure]
  | assignBuiltin name value ih =>
    intro n f n' h
    cases h with
    | assignBuiltin hvalue => simp only [lower, runFrom_bind, ih hvalue, runFrom_pure]
  | load cell address ih =>
    intro n f n' h
    cases h with
    | load haddress =>
      simp only [lower, runFrom_bind, ih haddress, runFrom_needValue, runFrom_freshTemp,
        runFrom_pure]
  | store cell address value ihaddress ihvalue =>
    intro n f n' h
    cases h with
    | store haddress hvalue =>
      simp only [lower, runFrom_bind, ihaddress haddress, ihvalue hvalue, runFrom_needValue,
        runFrom_pure]
  | control property target value ih =>
    intro n f n' h
    cases h with
    | control hvalue => simp only [lower, runFrom_bind, ih hvalue, runFrom_needValue, runFrom_pure]
  | unary op operand ih =>
    intro n f n' h
    cases h with
    | unary hoperand hop =>
      simp only [lower, runFrom_bind, ih hoperand, hop, runFrom_needValue, runFrom_freshTemp,
        runFrom_pure]
  | binary op left right ihleft ihright =>
    intro n f n' h
    cases h with
    | binary hleft hright hop =>
      simp only [lower, runFrom_bind, ihleft hleft, ihright hright, hop, runFrom_needValue,
        runFrom_freshTemp, runFrom_pure]
  | call name args ih =>
    intro n f n' h
    cases h with
    | call hargs hname harity =>
      have hrun := run_of_eachArg (hargs.imp fun arg harg _ _ _ => ih arg harg) name 1
      rw [← hargs.length_eq, ← List.length_map Valued.value] at harity
      simp only [lower, runFrom_bind, hrun,
        runFrom_expandCall_eq_ok.mpr ⟨_, hname, harity, rfl, rfl⟩, runFrom_pure]
  -- the rest has no parts: one step gives the code
  | _ => intro n f n' h; cases h; rfl

/-- Lowering succeeds exactly along the rules. -/
theorem lowers_iff_run {e : Expr} {n : Names} {f : Fragment} {n' : Names} :
    Lowers e n f n' ↔ (lower e).runFrom n = (.ok f, n') := ⟨run_of_lowers, lowers_of_run⟩

/-! ## Section 5: Names are never taken back -/

/-- At least as many names have been given out. -/
structure Names.Le (n n' : Names) : Prop where
  temps : n.temps ≤ n'.temps
  labels : n.labels ≤ n'.labels

theorem Names.Le.refl (n : Names) : n.Le n := ⟨Nat.le_refl _, Nat.le_refl _⟩

theorem Names.Le.trans {n₀ n₁ n₂ : Names} (h : n₀.Le n₁) (h' : n₁.Le n₂) : n₀.Le n₂ :=
  ⟨Nat.le_trans h.temps h'.temps, Nat.le_trans h.labels h'.labels⟩

namespace Lowering

variable {α β : Type}

/-- A step that takes no name back, whether it succeeds or fails. -/
def Grows (step : Lowering α) : Prop := ∀ names : Names, names.Le (step.runFrom names).2

theorem grows_pure (a : α) : Grows (pure a) := fun names => .refl names

theorem grows_throw (e : LoweringError) : Grows (throw e : Lowering α) := fun names => .refl names

theorem Grows.bind {x : Lowering α} {f : α → Lowering β} (hx : Grows x) (hf : ∀ a, Grows (f a)) :
    Grows (x >>= f) := by
  intro names
  have hle := hx names
  rw [runFrom_bind]
  rcases hrun : x.runFrom names with ⟨e | a, names₁⟩
  · rw [hrun] at hle
    exact hle
  · rw [hrun] at hle
    exact hle.trans (hf a names₁)

theorem grows_freshTemp : Grows freshTemp := fun _ => ⟨Nat.le_succ _, Nat.le_refl _⟩

theorem grows_freshLabel : Grows freshLabel := fun _ => ⟨Nat.le_refl _, Nat.le_succ _⟩

theorem grows_freshLabels (count : Nat) : Grows (freshLabels count) :=
  fun _ => ⟨Nat.le_refl _, Nat.le_add_right ..⟩

theorem grows_needValue (role : Role) (part : Expr) (f : Fragment) :
    Grows (needValue role part f) := by
  unfold needValue
  split
  · exact grows_pure _
  · exact grows_throw _

/-- A part that has to have a value, and what is done with it. -/
theorem Grows.bindValue {x : Lowering Fragment} {role : Role} {part : Expr}
    {k : Valued → Lowering α}
    (hx : Grows x) (hk : ∀ v, Grows (k v)) : Grows (x >>= fun f => needValue role part f >>= k) :=
  hx.bind fun f => (grows_needValue role part f).bind hk

theorem grows_expandCall (name : String) (args : List String) : Grows (expandCall name args) := by
  unfold expandCall
  split
  · exact grows_throw _
  · split
    · exact grows_throw _
    · intro names
      rw [Intrinsic.runFrom_expand]
      exact ⟨Nat.le_add_right .., Nat.le_refl _⟩

theorem grows_lowerArgs {args : List Expr} (hargs : ∀ arg ∈ args, Grows (lower arg)) (name : String)
    (position : Nat) : Grows (lowerArgs name position args) := by
  induction args generalizing position with
  | nil => exact grows_pure _
  | cons arg args ih =>
    obtain ⟨harg, hargs⟩ := List.forall_mem_cons.mp hargs
    exact harg.bindValue fun _ =>
      (ih hargs (position + 1)).bind fun _ => grows_pure _

theorem grows_lowerArms {arms : List (Expr × Expr)}
    (harms : ∀ arm ∈ arms, Grows (lower arm.1) ∧ Grows (lower arm.2)) :
    Grows (lowerArms arms) := by
  induction arms with
  | nil => exact grows_pure _
  | cons arm arms ih =>
    obtain ⟨⟨hpattern, hbody⟩, harms⟩ := List.forall_mem_cons.mp harms
    exact hpattern.bindValue fun _ =>
      hbody.bindValue fun _ => (ih harms).bind fun _ => grows_pure _

/-- Lowering a tree takes no name back, whether it succeeds or fails. -/
theorem grows_lower (e : Expr) : Grows (lower e) := by
  induction e with
  | null => exact grows_pure _
  | bool value => exact grows_pure _
  | num literal => exact grows_freshTemp.bind fun _ => grows_pure _
  | str text => exact grows_freshTemp.bind fun _ => grows_pure _
  | var name => exact grows_pure _
  | builtin name => exact grows_pure _
  | seq rest last hrest hlast =>
    exact hrest.bind fun _ => hlast.bind fun _ => grows_pure _
  | branch cond yes no hcond hyes hno =>
    exact hcond.bindValue fun _ =>
      hyes.bindValue fun _ => hno.bind fun _ =>
      grows_freshTemp.bind fun _ => grows_freshLabel.bind fun _ => grows_freshLabel.bind fun _ =>
      grows_pure _
  | loop cond body hcond hbody =>
    exact hcond.bindValue fun _ => hbody.bind fun _ =>
      grows_freshLabel.bind fun _ => grows_freshLabel.bind fun _ => grows_pure _
  | select subject arms otherwise hsubject harms hotherwise =>
    exact hsubject.bindValue fun _ =>
      (grows_lowerArms harms).bind fun _ => hotherwise.bind fun _ =>
      grows_freshTemp.bind fun _ => (grows_freshLabels _).bind fun _ =>
      grows_freshLabel.bind fun _ => grows_pure _
  | assign name value hvalue =>
    exact hvalue.bindValue fun _ => grows_pure _
  | assignBuiltin name value hvalue => exact hvalue.bind fun _ => grows_pure _
  | load cell address haddress =>
    exact haddress.bindValue fun _ =>
      grows_freshTemp.bind fun _ => grows_pure _
  | store cell address value haddress hvalue =>
    exact haddress.bindValue fun _ =>
      hvalue.bindValue fun _ => grows_pure _
  | control property target value hvalue =>
    exact hvalue.bindValue fun _ => grows_pure _
  | sensor target name => exact grows_freshTemp.bind fun _ => grows_pure _
  | unary op operand hoperand =>
    refine hoperand.bindValue fun _ => ?_
    cases unaryOperation? op with
    -- a run that fails has given out the names of the operand all the same
    | none => exact grows_throw _
    | some operation => exact grows_freshTemp.bind fun _ => grows_pure _
  | binary op left right hleft hright =>
    refine hleft.bindValue fun _ =>
      hright.bindValue fun _ => ?_
    cases binaryOperation? op with
    | none => exact grows_throw _
    | some operation => exact grows_freshTemp.bind fun _ => grows_pure _
  | call name args hargs =>
    exact (grows_lowerArgs hargs name 1).bind fun _ => (grows_expandCall _ _).bind fun _ =>
      grows_pure _
  | comment text => exact grows_pure _
  | nop => exact grows_pure _

end Lowering

theorem Lowers.names_le {e : Expr} {n : Names} {f : Fragment} {n' : Names}
    (h : Lowers e n f n') : n.Le n' := by
  have hle := grows_lower e n
  rw [run_of_lowers h] at hle
  exact hle

end Mlog
