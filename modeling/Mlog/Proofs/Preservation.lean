import Mlog.Proofs.Holding

/-! # Generated code preserves meaning

    Running the code of a tree does what evaluating the tree does.  The two
    states agree but for the temporary variables (`Agree`), the value is found
    where the fragment says, and a tree that loops forever has code that runs
    forever.

    A run is followed along an evaluation (`Follows`): if the evaluation comes
    to an answer, the code is run to its end, and if it runs out of rounds, as
    many steps can be taken as there were rounds.  So a tree that runs out of
    any number of rounds has code that takes any number of steps. -/

namespace Mlog

variable {V D : Type}

/-! ## Section 1: Following an evaluation -/

/-- The code follows the evaluation with the given outcome.  If there is an
    answer, the code is run up to `rest` and the state of the machine is then
    as `Q` says.  If there is none, at least `bound` steps can be taken. -/
def Follows {α : Type} (m : Machine V D) (program : List Instruction) (bound : Nat)
    (code : List Instruction) (τ : State V D) (outcome : Option (α × State V D))
    (rest : List Instruction) (Q : α → State V D → State V D → Prop) : Prop :=
  match outcome with
  | some (a, σ') => ∃ n τ', m.run program n ⟨code, τ⟩ = some ⟨rest, τ'⟩ ∧ Q a σ' τ'
  | none => ∃ n, bound ≤ n ∧ (m.run program n ⟨code, τ⟩).isSome

namespace Follows

variable {α β : Type} {m : Machine V D} {program code code' mid rest : List Instruction}
  {bound bound' : Nat} {σ τ τ' : State V D} {outcome : Option (α × State V D)}
  {Q R : α → State V D → State V D → Prop}

theorem here {a : α} (h : Q a σ τ) : Follows m program bound rest τ (some (a, σ)) rest Q :=
  ⟨0, τ, rfl, h⟩

theorem imp (h : Follows m program bound code τ outcome rest Q)
    (himp : ∀ a σ' τ', outcome = some (a, σ') → Q a σ' τ' → R a σ' τ') :
    Follows m program bound code τ outcome rest R := by
  match outcome, h with
  | some (a, σ'), ⟨n, τ', hrun, hQ⟩ => exact ⟨n, τ', hrun, himp a σ' τ' rfl hQ⟩
  | none, h => exact h

theorem weaken (h : Follows m program bound code τ outcome rest Q) (hle : bound' ≤ bound) :
    Follows m program bound' code τ outcome rest Q := by
  match outcome, h with
  | some (a, σ'), h => exact h
  | none, ⟨n, hn, hrun⟩ => exact ⟨n, Nat.le_trans hle hn, hrun⟩

/-- One step of the machine before the rest of the run. -/
theorem step_succ (hstep : m.step program ⟨code, τ⟩ = some ⟨code', τ'⟩)
    (h : Follows m program bound code' τ' outcome rest Q) :
    Follows m program (bound + 1) code τ outcome rest Q := by
  have hrun : ∀ n, m.run program (n + 1) ⟨code, τ⟩ = m.run program n ⟨code', τ'⟩ := by
    intro n
    rw [Machine.run, hstep]
    rfl
  cases outcome with
  | some result =>
    obtain ⟨n, τ'', hrun', hQ⟩ := h
    exact ⟨n + 1, τ'', by rw [hrun, hrun'], hQ⟩
  | none =>
    obtain ⟨n, hn, hrun'⟩ := h
    exact ⟨n + 1, Nat.succ_le_succ hn, by rw [hrun, hrun']⟩

theorem step (hstep : m.step program ⟨code, τ⟩ = some ⟨code', τ'⟩)
    (h : Follows m program bound code' τ' outcome rest Q) :
    Follows m program bound code τ outcome rest Q :=
  (step_succ hstep h).weaken (Nat.le_succ bound)

/-- Code that follows an evaluation, and then more code. -/
theorem andThen (h : Follows m program bound code τ outcome mid Q)
    (hthen : ∀ a σ' τ', Q a σ' τ' → Follows m program bound mid τ' (some (a, σ')) rest R) :
    Follows m program bound code τ outcome rest R := by
  match outcome, h with
  | none, h => exact h
  | some (a, σ'), ⟨k, τ', hk, hQ⟩ =>
    obtain ⟨n, τ'', hn, hR⟩ := hthen a σ' τ' hQ
    refine ⟨k + n, τ'', ?_, hR⟩
    rw [Machine.run_add, hk]
    exact hn

/-- The code of one evaluation after that of another. -/
theorem bind {x : Eval V D α} {f : α → Eval V D β} {P : β → State V D → State V D → Prop}
    (hx : Follows m program bound code τ (x σ) mid Q)
    (hf : ∀ a σ' τ', x σ = some (a, σ') → Q a σ' τ' →
      Follows m program bound mid τ' (f a σ') rest P) :
    Follows m program bound code τ ((x >>= f) σ) rest P := by
  have hbind : (x >>= f) σ = (x σ).bind fun p => f p.1 p.2 := rfl
  rw [hbind]
  match hrun : x σ, hx with
  -- the first evaluation has used up the rounds, and so has its code
  | none, hx => exact hx
  | some (a, σ'), ⟨k, τ', hk, hQ⟩ =>
    -- from here on the steps of the second code are counted on top of those of the first
    have hadd : ∀ n, m.run program (k + n) ⟨code, τ⟩ = m.run program n ⟨mid, τ'⟩ := by
      intro n
      rw [Machine.run_add, hk]
      rfl
    have hrest := hf a σ' τ' hrun hQ
    match houtcome : f a σ', hrest with
    | some (b, σ''), ⟨n, τ'', hn, hP⟩ =>
      rw [Option.bind_some, houtcome]
      exact ⟨k + n, τ'', by rw [hadd, hn], hP⟩
    | none, ⟨n, hle, hn⟩ =>
      rw [Option.bind_some, houtcome]
      exact ⟨k + n, Nat.le_add_left_of_le hle, by rw [hadd, hn]⟩

theorem discard {x : Eval V D α} (hx : Follows m program bound code τ (x σ) rest Q) :
    Follows m program bound code τ (Functor.discard x σ) rest fun _ σ' τ' => ∃ a, Q a σ' τ' :=
  hx.bind (f := fun _ => pure PUnit.unit) fun a _ _ _ hQ => .here ⟨a, hQ⟩

end Follows

/-! ## Section 2: States that agree -/

/-- The states are the same but for temporary variables below the bound. -/
structure Agree (bound : Nat) (σ τ : State V D) : Prop where
  device : σ.device = τ.device
  store : ∀ x, Foreign bound x → σ.store x = τ.store x

namespace Agree

variable {bound : Nat} {σ τ : State V D}

theorem lookup (h : Agree bound σ τ) (m : Machine V D) {x : String} (hx : Foreign bound x) :
    m.lookup σ x = m.lookup τ x := by
  unfold Machine.lookup
  rw [h.store x hx]

/-- The same value is stored in both. -/
theorem set (h : Agree bound σ τ) (x : String) (v : V) : Agree bound (σ.set x v) (τ.set x v) := by
  refine ⟨by simpa using h.device, ?_⟩
  intro y hy
  rw [State.set_store, State.set_store, h.store y hy]

/-- A temporary variable is set in the second one only. -/
theorem set_temp (h : Agree bound σ τ) {k : Nat} (hk : k < bound) (v : V) :
    Agree bound σ (τ.set (tempName k) v) := by
  refine ⟨by simpa using h.device, ?_⟩
  intro y hy
  rw [State.set_store_of_ne τ (hy k hk) v, h.store y hy]

theorem withDevice (h : Agree bound σ τ) (d : D) :
    Agree bound (σ.withDevice d) (τ.withDevice d) := ⟨rfl, h.store⟩

end Agree

namespace Machine

variable (m : Machine V D) {s t : State V D}

theorem lookup_of_isConstant {x : String} (hx : isConstant x = true) :
    m.lookup s x = m.constant x := if_pos hx

theorem lookup_congr {x : String} (h : t.store x = s.store x) : m.lookup t x = m.lookup s x := by
  unfold lookup
  rw [h]

theorem lookup_set_temp (k : Nat) (v : V) : m.lookup (s.set (tempName k) v) (tempName k) = v := by
  have hvariable := isVariable_tempName k
  have hconstant : isConstant (tempName k) = false := by
    simp only [isVariable, Bool.and_eq_true, Bool.not_eq_true'] at hvariable
    exact hvariable.1
  unfold lookup
  rw [if_neg (by simp [hconstant]), State.set_store, if_pos ⟨hvariable, rfl⟩]

/-- Storing a value elsewhere does not move it, and storing it where it is
    does not change it. -/
theorem lookup_set_self (dest x : String) :
    m.lookup (s.set dest (m.lookup s x)) x = m.lookup s x := by
  unfold lookup
  by_cases hconstant : isConstant x = true
  · rw [if_pos hconstant, if_pos hconstant]
  · rw [if_neg hconstant, if_neg hconstant, State.set_store]
    by_cases hdest : isVariable dest = true ∧ x = dest
    · rw [if_pos hdest]
    · rw [if_neg hdest]

end Machine

/-- The temporary variables below the bound have the same values. -/
def SameTemps (bound : Nat) (τ τ' : State V D) : Prop :=
  ∀ k < bound, τ'.store (tempName k) = τ.store (tempName k)

namespace SameTemps

variable {bound bound' : Nat} {τ τ' τ'' : State V D}

theorem refl (bound : Nat) (τ : State V D) : SameTemps bound τ τ := fun _ _ => rfl

theorem trans (h : SameTemps bound τ τ') (h' : SameTemps bound τ' τ'') : SameTemps bound τ τ'' :=
  fun k hk => (h' k hk).trans (h k hk)

theorem mono (h : SameTemps bound τ τ') (hle : bound' ≤ bound) : SameTemps bound' τ τ' :=
  fun k hk => h k (Nat.lt_of_lt_of_le hk hle)

theorem set_foreign (h : SameTemps bound τ τ') {x : String} (hx : Foreign bound x) (v : V) :
    SameTemps bound τ (τ'.set x v) := by
  intro k hk
  rw [State.set_store_of_ne τ' (hx k hk).symm v, h k hk]

theorem set_temp (h : SameTemps bound τ τ') {k : Nat} (hk : bound ≤ k) (v : V) :
    SameTemps bound τ (τ'.set (tempName k) v) := by
  refine h.set_foreign ?_ v
  intro j hj heq
  have hjk : k = j := tempName_inj.mp heq
  omega

end SameTemps

/-- A value that is held stays where it is: if it is in its place, that is not
    assigned, and if it is in a temporary variable, that is not set. -/
theorem HeldIn.lookup_eq {m : Machine V D} {e : Expr} {a b bound : Nat} {operand : String}
    {assigned : List String} {σ σ' τ τ' : State V D} (hheld : HeldIn e.place a b operand)
    (havoids : e.Avoids bound) (houtlives : e.outlives assigned = true)
    (hspared : ∀ x, x ∉ assigned → σ'.store x = σ.store x) (hagree : Agree bound σ τ)
    (hagree' : Agree bound σ' τ') (hsame : SameTemps b τ τ') :
    m.lookup τ' operand = m.lookup τ operand := by
  refine m.lookup_congr ?_
  cases hplace : e.place with
  | none =>
    rw [hplace] at hheld
    obtain ⟨k, _, hk, rfl⟩ := hheld
    exact hsame k hk
  | some x =>
    rw [hplace] at hheld
    obtain rfl : operand = x := hheld
    have hx : Foreign bound operand := havoids.place hplace
    have hnot : operand ∉ assigned := by
      simpa [Expr.outlives, hplace] using houtlives
    rw [← hagree.store operand hx, ← hagree'.store operand hx, hspared operand hnot]

/-! ## Section 3: Straight code -/

/-- Operations of this kind leave the device alone. -/
def Machine.QuietOn (m : Machine V D) (quiet : String → Bool) : Prop :=
  ∀ operation, quiet operation = true → ∀ operands d, (m.operate operation operands d).2 = d

/-- What holds after the code `f` of a tree was run from `τ`, when evaluating
    the tree came to `v` and `σ'`.  If the value is used, the operand holds it. -/
structure Reached (m : Machine V D) (bound : Nat) (used : Bool) (n : Names) (f : Fragment)
    (τ : State V D) (v : V) (σ' τ' : State V D) : Prop where
  agree : Agree bound σ' τ'
  temps : SameTemps n.temps τ τ'
  value : used = true → m.lookup τ' f.valueOrNull = v

/-- Wherever the code of the tree stands in the program, it follows the
    evaluation of the tree. -/
def Simulated (m : Machine V D) (quiet : String → Bool) (program : List Instruction)
    (bound rounds : Nat) (e : Expr) : Prop :=
  ∀ {used n f n' rest σ τ}, Lowers e n f n' → n'.temps ≤ bound → e.stable quiet used = true →
    e.Avoids bound → f.code ++ rest <:+ program → Agree bound σ τ →
    Follows m program rounds (f.code ++ rest) τ (m.eval rounds e σ) rest
      (Reached m bound used n f τ)

section

variable {m : Machine V D} {quiet : String → Bool} {program : List Instruction}
  {bound rounds : Nat}

attribute [local simp] Expr.children Expr.parts Expr.ownOperands Expr.ownIdentifiers Expr.stable

/-- The last step stores in a temporary variable what is the value, if that is
    used. -/
theorem reached_temp {used : Bool} {n : Names} {k : Nat} {code : List Instruction}
    {σ' τ τ' : State V D} {v w : V} (hagree : Agree bound σ' τ') (hsame : SameTemps n.temps τ τ')
    (hle : n.temps ≤ k) (hk : k < bound) (hvalue : used = true → w = v) :
    Reached m bound used n ⟨some (tempName k), code⟩ τ v σ' (τ'.set (tempName k) w) :=
  ⟨hagree.set_temp hk w, hsame.set_temp hle w,
    fun hused => (m.lookup_set_temp k w).trans (hvalue hused)⟩

/-- A tree whose value needs no code. -/
theorem simulated_constant {e : Expr} {x : String}
    (hlowers : ∀ {n f n'}, Lowers e n f n' → f = .constant x)
    (heval : ∀ σ : State V D, m.eval rounds e σ = some (m.lookup σ x, σ))
    (hx : e.Avoids bound → Foreign bound x) :
    Simulated m quiet program bound rounds e := by
  intro used n f n' rest σ τ h _ _ havoids _ hagree
  obtain rfl := hlowers h
  rw [heval]
  exact .here ⟨hagree, .refl _ _, fun _ => (hagree.lookup m (hx havoids)).symm⟩

/-- A tree whose value is that of an operand, copied to a temporary variable. -/
theorem simulated_copied {e : Expr} {x : String}
    (hlowers : ∀ {n f n'}, Lowers e n f n' →
      f = ⟨some (tempName n.temps), [.set (tempName n.temps) x]⟩ ∧ n'.temps = n.temps + 1)
    (heval : ∀ σ : State V D, m.eval rounds e σ = some (m.lookup σ x, σ))
    (hx : e.Avoids bound → Foreign bound x) :
    Simulated m quiet program bound rounds e := by
  intro used n f n' rest σ τ h hbound _ havoids _ hagree
  obtain ⟨rfl, htemps⟩ := hlowers h
  rw [heval]
  refine .step (m.step_set ..) (.here ?_)
  rw [← hagree.lookup m (hx havoids)]
  exact reached_temp hagree (.refl _ _) (Nat.le_refl _) (by omega) fun _ => rfl

/-- A tree that has no value and does nothing. -/
theorem simulated_empty {e : Expr} (hlowers : ∀ {n f n'}, Lowers e n f n' → f = .empty)
    (heval : ∀ σ : State V D, m.eval rounds e σ = some (m.null, σ)) :
    Simulated m quiet program bound rounds e := by
  intro used n f n' rest σ τ h _ _ _ _ hagree
  obtain rfl := hlowers h
  rw [heval]
  exact .here ⟨hagree, .refl _ _, fun _ => m.lookup_of_isConstant isConstant_null⟩

theorem simulated_sensor (target name : String) :
    Simulated m quiet program bound rounds (.sensor target name) := by
  intro used n f n' rest σ τ h hbound _ havoids _ hagree
  cases h
  have htarget := hagree.lookup m (havoids.own (x := target) (by simp))
  have hname := hagree.lookup m (havoids.own (x := name) (by simp))
  refine .step (m.step_sensor ..) (.here ?_)
  rw [← htarget, ← hname, ← hagree.device]
  exact reached_temp hagree (.refl _ _) (Nat.le_refl _) hbound fun _ => rfl

theorem simulated_seq {rest last : Expr} (hrest : Simulated m quiet program bound rounds rest)
    (hlast : Simulated m quiet program bound rounds last) :
    Simulated m quiet program bound rounds (.seq rest last) := by
  intro used n f n' after σ τ h hbound hstable havoids hsuffix hagree
  cases h with
  | @seq _ _ g k _ n₁ _ hg hk =>
    simp only [Expr.stable, Bool.and_eq_true] at hstable
    rw [List.append_assoc] at hsuffix ⊢
    have hle := hk.names_le.temps
    have hfirst := hrest hg (by omega) hstable.1 (havoids.child (by simp)) hsuffix hagree
    refine .bind hfirst.discard ?_
    rintro _ σ₁ τ₁ _ ⟨v, hreached⟩
    have hsecond := hlast hk hbound hstable.2 (havoids.child (by simp))
      ((List.suffix_append _ _).trans hsuffix) hreached.agree
    refine hsecond.imp fun w σ₂ τ₂ _ hreached₂ => ⟨hreached₂.agree, ?_, hreached₂.value⟩
    exact hreached.temps.trans (hreached₂.temps.mono hg.names_le.temps)

theorem simulated_assign (name : String) {value : Expr}
    (hvalue : Simulated m quiet program bound rounds value) :
    Simulated m quiet program bound rounds (.assign name value) := by
  intro used n f n' rest σ τ h hbound hstable havoids hsuffix hagree
  cases h with
  | @assign _ _ a _ _ hv =>
    rw [List.append_assoc] at hsuffix ⊢
    have hstable' : value.stable quiet true = true := hstable
    have hname : Foreign bound name := havoids.own (by simp)
    refine .bind (hvalue hv hbound hstable' (havoids.child (by simp)) hsuffix hagree) ?_
    intro v σ₁ τ₁ _ hreached
    refine .step (m.step_set ..) (.here ?_)
    have hlookup : m.lookup τ₁ a.value = v := hreached.value rfl
    refine ⟨?_, ?_, fun _ => ?_⟩
    · rw [hlookup]
      exact hreached.agree.set name v
    · have hle : n.temps ≤ bound := Nat.le_trans hv.names_le.temps hbound
      exact hreached.temps.set_foreign (fun k hk => hname k (Nat.lt_of_lt_of_le hk hle)) _
    · rw [← hlookup]
      exact m.lookup_set_self name _

theorem simulated_assignBuiltin (name : String) {value : Expr}
    (hvalue : Simulated m quiet program bound rounds value) :
    Simulated m quiet program bound rounds (.assignBuiltin name value) := by
  intro used n f n' rest σ τ h hbound hstable havoids hsuffix hagree
  cases h with
  | assignBuiltin hv =>
    have hstable' : value.stable quiet false = true := hstable
    have hname : Foreign bound ("@" ++ name) :=
      foreign_of_isVariable_eq_false (isVariable_builtin name)
    have hfirst := hvalue hv hbound hstable' (havoids.child (by simp)) hsuffix hagree
    refine .bind hfirst.discard ?_
    rintro _ σ₁ τ₁ _ ⟨v, hreached⟩
    exact .here ⟨hreached.agree, hreached.temps, fun _ => (hreached.agree.lookup m hname).symm⟩

theorem simulated_load (cell : String) {address : Expr}
    (haddress : Simulated m quiet program bound rounds address) :
    Simulated m quiet program bound rounds (.load cell address) := by
  intro used n f n' rest σ τ h hbound hstable havoids hsuffix hagree
  cases h with
  | @load _ _ a _ n₁ ha =>
    rw [List.append_assoc] at hsuffix ⊢
    have hstable' : address.stable quiet used = true := hstable
    have hlt : n₁.temps < bound := hbound
    refine .bind (haddress ha (Nat.le_of_lt hlt) hstable' (havoids.child (by simp)) hsuffix
      hagree) ?_
    intro v σ₁ τ₁ _ hreached
    have hcell := hreached.agree.lookup m (havoids.own (x := cell) (by simp))
    refine .step (m.step_read ..) (.here ?_)
    rw [← hcell, ← hreached.agree.device]
    refine reached_temp hreached.agree hreached.temps ha.names_le.temps hlt fun hused => ?_
    have hlookup : m.lookup τ₁ a.value = v := hreached.value hused
    rw [hlookup]

theorem simulated_control (property target : String) {value : Expr}
    (hvalue : Simulated m quiet program bound rounds value) :
    Simulated m quiet program bound rounds (.control property target value) := by
  intro used n f n' rest σ τ h hbound hstable havoids hsuffix hagree
  cases h with
  | @control _ _ _ a _ _ hv =>
    rw [List.append_assoc] at hsuffix ⊢
    have hstable' : value.stable quiet true = true := hstable
    refine .bind (hvalue hv hbound hstable' (havoids.child (by simp)) hsuffix hagree) ?_
    intro v σ₁ τ₁ _ hreached
    have htarget := hreached.agree.lookup m (havoids.own (x := target) (by simp))
    have hlookup : m.lookup τ₁ a.value = v := hreached.value rfl
    refine .step (m.step_control ..) (.here ?_)
    rw [hlookup, ← htarget, ← hreached.agree.device]
    exact ⟨hreached.agree.withDevice _, hreached.temps, fun _ => hlookup⟩

/-- An operation changes the device in the same way if its operands are the
    same, or if it does not change the device at all. -/
theorem Machine.QuietOn.device_eq (hquiet : m.QuietOn quiet) {operation : String} {used : Bool}
    {vs ws : List V} (h : (used || !quiet operation) = true → vs = ws) (d : D) :
    (m.operate operation vs d).2 = (m.operate operation ws d).2 := by
  by_cases hoperation : quiet operation = true
  · rw [hquiet operation hoperation, hquiet operation hoperation]
  · rw [h (by simp [hoperation])]

theorem simulated_unary (hquiet : m.QuietOn quiet) (op : String) {operand : Expr}
    (hoperand : Simulated m quiet program bound rounds operand) :
    Simulated m quiet program bound rounds (.unary op operand) := by
  intro used n f n' rest σ τ h hbound hstable havoids hsuffix hagree
  cases h with
  | @unary _ _ operation a _ n₁ ha hop =>
    rw [Expr.stable, hop, Option.getD_some] at hstable
    rw [List.append_assoc] at hsuffix ⊢
    have hlt : n₁.temps < bound := hbound
    refine .bind (hoperand ha (Nat.le_of_lt hlt) hstable (havoids.child (by simp)) hsuffix
      hagree) ?_
    intro v σ₁ τ₁ _ hreached
    have hoperands : (used || !quiet operation) = true → [m.lookup τ₁ a.value] = [v] :=
      fun hneeded => congrArg (fun w => [w]) (hreached.value hneeded)
    rw [hop, Option.getD_some]
    refine .step (m.step_op ..) (.here ?_)
    simp only [List.map_cons, List.map_nil, ← hreached.agree.device,
      hquiet.device_eq hoperands]
    refine reached_temp (hreached.agree.withDevice _) hreached.temps ha.names_le.temps hlt ?_
    intro hused
    rw [hoperands (by simp [hused])]

theorem simulated_binary (hquiet : m.QuietOn quiet) (op : String) {left right : Expr}
    (hleft : Simulated m quiet program bound rounds left)
    (hright : Simulated m quiet program bound rounds right) :
    Simulated m quiet program bound rounds (.binary op left right) := by
  intro used n f n' rest σ τ h hbound hstable havoids hsuffix hagree
  cases h with
  | @binary _ _ _ operation a b _ n₁ n₂ ha hb hop =>
    simp only [Expr.stable, hop, Option.getD_some, Bool.and_eq_true] at hstable
    obtain ⟨⟨hleftStable, hrightStable⟩, houtlives⟩ := hstable
    rw [List.append_assoc, List.append_assoc] at hsuffix ⊢
    have hle : n₁.temps ≤ n₂.temps := hb.names_le.temps
    have hlt : n₂.temps < bound := hbound
    have hleftAvoids : left.Avoids bound := havoids.child (by simp)
    refine .bind (hleft ha (by omega) hleftStable hleftAvoids hsuffix hagree) ?_
    intro v σ₁ τ₁ _ hreached
    refine .bind (hright hb (Nat.le_of_lt hlt) hrightStable (havoids.child (by simp))
      ((List.suffix_append _ _).trans hsuffix) hreached.agree) ?_
    intro w σ₂ τ₂ heval hreached₂
    have hoperands : (used || !quiet operation) = true →
        [m.lookup τ₂ a.value, m.lookup τ₂ b.value] = [v, w] := by
      intro hneeded
      rw [hneeded, Bool.not_true, Bool.false_or] at houtlives
      -- the left operand is still where it was
      have hstays := (ha.heldIn rfl).lookup_eq (m := m) hleftAvoids houtlives
        (m.spares_eval rounds right σ₁ w σ₂ heval) hreached.agree hreached₂.agree hreached₂.temps
      have hv : m.lookup τ₂ a.value = v := hstays.trans (hreached.value hneeded)
      have hw : m.lookup τ₂ b.value = w := hreached₂.value hneeded
      rw [hv, hw]
    rw [hop, Option.getD_some]
    refine .step (m.step_op ..) (.here ?_)
    simp only [List.map_cons, List.map_nil, ← hreached₂.agree.device,
      hquiet.device_eq hoperands]
    have hsame := hreached.temps.trans (hreached₂.temps.mono ha.names_le.temps)
    refine reached_temp (hreached₂.agree.withDevice _) hsame
      (ha.names_le.trans hb.names_le).temps hlt fun hused => ?_
    rw [hoperands (by simp [hused])]

theorem simulated_store (cell : String) {address value : Expr}
    (haddress : Simulated m quiet program bound rounds address)
    (hvalue : Simulated m quiet program bound rounds value) :
    Simulated m quiet program bound rounds (.store cell address value) := by
  intro used n f n' rest σ τ h hbound hstable havoids hsuffix hagree
  cases h with
  | @store _ _ _ a b _ n₁ n₂ ha hb =>
    simp only [Expr.stable, Bool.and_eq_true] at hstable
    obtain ⟨⟨haddressStable, hvalueStable⟩, houtlives⟩ := hstable
    rw [List.append_assoc, List.append_assoc] at hsuffix ⊢
    have hle : n₁.temps ≤ n'.temps := hb.names_le.temps
    have haddressAvoids : address.Avoids bound := havoids.child (by simp)
    refine .bind (haddress ha (by omega) haddressStable haddressAvoids hsuffix hagree) ?_
    intro v σ₁ τ₁ _ hreached
    refine .bind (hvalue hb hbound hvalueStable (havoids.child (by simp))
      ((List.suffix_append _ _).trans hsuffix) hreached.agree) ?_
    intro w σ₂ τ₂ heval hreached₂
    -- the address is still where it was
    have hstays := (ha.heldIn rfl).lookup_eq (m := m) haddressAvoids houtlives
      (m.spares_eval rounds value σ₁ w σ₂ heval) hreached.agree hreached₂.agree hreached₂.temps
    have hv : m.lookup τ₂ a.value = v := hstays.trans (hreached.value rfl)
    have hw : m.lookup τ₂ b.value = w := hreached₂.value rfl
    have hcell := hreached₂.agree.lookup m (havoids.own (x := cell) (by simp))
    refine .step (m.step_write ..) (.here ?_)
    rw [hv, hw, ← hcell, ← hreached₂.agree.device]
    have hsame := hreached.temps.trans (hreached₂.temps.mono ha.names_le.temps)
    exact ⟨hreached₂.agree.withDevice _, hsame, fun _ => hw⟩

/-! ## Section 4: Calls -/

/-- The lists are the same at the positions that are read. -/
def AgreeAt (reads : Nat → Bool) : List V → List V → Prop
  | [], [] => True
  | v :: vs, w :: ws => (reads 0 = true → v = w) ∧ AgreeAt (fun i => reads (i + 1)) vs ws
  | _, _ => False

namespace AgreeAt

variable {reads : Nat → Bool} {vs ws : List V}

theorem take (h : AgreeAt reads vs ws) {k : Nat} (hk : ∀ i < k, reads i = true) :
    vs.take k = ws.take k := by
  induction k generalizing reads vs ws with
  | zero => rfl
  | succ k ih =>
    match vs, ws, h with
    | [], [], _ => rfl
    | v :: vs, w :: ws, ⟨hfirst, hothers⟩ =>
      rw [List.take_succ_cons, List.take_succ_cons, hfirst (hk 0 (by omega)),
        ih hothers fun i hi => hk (i + 1) (by omega)]

theorem eq (h : AgreeAt reads vs ws) (hall : ∀ i, reads i = true) : vs = ws := by
  have htake := h.take (k := vs.length + ws.length) fun i _ => hall i
  rwa [List.take_of_length_le (by omega), List.take_of_length_le (by omega)] at htake

theorem headD (h : AgreeAt reads vs ws) (hfirst : reads 0 = true) (v : V) :
    vs.headD v = ws.headD v := by
  match vs, ws, h with
  | [], [], _ => rfl
  | v :: vs, w :: ws, h => exact h.1 hfirst

theorem operands {o : Order} {used : Bool}
    (h : AgreeAt ((Intrinsic.order o).reads quiet used) vs ws) :
    o.operands vs = o.operands ws := by
  cases o with
  | boost =>
    match vs, ws, h with
    | [], [], _ => rfl
    | v :: vs, w :: ws, h =>
      exact h.2.take (k := 1) (by simp [Intrinsic.reads])
  | _ => exact h.take (by simp [Intrinsic.reads])

end AgreeAt

/-- A call does the same with arguments that are the same where it reads them,
    and comes to the same value if that is used. -/
theorem invoke_congr (hquiet : m.QuietOn quiet) {fn : Intrinsic} {used : Bool} {vs ws : List V}
    (h : AgreeAt (fn.reads quiet used) vs ws) (σ : State V D) :
    ∃ v w σ', m.invoke fn vs σ = some (v, σ') ∧ m.invoke fn ws σ = some (w, σ') ∧
      (used = true → v = w) := by
  cases fn with
  | print | printflush =>
    obtain rfl := h.eq fun _ => rfl
    exact ⟨_, _, _, rfl, rfl, fun _ => rfl⟩
  -- a `rand` that is quiet and not used may have other arguments
  | rand =>
    have htake : (used || !quiet "rand") = true → vs.take 1 = ws.take 1 :=
      fun hneeded => h.take fun i hi => by simp [Intrinsic.reads, hneeded, hi]
    have hdevice := hquiet.device_eq htake σ.device
    refine ⟨(m.operate "rand" (vs.take 1) σ.device).1, (m.operate "rand" (ws.take 1) σ.device).1,
      σ.withDevice (m.operate "rand" (ws.take 1) σ.device).2, ?_, rfl, fun hused => ?_⟩
    · rw [← hdevice]
      rfl
    · rw [htake (by simp [hused])]
  | getlink =>
    refine ⟨_, _, _, rfl, rfl, fun hused => ?_⟩
    rw [h.headD (by simp [Intrinsic.reads, hused])]
  | ubind =>
    have hfirst := h.headD rfl m.null
    refine ⟨m.null, m.null, σ.withDevice (m.ubind σ.device (vs.headD m.null)), rfl, ?_,
      fun _ => rfl⟩
    rw [hfirst]
    rfl
  | within =>
    refine ⟨_, _, _, rfl, rfl, fun hused => ?_⟩
    rw [h.take (k := 3) fun i hi => by simp [Intrinsic.reads, hused, hi]]
  -- an order is sent whether its value is used or not
  | order o =>
    have hoperands := h.operands
    refine ⟨o.value m.null vs, o.value m.null ws,
      σ.withDevice (m.order o.command σ.device (o.operands vs)), rfl, ?_, fun _ => ?_⟩
    · rw [hoperands]
      rfl
    · cases o <;> simp only [Order.value, hoperands]

/-- The code of arguments leaves the values of those that are read where it
    says. -/
theorem follows_evalArgs {args : List Expr}
    (hargs : ∀ arg ∈ args, Simulated m quiet program bound rounds arg)
    {reads : Nat → Bool} {n n' : Names} {vs : List Valued} {rest : List Instruction}
    {σ τ : State V D} (h : EachArg (fun e n v n' => Lowers e n v.toFragment n') args n vs n')
    (hbound : n'.temps ≤ bound) (hstable : Expr.stableArgs quiet reads args = true)
    (havoids : ∀ arg ∈ args, arg.Avoids bound)
    (hsuffix : vs.flatMap Valued.code ++ rest <:+ program) (hagree : Agree bound σ τ) :
    Follows m program rounds (vs.flatMap Valued.code ++ rest) τ (m.evalArgs rounds args σ) rest
      fun ws σ' τ' => Agree bound σ' τ' ∧ SameTemps n.temps τ τ' ∧
        AgreeAt reads ((vs.map Valued.value).map (m.lookup τ')) ws := by
  induction h generalizing reads σ τ with
  | nil n => exact .here ⟨hagree, .refl _ _, trivial⟩
  | @cons arg args a vs n₀ n₁ n₂ ha has ih =>
    obtain ⟨harg, hargs⟩ := List.forall_mem_cons.mp hargs
    obtain ⟨hargAvoids, havoids⟩ := List.forall_mem_cons.mp havoids
    simp only [Expr.stableArgs, Bool.and_eq_true] at hstable
    obtain ⟨⟨hargStable, houtlives⟩, hargsStable⟩ := hstable
    rw [List.flatMap_cons, List.append_assoc] at hsuffix ⊢
    have hle : n₁.temps ≤ n₂.temps := (EachArg.names_le has).temps
    rw [Machine.evalArgs]
    refine .bind (harg ha (by omega) hargStable hargAvoids hsuffix hagree) ?_
    intro v σ₁ τ₁ _ hreached
    refine .bind (ih hargs hbound hargsStable havoids
      ((List.suffix_append _ _).trans hsuffix) hreached.agree) ?_
    rintro ws σ₂ τ₂ heval ⟨hagree₂, hsame₂, hws⟩
    refine .here ⟨hagree₂, hreached.temps.trans (hsame₂.mono ha.names_le.temps), ?_, hws⟩
    intro hread
    rw [hread, Bool.not_true, Bool.false_or] at houtlives
    -- the first argument is still where it was
    have hspares : Eval.Spares (m.evalArgs rounds args) (args.flatMap Expr.assigned) :=
      m.spares_evalArgs fun arg harg =>
        (m.spares_eval rounds arg).mono fun x hx => List.mem_flatMap_of_mem harg hx
    have hstays := (ha.heldIn rfl).lookup_eq (m := m) hargAvoids houtlives
      (hspares σ₁ ws σ₂ heval) hreached.agree hagree₂ hsame₂
    exact hstays.trans (hreached.value hread)

/-- One instruction for each operand, each changing the device only. -/
theorem follows_each {α : Type} {make : String → Instruction} {act : D → V → D}
    (hstep : ∀ rest (s : State V D) x, m.step program ⟨make x :: rest, s⟩ =
      some ⟨rest, s.withDevice (act s.device (m.lookup s x))⟩)
    {operands : List String} {rest : List Instruction} {τ : State V D}
    {outcome : Option (α × State V D)} {Q : α → State V D → State V D → Prop}
    (h : Follows m program rounds rest
      (τ.withDevice ((operands.map (m.lookup τ)).foldl act τ.device)) outcome rest Q) :
    Follows m program rounds (operands.map make ++ rest) τ outcome rest Q := by
  induction operands generalizing τ with
  | nil => exact h
  | cons x xs ih =>
    exact .step (hstep _ τ x) (ih h)

/-- The operand that holds the result of a call holds the result. -/
theorem lookup_result (fn : Intrinsic) (temp : String) (operands : List String) (s : State V D) :
    m.lookup s (fn.result "null" temp operands) =
      fn.result m.null (m.lookup s temp) (operands.map (m.lookup s)) :=
  (fn.result_map (m.lookup s) "null" temp operands).symm

/-- The code of a call itself, its arguments being held in the operands. -/
theorem follows_invoke (fn : Intrinsic) {operands : List String} {k : Nat}
    {rest : List Instruction} {σ τ : State V D} (harity : fn.arity ≤ operands.length)
    (hagree : Agree bound σ τ) (hk : k + fn.temps ≤ bound) :
    Follows m program rounds ((fn.code (tempName k) operands).code ++ rest) τ
      (m.invoke fn (operands.map (m.lookup τ)) σ) rest
      fun v σ' τ' => Agree bound σ' τ' ∧ SameTemps k τ τ' ∧
        m.lookup τ' (fn.result "null" (tempName k) operands) = v := by
  cases fn with
  | print =>
    refine follows_each (m.step_print program) (.here ?_)
    rw [hagree.device]
    exact ⟨hagree.withDevice _, .refl _ _, lookup_result .print (tempName k) operands τ⟩
  | printflush =>
    refine follows_each (m.step_printflush program) (.here ?_)
    rw [hagree.device]
    exact ⟨hagree.withDevice _, .refl _ _, lookup_result .printflush (tempName k) operands τ⟩
  -- the value is in the variable that is taken for it
  | rand =>
    refine .step (m.step_op ..) (.here ?_)
    rw [List.map_take, hagree.device]
    exact ⟨(hagree.withDevice _).set_temp hk _, SameTemps.set_temp (.refl _ _) (Nat.le_refl k) _,
      m.lookup_set_temp k _⟩
  | getlink =>
    obtain ⟨x, xs, rfl⟩ := List.exists_cons_of_length_pos harity
    refine .step (m.step_getlink ..) (.here ?_)
    rw [← hagree.device]
    exact ⟨hagree.set_temp hk _, SameTemps.set_temp (.refl _ _) (Nat.le_refl k) _,
      m.lookup_set_temp k _⟩
  | ubind =>
    obtain ⟨x, xs, rfl⟩ := List.exists_cons_of_length_pos harity
    refine .step (m.step_ubind ..) (.here ?_)
    rw [hagree.device]
    exact ⟨hagree.withDevice _, .refl _ _, rfl⟩
  -- the arity makes the three operands explicit that the instruction has
  | within =>
    match operands, harity with
    | x :: y :: radius :: xs, _ =>
      refine .step (m.step_within ..) (.here ?_)
      rw [← hagree.device]
      exact ⟨hagree.set_temp hk _, SameTemps.set_temp (.refl _ _) (Nat.le_refl k) _,
        m.lookup_set_temp k _⟩
  | order o =>
    refine .step (m.step_order ..) (.here ?_)
    rw [← Order.operands_map, hagree.device]
    exact ⟨hagree.withDevice _, .refl _ _, lookup_result (.order o) (tempName k) operands τ⟩

theorem simulated_call (hquiet : m.QuietOn quiet) (name : String) {args : List Expr}
    (hargs : ∀ arg ∈ args, Simulated m quiet program bound rounds arg) :
    Simulated m quiet program bound rounds (.call name args) := by
  intro used n f n' rest σ τ h hbound hstable havoids hsuffix hagree
  cases h with
  | @call _ _ vs fn _ n₁ hvs hname harity =>
    have hbound' : n₁.temps + fn.temps ≤ bound := hbound
    have hlength : fn.arity ≤ (vs.map Valued.value).length := by
      rw [List.length_map, hvs.length_eq]
      exact harity
    have hargsAvoid : ∀ arg ∈ args, arg.Avoids bound :=
      fun arg harg => havoids.child (by rwa [Expr.children_call])
    simp only [Expr.stable, hname] at hstable
    rw [List.append_assoc] at hsuffix ⊢
    refine .bind (follows_evalArgs hargs hvs (by omega) hstable hargsAvoid hsuffix hagree) ?_
    rintro ws σ₁ τ₁ _ ⟨hagree₁, hsame₁, hreads⟩
    simp only [hname]
    -- the call does the same with what the operands hold
    obtain ⟨v, w, σ₂, hheld, hmeant, hvalues⟩ := invoke_congr hquiet hreads σ₁
    have hcall : Follows m program rounds _ τ₁ _ rest _ := follows_invoke fn hlength hagree₁ hbound'
    rw [hheld] at hcall
    rw [hmeant]
    obtain ⟨j, τ₂, hrun, hagree₂, hsame₂, hvalue⟩ := hcall
    refine ⟨j, τ₂, hrun, hagree₂, hsame₁.trans (hsame₂.mono (EachArg.names_le hvs).temps), ?_⟩
    intro hused
    rw [Fragment.valueOrNull, Option.getD_some, Intrinsic.value_code, ← hvalues hused]
    exact hvalue

/-! ## Section 5: Control flow -/

/-- A condition that holds goes on with what follows the jump. -/
theorem step_taken {s : State V D} {operand label : String} {rest : List Instruction}
    (h : m.taken (m.lookup s operand) = true) :
    m.step program ⟨.jumpNotEqual label operand "true" :: rest, s⟩ = some ⟨rest, s⟩ := by
  rw [m.step_jumpNotEqual, m.lookup_of_isConstant (x := "true") rfl, if_neg]
  simpa [Machine.taken] using h

/-- A condition that fails goes on with the label. -/
theorem step_notTaken {s : State V D} {operand label : String} {rest : List Instruction}
    (h : ¬ m.taken (m.lookup s operand) = true) :
    m.step program ⟨.jumpNotEqual label operand "true" :: rest, s⟩ =
      some ⟨codeFrom label program, s⟩ := by
  rw [m.step_jumpNotEqual, m.lookup_of_isConstant (x := "true") rfl, if_pos]
  simpa [Machine.taken] using h

/-- The machine goes from one place of the program to another, and nothing
    changes on the way. -/
def Skips (m : Machine V D) (program code after : List Instruction) : Prop :=
  ∀ s, ∃ j, m.run program j ⟨code, s⟩ = some ⟨after, s⟩

theorem skips_label (label : String) (rest : List Instruction) :
    Skips m program (.label label :: rest) rest := fun _ => ⟨1, rfl⟩

/-- A jump to a label goes on with what follows the label. -/
theorem skips_jump {label : String} {code rest : List Instruction}
    (hnodup : (labelsIn program).Nodup) (hsuffix : .label label :: rest <:+ program) :
    Skips m program (.jumpAlways label :: code) rest := by
  intro s
  refine ⟨2, ?_⟩
  rw [Machine.run, m.step_jumpAlways, codeFrom_eq hnodup hsuffix]
  rfl

/-- A part of a tree gives its value to the result of the tree. -/
theorem Follows.set_result {used : Bool} {n n₀ : Names} {g : Fragment} {k : Nat}
    {code rest after whole : List Instruction} {τ τ₁ : State V D} {outcome : Option (V × State V D)}
    (h : Follows m program rounds code τ₁ outcome (.set (tempName k) g.valueOrNull :: rest)
      (Reached m bound used n g τ₁))
    (hsame : SameTemps n₀.temps τ τ₁) (hle : n₀.temps ≤ n.temps) (hk : n₀.temps ≤ k)
    (hlt : k < bound) (hskips : Skips m program rest after) :
    Follows m program rounds code τ₁ outcome after
      (Reached m bound used n₀ ⟨some (tempName k), whole⟩ τ) := by
  refine h.andThen fun v σ' τ' hreached => .step (m.step_set ..) ?_
  obtain ⟨j, hj⟩ := hskips (τ'.set (tempName k) (m.lookup τ' g.valueOrNull))
  exact ⟨j, _, hj,
    reached_temp hreached.agree (hsame.trans (hreached.temps.mono hle)) hk hlt hreached.value⟩

theorem simulated_branch (hnodup : (labelsIn program).Nodup) {cond yes no : Expr}
    (hcond : Simulated m quiet program bound rounds cond)
    (hyes : Simulated m quiet program bound rounds yes)
    (hno : Simulated m quiet program bound rounds no) :
    Simulated m quiet program bound rounds (.branch cond yes no) := by
  intro used n f n' rest σ τ h hbound hstable havoids hsuffix hagree
  cases h with
  | @branch _ _ _ c y g _ n₁ n₂ n₃ hc hy hg =>
    simp only [Expr.stable, Bool.and_eq_true] at hstable
    obtain ⟨⟨hcondStable, hyesStable⟩, hnoStable⟩ := hstable
    have hlt : n₃.temps < bound := hbound
    have hle₁ := hc.names_le.temps
    have hle₂ := hy.names_le.temps
    have hle₃ := hg.names_le.temps
    simp only [branchCode, List.append_assoc, List.cons_append, List.nil_append] at hsuffix ⊢
    -- the places of the program where the parts and the labels stand
    have hsuffix₁ := (List.suffix_cons _ _).trans ((List.suffix_append _ _).trans hsuffix)
    have hsuffix₂ := (List.suffix_cons _ _).trans
      ((List.suffix_cons _ _).trans ((List.suffix_append _ _).trans hsuffix₁))
    have hsuffix₃ := (List.suffix_cons _ _).trans hsuffix₂
    have hsuffix₄ := (List.suffix_cons _ _).trans ((List.suffix_append _ _).trans hsuffix₃)
    refine .bind (hcond hc (by omega) hcondStable (havoids.child (by simp)) hsuffix hagree) ?_
    intro v σ₁ τ₁ _ hreached
    have hlookup : m.lookup τ₁ c.value = v := hreached.value rfl
    by_cases htaken : m.taken v = true
    · simp only [htaken, if_true]
      refine .step (step_taken (by rwa [hlookup])) ?_
      have hpart := hyes hy (by omega) hyesStable (havoids.child (by simp)) hsuffix₁ hreached.agree
      exact Follows.set_result (g := y.toFragment) hpart hreached.temps hle₁ (by omega) hlt
        (skips_jump hnodup hsuffix₄)
    · simp only [htaken]
      refine .step (step_notTaken (by rwa [hlookup])) ?_
      rw [codeFrom_eq hnodup hsuffix₂]
      refine .step (m.step_label ..) ?_
      have hpart := hno hg (Nat.le_of_lt hlt) hnoStable (havoids.child (by simp)) hsuffix₃
        hreached.agree
      exact Follows.set_result hpart hreached.temps (by omega) (by omega) hlt (skips_label _ _)

/-- A loop, given that the code of its condition and the code of its body
    follow their evaluations.  The induction is on the rounds that are left;
    each of them takes a step at least. -/
theorem follows_repeatWhile (hnodup : (labelsIn program).Nodup) {cond body : Eval V D V}
    {condLabel doneLabel operand : String} {condCode bodyCode rest : List Instruction} {a : Nat}
    (hsuffix : .label condLabel :: (condCode ++ .jumpNotEqual doneLabel operand "true" ::
      (bodyCode ++ .jumpAlways condLabel :: .label doneLabel :: rest)) <:+ program)
    (hcond : ∀ {rest σ τ}, condCode ++ rest <:+ program → Agree bound σ τ →
      Follows m program rounds (condCode ++ rest) τ (cond σ) rest
        fun v σ' τ' => Agree bound σ' τ' ∧ SameTemps a τ τ' ∧ m.lookup τ' operand = v)
    (hbody : ∀ {rest σ τ}, bodyCode ++ rest <:+ program → Agree bound σ τ →
      Follows m program rounds (bodyCode ++ rest) τ (body σ) rest
        fun _ σ' τ' => Agree bound σ' τ' ∧ SameTemps a τ τ')
    {left : Nat} (hleft : left ≤ rounds) {σ τ : State V D} (hagree : Agree bound σ τ) :
    Follows m program left (.label condLabel :: (condCode ++
      .jumpNotEqual doneLabel operand "true" ::
      (bodyCode ++ .jumpAlways condLabel :: .label doneLabel :: rest))) τ
      (m.repeatWhile cond body left σ) rest
      fun _ σ' τ' => Agree bound σ' τ' ∧ SameTemps a τ τ' := by
  -- the code behind the label, behind the first jump, and behind the second
  have hsuffix₁ := (List.suffix_cons _ _).trans hsuffix
  have hsuffix₂ := (List.suffix_cons _ _).trans ((List.suffix_append _ _).trans hsuffix₁)
  have hsuffix₃ := (List.suffix_cons _ _).trans ((List.suffix_append _ _).trans hsuffix₂)
  induction left generalizing σ τ with
  | zero => exact ⟨0, Nat.le_refl 0, rfl⟩
  | succ left ih =>
    refine .step (m.step_label ..) ?_
    refine .bind ((hcond hsuffix₁ hagree).weaken hleft) ?_
    rintro _ σ₁ τ₁ _ ⟨hagree₁, hsame₁, rfl⟩
    by_cases htaken : m.taken (m.lookup τ₁ operand) = true
    · simp only [htaken, if_true]
      refine .step (step_taken htaken) ?_
      refine .bind (Follows.discard ((hbody hsuffix₂ hagree₁).weaken hleft)) ?_
      rintro _ σ₂ τ₂ _ ⟨_, hagree₂, hsame₂⟩
      -- the jump back is the step that pays for the round
      refine .step_succ (m.step_jumpAlways ..) ?_
      rw [codeFrom_eq hnodup hsuffix]
      refine (ih (by omega) hagree₂).imp ?_
      rintro _ σ₃ τ₃ _ ⟨hagree₃, hsame₃⟩
      exact ⟨hagree₃, (hsame₁.trans hsame₂).trans hsame₃⟩
    · simp only [htaken]
      refine .step (step_notTaken htaken) ?_
      rw [codeFrom_eq hnodup hsuffix₃]
      exact .step (m.step_label ..) (.here ⟨hagree₁, hsame₁⟩)

/-- The code of a loop whose body has no value, or `null`, leaves `null`. -/
theorem lookup_leftover {body : Expr} {n n' : Names} {g : Fragment} (hg : Lowers body n g n')
    (h : body.hasValue = false ∨ body.place = some "null") (s : State V D) :
    m.lookup s g.valueOrNull = m.null := by
  have hnull : g.valueOrNull = "null" := by
    unfold Fragment.valueOrNull
    cases hvalue : g.value with
    | none => rfl
    | some operand =>
      rcases h with hnone | hplace
      · have hsome := hg.isSome_value
        rw [hnone, hvalue] at hsome
        cases hsome
      · have hheld := hg.heldIn hvalue
        rw [hplace] at hheld
        exact hheld
  rw [hnull]
  exact m.lookup_of_isConstant isConstant_null

theorem simulated_loop (hnodup : (labelsIn program).Nodup) {cond body : Expr}
    (hcond : Simulated m quiet program bound rounds cond)
    (hbody : Simulated m quiet program bound rounds body) :
    Simulated m quiet program bound rounds (.loop cond body) := by
  intro used n f n' rest σ τ h hbound hstable havoids hsuffix hagree
  cases h with
  | @loop _ _ c g _ n₁ n₂ hc hg =>
    simp only [Expr.stable, Bool.and_eq_true] at hstable
    obtain ⟨⟨hcondStable, hbodyStable⟩, hleftover⟩ := hstable
    have hle : n₂.temps ≤ bound := hbound
    have hle₁ := hc.names_le.temps
    have hle₂ := hg.names_le.temps
    simp only [loopCode, List.append_assoc, List.cons_append, List.nil_append] at hsuffix ⊢
    refine .bind (follows_repeatWhile (a := n.temps) hnodup hsuffix ?_ ?_ (Nat.le_refl rounds)
      hagree) ?_
    · intro after σ₁ τ₁ hsuffix₁ hagree₁
      refine Follows.imp (hcond hc (by omega) hcondStable (havoids.child (by simp)) hsuffix₁
        hagree₁) ?_
      intro v σ₂ τ₂ _ hreached
      exact ⟨hreached.agree, hreached.temps, hreached.value rfl⟩
    · intro after σ₁ τ₁ hsuffix₁ hagree₁
      refine Follows.imp (hbody hg hle hbodyStable (havoids.child (by simp)) hsuffix₁ hagree₁) ?_
      intro v σ₂ τ₂ _ hreached
      exact ⟨hreached.agree, hreached.temps.mono hle₁⟩
    · rintro _ σ' τ' _ ⟨hagree', hsame'⟩
      -- a loop that is used leaves `null`, since its body is one without a value
      refine .here ⟨hagree', hsame', fun hused => lookup_leftover hg ?_ τ'⟩
      simpa [hused] using hleftover

/-- The arms of a `case` and what comes after them, the subject being held in
    an operand.  A pattern that differs goes on with the next arm. -/
theorem follows_evalArms (hnodup : (labelsIn program).Nodup) {subject : Expr} {used : Bool}
    {arms : List (Expr × Expr)}
    (harms : ∀ arm ∈ arms, Simulated m quiet program bound rounds arm.1 ∧
      Simulated m quiet program bound rounds arm.2)
    {n₀ n n' : Names} {as : List (Valued × Valued)} {a k : Nat} {v : V} {operand endLabel : String}
    {nextLabels : List String} {whole after rest : List Instruction} {otherwise : Eval V D V}
    {σ τ τ₁ : State V D}
    (h : EachArm (fun e n v n' => Lowers e n v.toFragment n') arms n as n')
    (hlength : nextLabels.length = as.length) (hbound : n'.temps ≤ k) (hlt : k < bound)
    (hstable : Expr.stableArms quiet used subject arms = true) (havoids : subject.Avoids bound)
    (harmsAvoid : ∀ arm ∈ arms, arm.1.Avoids bound ∧ arm.2.Avoids bound)
    (hheld : HeldIn subject.place a n.temps operand) (hle : n₀.temps ≤ n.temps)
    (hsuffix : armsCode operand (tempName k) endLabel as nextLabels ++ after <:+ program)
    (hend : .label endLabel :: rest <:+ program)
    (hotherwise : ∀ {σ' τ'}, Agree bound σ' τ' → SameTemps n₀.temps τ τ' →
      Follows m program rounds after τ' (otherwise σ') rest
        (Reached m bound used n₀ ⟨some (tempName k), whole⟩ τ))
    (hagree : Agree bound σ τ₁) (hsame : SameTemps n₀.temps τ τ₁)
    (hoperand : arms ≠ [] → m.lookup τ₁ operand = v) :
    Follows m program rounds (armsCode operand (tempName k) endLabel as nextLabels ++ after) τ₁
      (m.evalArms rounds v otherwise arms σ) rest
      (Reached m bound used n₀ ⟨some (tempName k), whole⟩ τ) := by
  induction h generalizing nextLabels σ τ₁ with
  | nil n =>
    obtain rfl := List.length_eq_zero_iff.mp hlength
    exact hotherwise hagree hsame
  | @cons pattern body arms p b as n₁ n₂ n₃ n₄ hp hb has ih =>
    obtain ⟨next, labels, rfl⟩ := List.exists_cons_of_length_eq_add_one hlength
    obtain ⟨⟨hpattern, hbody⟩, harms⟩ := List.forall_mem_cons.mp harms
    obtain ⟨⟨hpatternAvoids, hbodyAvoids⟩, harmsAvoid⟩ := List.forall_mem_cons.mp harmsAvoid
    have hoperand : m.lookup τ₁ operand = v := hoperand (List.cons_ne_nil _ _)
    simp only [Expr.stableArms, Bool.and_eq_true] at hstable
    obtain ⟨⟨⟨hpatternStable, houtlives⟩, hbodyStable⟩, harmsStable⟩ := hstable
    have hle₁ := hp.names_le.temps
    have hle₂ := hb.names_le.temps
    have hle₃ := (EachArm.names_le has).temps
    simp only [armsCode, armCode, List.append_assoc, List.cons_append, List.nil_append]
      at hsuffix ⊢
    have hsuffix₁ := (List.suffix_cons _ _).trans ((List.suffix_append _ _).trans hsuffix)
    have hsuffix₂ := (List.suffix_cons _ _).trans
      ((List.suffix_cons _ _).trans ((List.suffix_append _ _).trans hsuffix₁))
    rw [Machine.evalArms]
    refine .bind (hpattern hp (by omega) hpatternStable hpatternAvoids hsuffix hagree) ?_
    intro w σ₁ τ₂ heval hreached
    -- the subject is still where it was
    have hstays := hheld.lookup_eq (m := m) havoids houtlives
      (m.spares_eval rounds pattern σ w σ₁ heval) hagree hreached.agree hreached.temps
    have hsame₂ := hsame.trans (hreached.temps.mono hle)
    have hstep := m.step_jumpNotEqual program (b.code ++ .set (tempName k) b.value ::
      .jumpAlways endLabel :: .label next ::
      (armsCode operand (tempName k) endLabel as labels ++ after)) τ₂ next operand p.value
    have hvalue : m.lookup τ₂ p.value = w := hreached.value rfl
    rw [hstays, hoperand, hvalue] at hstep
    refine .step hstep ?_
    by_cases hdiffers : m.notEqual v w = true
    · simp only [hdiffers, if_true]
      rw [codeFrom_eq hnodup hsuffix₂]
      refine .step (m.step_label ..) ?_
      exact ih harms (Nat.succ.inj hlength) (by omega) harmsStable harmsAvoid
        (hheld.mono (Nat.le_refl _) (by omega)) (by omega)
        ((List.suffix_cons _ _).trans hsuffix₂) hreached.agree hsame₂
        fun _ => hstays.trans hoperand
    · simp only [hdiffers]
      have hpart := hbody hb (by omega) hbodyStable hbodyAvoids hsuffix₁ hreached.agree
      exact Follows.set_result (g := b.toFragment) hpart hsame₂ (by omega) (by omega) hlt
        (skips_jump hnodup hend)

theorem simulated_select (hnodup : (labelsIn program).Nodup) {subject otherwise : Expr}
    {arms : List (Expr × Expr)} (hsubject : Simulated m quiet program bound rounds subject)
    (harms : ∀ arm ∈ arms, Simulated m quiet program bound rounds arm.1 ∧
      Simulated m quiet program bound rounds arm.2)
    (hotherwise : Simulated m quiet program bound rounds otherwise) :
    Simulated m quiet program bound rounds (.select subject arms otherwise) := by
  intro used n f n' rest σ τ h hbound hstable havoids hsuffix hagree
  cases h with
  | @select _ _ _ s as g _ n₁ n₂ n₃ hs has hg =>
    simp only [Expr.stable, Bool.and_eq_true] at hstable
    obtain ⟨⟨hsubjectStable, harmsStable⟩, hotherwiseStable⟩ := hstable
    have hlt : n₃.temps < bound := hbound
    have hle₁ := hs.names_le.temps
    have hle₂ := (EachArm.names_le has).temps
    have hle₃ := hg.names_le.temps
    simp only [selectCode, List.append_assoc, List.cons_append, List.nil_append] at hsuffix ⊢
    have hsuffix₁ := (List.suffix_append _ _).trans hsuffix
    have hsuffix₂ := (List.suffix_append _ _).trans hsuffix₁
    have hend := (List.suffix_cons _ _).trans ((List.suffix_append _ _).trans hsuffix₂)
    have hsubjectAvoids : subject.Avoids bound := havoids.child (by simp)
    -- the parts of a tree avoid what the tree avoids
    have harmsAvoid : ∀ arm ∈ arms, arm.1.Avoids bound ∧ arm.2.Avoids bound := by
      intro arm harm
      obtain ⟨hpattern, hbody⟩ := Expr.mem_children_select harm
      exact ⟨havoids.child hpattern, havoids.child hbody⟩
    refine .bind (hsubject hs (by omega) hsubjectStable hsubjectAvoids hsuffix hagree) ?_
    intro v σ₁ τ₁ _ hreached
    -- the subject is looked at in front of each arm, so its operand has to last
    refine follows_evalArms hnodup harms has (by simp) (by omega) hlt harmsStable hsubjectAvoids
      harmsAvoid (hs.heldIn rfl) hle₁ hsuffix₁ hend ?_ hreached.agree hreached.temps
      fun hne => hreached.value (by simpa using hne)
    intro σ' τ' hagree' hsame'
    have hpart := hotherwise hg (by omega) hotherwiseStable (havoids.child (by simp)) hsuffix₂
      hagree'
    exact Follows.set_result hpart hsame' (by omega) (by omega) hlt (skips_label _ _)

/-! ## Section 6: Whole programs -/

/-- The code of every tree follows its evaluation. -/
theorem simulated (hquiet : m.QuietOn quiet) (hnodup : (labelsIn program).Nodup) (e : Expr) :
    Simulated m quiet program bound rounds e := by
  -- leaves are a name, a name that is copied, or nothing; the others have a lemma each
  induction e with
  | null =>
    refine simulated_constant (x := "null") (fun h => by cases h; rfl) (fun σ => rfl) fun _ => ?_
    exact foreign_of_isVariable_eq_false rfl
  | bool value =>
    refine simulated_constant (x := if value then "true" else "false") (fun h => by cases h; rfl)
      (fun σ => ?_) fun _ => foreign_of_isVariable_eq_false (by cases value <;> rfl)
    rw [m.lookup_of_isConstant (isConstant_bool value)]
    rfl
  | num literal =>
    exact simulated_copied (x := literal) (fun h => by cases h; exact ⟨rfl, rfl⟩) (fun σ => rfl)
      fun havoids => havoids.own (by simp)
  | str text =>
    refine simulated_copied (x := Text.quoted text) (fun h => by cases h; exact ⟨rfl, rfl⟩)
      (fun σ => ?_) fun _ => foreign_of_isVariable_eq_false ?_
    · rw [m.lookup_of_isConstant (isConstant_quoted text)]
      rfl
    · simp [isVariable, isConstant_quoted]
  | var name =>
    exact simulated_constant (x := name) (fun h => by cases h; rfl) (fun σ => rfl)
      fun havoids => havoids.own (by simp)
  | builtin name =>
    exact simulated_constant (x := "@" ++ name) (fun h => by cases h; rfl) (fun σ => rfl)
      fun _ => foreign_of_isVariable_eq_false (isVariable_builtin name)
  | seq rest last hrest hlast => exact simulated_seq hrest hlast
  | branch cond yes no hcond hyes hno => exact simulated_branch hnodup hcond hyes hno
  | loop cond body hcond hbody => exact simulated_loop hnodup hcond hbody
  | select subject arms otherwise hsubject harms hotherwise =>
    exact simulated_select hnodup hsubject harms hotherwise
  | assign name value hvalue => exact simulated_assign name hvalue
  | assignBuiltin name value hvalue => exact simulated_assignBuiltin name hvalue
  | load cell address haddress => exact simulated_load cell haddress
  | store cell address value haddress hvalue => exact simulated_store cell haddress hvalue
  | control property target value hvalue => exact simulated_control property target hvalue
  | sensor target name => exact simulated_sensor target name
  | unary op operand hoperand => exact simulated_unary hquiet op hoperand
  | binary op left right hleft hright => exact simulated_binary hquiet op hleft hright
  | call name args hargs => exact simulated_call hquiet name hargs
  | comment text => exact simulated_empty (fun h => by cases h; rfl) fun σ => rfl
  | nop => exact simulated_empty (fun h => by cases h; rfl) fun σ => rfl

end

variable (m : Machine V D) {quiet : String → Bool} {used : Bool} {e : Expr} {f : Fragment}
  {names : Names}

theorem generate_of_lower (hlower : (lower e).runFrom .none = (.ok f, names)) :
    generate e = .ok (f.code ++ [.end_]) := by
  rw [generate, hlower]
  rfl

/-- A whole program, run from a state, follows the evaluation of the tree in
    that state up to its `end`. -/
theorem follows_program (hquiet : m.QuietOn quiet)
    (hlower : (lower e).runFrom .none = (.ok f, names)) (hstable : e.stable quiet used = true)
    (hforeign : ∀ x ∈ e.operands, Foreign names.temps x) (rounds : Nat) (s : State V D) :
    Follows m (f.code ++ [.end_]) rounds (f.code ++ [.end_]) s (m.eval rounds e s) [.end_]
      (Reached m names.temps used .none f s) := by
  have hlowers := lowers_of_run hlower
  have hnodup : (labelsIn (f.code ++ [.end_])).Nodup := by
    rw [labelsIn_append, show labelsIn [.end_] = [] from rfl, List.append_nil]
    exact hlowers.settlesLabels.defined.nodup_iff.mpr (nodup_labelRange _ _)
  exact simulated hquiet hnodup e hlowers (Nat.le_refl _) hstable hforeign (List.suffix_refl _)
    ⟨rfl, fun _ _ => rfl⟩

/-- A tree that comes to a value has code that comes to its end. -/
theorem halts_of_evaluates (hquiet : m.QuietOn quiet)
    (hlower : (lower e).runFrom .none = (.ok f, names)) (hstable : e.stable quiet used = true)
    (hforeign : ∀ x ∈ e.operands, Foreign names.temps x) {s t : State V D} {v : V}
    (h : m.Evaluates e s v t) :
    ∃ t', m.Halts (f.code ++ [.end_]) s t' ∧ Reached m names.temps used .none f s v t t' := by
  obtain ⟨rounds, heval⟩ := h
  have hfollows := follows_program m hquiet hlower hstable hforeign rounds s
  rw [heval] at hfollows
  obtain ⟨n, t', hrun, hreached⟩ := hfollows
  exact ⟨t', ⟨n, [], hrun⟩, hreached⟩

/-- A tree that loops forever has code that runs forever. -/
theorem runsForever_of_diverges (hquiet : m.QuietOn quiet)
    (hlower : (lower e).runFrom .none = (.ok f, names)) (hstable : e.stable quiet used = true)
    (hforeign : ∀ x ∈ e.operands, Foreign names.temps x) {s : State V D} (h : m.Diverges e s) :
    m.RunsForever (f.code ++ [.end_]) s := by
  intro n
  have hfollows := follows_program m hquiet hlower hstable hforeign n s
  rw [h n] at hfollows
  obtain ⟨k, hle, hrun⟩ := hfollows
  -- a run of more steps starts with a run of fewer
  obtain ⟨d, rfl⟩ := Nat.exists_eq_add_of_le hle
  rw [Machine.run_add] at hrun
  exact Option.isSome_of_isSome_bind hrun

/-- Generated code does what the tree means.  Let each value be held until it
    is used, and let the tree not name the temporary variables that its code
    takes.  Then the program comes to its `end` in a state iff evaluating the
    tree comes to a value in such a state, where the devices are the same and so
    are all variables but the temporary ones.  If the value of the tree counts
    as used itself, then the operand of the fragment holds it in the end.  The
    program runs forever iff the tree loops forever. -/
theorem generate_preserves_meaning (hquiet : m.QuietOn quiet)
    (hlower : (lower e).runFrom .none = (.ok f, names)) (hstable : e.stable quiet used = true)
    (hforeign : ∀ x ∈ e.operands, Foreign names.temps x) (s : State V D) :
    ∃ program, generate e = .ok program ∧
      (∀ v t, m.Evaluates e s v t → ∃ t', m.Halts program s t' ∧ Agree names.temps t t' ∧
        (used = true → m.lookup t' f.valueOrNull = v)) ∧
      (∀ t', m.Halts program s t' → ∃ v t, m.Evaluates e s v t ∧ Agree names.temps t t' ∧
        (used = true → m.lookup t' f.valueOrNull = v)) ∧
      (m.RunsForever program s ↔ m.Diverges e s) := by
  refine ⟨f.code ++ [.end_], generate_of_lower hlower, ?_, ?_, ?_, ?_⟩
  · intro v t h
    obtain ⟨t', hhalts, hreached⟩ := halts_of_evaluates m hquiet hlower hstable hforeign h
    exact ⟨t', hhalts, hreached.agree, hreached.value⟩
  · intro t' hhalts
    -- it cannot loop forever, and where it ends is where the machine halts
    have hends : ∃ rounds, m.eval rounds e s ≠ none := by
      refine Classical.byContradiction fun hnone => ?_
      refine hhalts.not_runsForever m (runsForever_of_diverges m hquiet hlower hstable hforeign ?_)
      exact fun rounds => Classical.byContradiction fun h => hnone ⟨rounds, h⟩
    obtain ⟨rounds, hsome⟩ := hends
    obtain ⟨⟨v, t⟩, heval⟩ := Option.ne_none_iff_exists'.mp hsome
    obtain ⟨t'', hhalts', hreached⟩ :=
      halts_of_evaluates m hquiet hlower hstable hforeign ⟨rounds, heval⟩
    obtain rfl := hhalts.unique m hhalts'
    exact ⟨v, t, ⟨rounds, heval⟩, hreached.agree, hreached.value⟩
  · intro hforever rounds
    refine Option.eq_none_iff_forall_ne_some.mpr fun ⟨v, t⟩ heval => ?_
    obtain ⟨t', hhalts, _⟩ := halts_of_evaluates m hquiet hlower hstable hforeign ⟨rounds, heval⟩
    exact hhalts.not_runsForever m hforever
  · exact runsForever_of_diverges m hquiet hlower hstable hforeign

/-! ## Section 7: A processor, and programs that it does not run as meant -/

/-- A processor that adds and compares small numbers, with nothing around it. -/
def adder : Machine Nat Unit where
  constant x :=
    match x with
    | "true" | "1" => 1
    | "2" => 2
    | "5" => 5
    | "7" => 7
    | _ => 0
  notEqual a b := a != b
  operate operation operands device :=
    match operation, operands with
    | "add", [a, b] => (a + b, device)
    | "lessThan", [a, b] => (if a < b then 1 else 0, device)
    | _, _ => (0, device)
  readCell _ _ _ := 0
  sense _ _ _ := 0
  linked _ _ := 0
  isWithin _ _ := 0
  writeCell device _ _ _ := device
  control _ device _ _ := device
  print device _ := device
  printflush device _ := device
  ubind device _ := device
  order _ device _ := device

/-- Counts `i` up to two inside an `if` whose value is not used, gives an order
    whose first argument has no use and is assigned in the second one, and then
    doubles `i` if it is not below two. -/
def countAndDouble : Expr :=
  .seq
    (.seq
      (.branch (.bool true)
        (.loop (.binary "<" (.var "i") (.num "2"))
          (.assign "i" (.binary "+" (.var "i") (.num "1"))))
        .nop)
      (.call "boot" [.var "a", .assign "a" (.num "1")]))
    (.assign "b" (.branch (.binary "<" (.var "i") (.num "2")) (.num "0")
      (.binary "+" (.var "i") (.var "i"))))

theorem countAndDouble_preserved :
    ∃ program t', generate countAndDouble = .ok program ∧
      adder.Halts program ⟨fun _ => 0, ()⟩ t' ∧ t'.store "b" = 4 := by
  have hquiet : adder.QuietOn fun _ => true := fun _ _ _ _ => rfl
  have hstable : countAndDouble.stable (fun _ => true) true = true := by decide +kernel
  obtain ⟨program, hgenerate, hhalts, _⟩ := generate_preserves_meaning adder hquiet
    rfl hstable (by decide +kernel) ⟨fun _ => 0, ()⟩
  obtain ⟨v, t, heval, hb⟩ : ∃ v t, adder.eval 3 countAndDouble ⟨fun _ => 0, ()⟩ = some (v, t) ∧
      t.store "b" = 4 := ⟨_, _, rfl, rfl⟩
  obtain ⟨t', hhalts', hagree, _⟩ := hhalts v t ⟨3, heval⟩
  refine ⟨program, t', hgenerate, hhalts', ?_⟩
  rw [← hagree.store "b" (by decide), hb]

/-- The tree of `b = a + (a = 1)`. -/
def addAfterAssignment : Expr :=
  .assign "b" (.binary "+" (.var "a") (.assign "a" (.num "1")))

/-- The tree of `tmp1 = 5; b = 7 + tmp1`. -/
def addTemporary : Expr :=
  .seq (.assign "tmp1" (.num "5")) (.assign "b" (.binary "+" (.num "7") (.var "tmp1")))

/-- The tree of `b = if true { while false { 1 } }`. -/
def assignLoop : Expr :=
  .assign "b" (.branch (.bool true) (.loop (.bool false) (.num "1")) .nop)

/-- Started with the same value in all variables, the tree assigns one value to
    `b` and its code another. -/
def AssignsOther (e : Expr) (start expected found : Nat) : Prop :=
  ∃ program v t t', generate e = .ok program ∧ adder.Evaluates e ⟨fun _ => start, ()⟩ v t ∧
    adder.Halts program ⟨fun _ => start, ()⟩ t' ∧ t.store "b" = expected ∧ t'.store "b" = found

/-- The code of a tree does something else if an operand is assigned after it
    was read, if the tree names a temporary variable of its code, and if the
    value of a loop is used that was left before its first round. -/
theorem meaning_not_preserved :
    AssignsOther addAfterAssignment 0 1 2 ∧ AssignsOther addTemporary 0 12 14 ∧
      AssignsOther assignLoop 7 0 7 := by
  refine ⟨?_, ?_, ?_⟩
  · exact ⟨_, _, _, _, rfl, ⟨0, rfl⟩, ⟨4, _, rfl⟩, rfl, rfl⟩
  · exact ⟨_, _, _, _, rfl, ⟨0, rfl⟩, ⟨5, _, rfl⟩, rfl, rfl⟩
  · exact ⟨_, _, _, _, rfl, ⟨1, rfl⟩, ⟨8, _, rfl⟩, rfl, rfl⟩

end Mlog
