import Mlog.Proofs.Evaluation

/-! # Where code holds values

    The value of a fragment is either an operand that the tree names itself
    (`Expr.place`), or a temporary variable that was given out while the tree
    was lowered.  The first kind stays as long as the program does not assign
    it, and the second kind stays for good, since later code has later
    temporary variables. -/

namespace Mlog

/-! ## Section 1: Results of calls -/

theorem Order.operands_map {α β : Type} (o : Order) (g : α → β) (args : List α) :
    o.operands (args.map g) = (o.operands args).map g := by
  cases o <;> simp [Order.operands, List.map_take]

theorem Order.operands_subset {α : Type} (o : Order) (args : List α) : o.operands args ⊆ args := by
  intro a ha
  cases o with
  | boost => exact List.mem_of_mem_take (List.mem_of_mem_drop ha)
  | _ => exact List.mem_of_mem_take ha

namespace Intrinsic

/-- What a call comes to does not depend on what the arguments are. -/
theorem result_map {α β : Type} (f : Intrinsic) (g : α → β) (null computed : α) (args : List α) :
    f.result (g null) (g computed) (args.map g) = g (f.result null computed args) := by
  cases f with
  | print => exact List.getLastD_map
  | order o =>
    cases o with
    | flag | boost =>
      simp only [result, Order.value, Order.operands_map]
      exact List.getLastD_map
    | _ => rfl
  | _ => rfl

/-- A call comes to `null`, to what the function computes, or to an argument. -/
theorem result_mem {α : Type} (f : Intrinsic) (null computed : α) (args : List α) :
    f.result null computed args = computed ∧ f.temps = 1 ∨
      f.result null computed args ∈ null :: args := by
  cases f with
  | print => exact .inr List.getLastD_mem_cons
  | order o =>
    refine .inr ?_
    cases o with
    | flag | boost =>
      rcases List.mem_cons.mp (List.getLastD_mem_cons (l := Order.operands _ args)) with
        hnull | harg
      · exact List.mem_cons.mpr (.inl hnull)
      · exact List.mem_cons_of_mem _ (Order.operands_subset _ args harg)
    | _ => exact List.mem_cons_self
  | printflush | ubind => exact .inr List.mem_cons_self
  | rand | getlink | within => exact .inl ⟨rfl, rfl⟩

theorem value_code (f : Intrinsic) (temp : String) (args : List String) :
    (f.code temp args).value = f.result "null" temp args := by
  cases f <;> rfl

end Intrinsic

/-! ## Section 2: Places -/

/-- The operand holds a value: it is the one that the tree names, if there is
    such, and otherwise a temporary variable with a number from `a` up to `b`. -/
def HeldIn (place : Option String) (a b : Nat) (operand : String) : Prop :=
  match place with
  | some x => operand = x
  | none => ∃ k, a ≤ k ∧ k < b ∧ operand = tempName k

theorem HeldIn.mono {place : Option String} {a b a' b' : Nat} {operand : String}
    (h : HeldIn place a b operand) (ha : a' ≤ a) (hb : b ≤ b') : HeldIn place a' b' operand := by
  cases place with
  | some x => exact h
  | none =>
    obtain ⟨k, hak, hkb, rfl⟩ := h
    exact ⟨k, by omega, by omega, rfl⟩

theorem EachArg.names_le {args : List Expr} {vs : List Valued} {n n' : Names}
    (h : EachArg (fun e n v n' => Lowers e n v.toFragment n') args n vs n') : n.Le n' := by
  induction h with
  | nil n => exact .refl n
  | cons harg _ ih => exact harg.names_le.trans ih

theorem EachArm.names_le {arms : List (Expr × Expr)} {vs : List (Valued × Valued)} {n n' : Names}
    (h : EachArm (fun e n v n' => Lowers e n v.toFragment n') arms n vs n') : n.Le n' := by
  induction h with
  | nil n => exact .refl n
  | cons hpattern hbody _ ih => exact (hpattern.names_le.trans hbody.names_le).trans ih

/-- The places of arguments and the operands that hold them, side by side. -/
theorem EachArg.heldIn {args : List Expr} {vs : List Valued} {n n' : Names}
    (h : EachArg (fun e n v n' => Lowers e n v.toFragment n' ∧
      HeldIn e.place n.temps n'.temps v.value) args n vs n') :
    ∃ held : List (Option String × String), Expr.places args = held.map Prod.fst ∧
      vs.map Valued.value = held.map Prod.snd ∧
      ∀ p ∈ held, HeldIn p.1 n.temps n'.temps p.2 := by
  induction h with
  | nil n => exact ⟨[], rfl, rfl, by simp⟩
  | @cons arg args v vs n₀ n₁ n₂ harg hargs ih =>
    obtain ⟨held, hplaces, hvalues, hheld⟩ := ih
    have hle₁ : n₀.temps ≤ n₁.temps := harg.1.names_le.temps
    have hle₂ : n₁.temps ≤ n₂.temps :=
      (EachArg.names_le (hargs.imp fun _ _ _ _ _ h => h.1)).temps
    refine ⟨(arg.place, v.value) :: held, ?_, ?_, ?_⟩
    · simp [Expr.places, hplaces]
    · simp [hvalues]
    · intro p hp
      rcases List.mem_cons.mp hp with rfl | hp
      · exact harg.2.mono (Nat.le_refl _) hle₂
      · exact (hheld p hp).mono hle₁ (Nat.le_refl _)

/-- The value of a call is held in its place, or in the temporary variable that
    the function takes, if the values of the arguments are held in theirs. -/
theorem heldIn_call {name : String} {args : List Expr} {vs : List Valued} {fn : Intrinsic}
    {n n' : Names}
    (h : EachArg (fun e n v n' => Lowers e n v.toFragment n' ∧
      HeldIn e.place n.temps n'.temps v.value) args n vs n')
    (hname : Intrinsic.ofName? name = some fn) :
    HeldIn (Expr.call name args).place n.temps (n'.temps + fn.temps)
      (fn.code (tempName n'.temps) (vs.map Valued.value)).value := by
  obtain ⟨held, hplaces, hvalues, hheld⟩ := h.heldIn
  have hle : n.temps ≤ n'.temps := (EachArg.names_le (h.imp fun _ _ _ _ _ h => h.1)).temps
  -- the place and the operand are what the function makes of the pairs of them
  have hplace : (Expr.call name args).place =
      (fn.result (some "null", "null") (none, tempName n'.temps) held).1 := by
    rw [Expr.place, hname, hplaces]
    exact fn.result_map Prod.fst (some "null", "null") (none, tempName n'.temps) held
  have hvalue : (fn.code (tempName n'.temps) (vs.map Valued.value)).value =
      (fn.result (some "null", "null") (none, tempName n'.temps) held).2 := by
    rw [Intrinsic.value_code, hvalues]
    exact fn.result_map Prod.snd (some "null", "null") (none, tempName n'.temps) held
  rw [hplace, hvalue]
  rcases fn.result_mem (some "null", "null") (none, tempName n'.temps) held with
    ⟨hresult, htemps⟩ | hmem
  · rw [hresult]
    exact ⟨n'.temps, hle, by simp [htemps], rfl⟩
  · rcases List.mem_cons.mp hmem with hresult | hmem
    · rw [hresult]
      rfl
    · exact (hheld _ hmem).mono (Nat.le_refl _) (Nat.le_add_right _ _)

/-- The code of a tree has a value exactly if the tree has one. -/
theorem Lowers.isSome_value {e : Expr} :
    ∀ {n : Names} {f : Fragment} {n' : Names}, Lowers e n f n' → f.value.isSome = e.hasValue := by
  induction e with
  | seq rest last _ ih =>
    intro n f n' h
    cases h with
    | seq _ hlast =>
      have hvalue := ih hlast
      exact hvalue
  | loop cond body _ ih =>
    intro n f n' h
    cases h with
    | loop _ hbody =>
      have hvalue := ih hbody
      exact hvalue
  | _ => intro n f n' h; cases h; rfl

/-- The value of a tree is held in its place, or in a temporary variable that
    was given out for it. -/
theorem Lowers.heldIn {e : Expr} :
    ∀ {n : Names} {f : Fragment} {n' : Names} {operand : String}, Lowers e n f n' →
      f.value = some operand → HeldIn e.place n.temps n'.temps operand := by
  induction e with
  -- an operand that the node names is its place
  | null | bool | var | builtin | assignBuiltin =>
    intro n f n' operand h hoperand
    cases h
    exact (Option.some.inj hoperand).symm
  -- the first of the variables that are given out from here on
  | num | str | sensor =>
    intro n f n' operand h hoperand
    cases h
    exact ⟨n.temps, Nat.le_refl _, Nat.lt_succ_self _, (Option.some.inj hoperand).symm⟩
  | seq rest last _ ih =>
    intro n f n' operand h hoperand
    cases h with
    | seq hrest hlast =>
      exact (ih hlast hoperand).mono hrest.names_le.temps (Nat.le_refl _)
  -- the result of an `if` gets the variable after those of all parts
  | branch cond yes no _ _ _ =>
    intro n f n' operand h hoperand
    cases h with
    | @branch _ _ _ _ _ _ _ _ _ n₃ hcond hyes hno =>
      have hle : n.temps ≤ n₃.temps :=
        ((hcond.names_le.trans hyes.names_le).trans hno.names_le).temps
      exact ⟨n₃.temps, hle, Nat.lt_succ_self _, (Option.some.inj hoperand).symm⟩
  -- a loop has the place of its body, whether that was run or not
  | loop cond body _ ih =>
    intro n f n' operand h hoperand
    cases h with
    | loop hcond hbody =>
      exact (ih hbody hoperand).mono hcond.names_le.temps (Nat.le_refl _)
  | select subject arms otherwise _ _ _ =>
    intro n f n' operand h hoperand
    cases h with
    | @select _ _ _ _ _ _ _ _ _ n₃ hsubject harms hotherwise =>
      have hle : n.temps ≤ n₃.temps :=
        ((hsubject.names_le.trans harms.names_le).trans hotherwise.names_le).temps
      exact ⟨n₃.temps, hle, Nat.lt_succ_self _, (Option.some.inj hoperand).symm⟩
  | assign name value ih =>
    intro n f n' operand h hoperand
    cases h with
    | assign hvalue =>
      have hheld := ih hvalue hoperand
      exact hheld
  | load cell address _ =>
    intro n f n' operand h hoperand
    cases h with
    | load haddress =>
      exact ⟨_, haddress.names_le.temps, Nat.lt_succ_self _, (Option.some.inj hoperand).symm⟩
  | store cell address value _ ih =>
    intro n f n' operand h hoperand
    cases h with
    | store haddress hvalue =>
      exact (ih hvalue hoperand).mono haddress.names_le.temps (Nat.le_refl _)
  | control property target value ih =>
    intro n f n' operand h hoperand
    cases h with
    | control hvalue =>
      have hheld := ih hvalue hoperand
      exact hheld
  | unary op operand _ =>
    intro n f n' operand h hoperand
    cases h with
    | unary hoperand' _ =>
      exact ⟨_, hoperand'.names_le.temps, Nat.lt_succ_self _, (Option.some.inj hoperand).symm⟩
  | binary op left right _ _ =>
    intro n f n' operand h hoperand
    cases h with
    | binary hleft hright _ =>
      exact ⟨_, (hleft.names_le.trans hright.names_le).temps, Nat.lt_succ_self _,
        (Option.some.inj hoperand).symm⟩
  -- the value of a call is an argument, a variable of its own, or `null`
  | call name args ih =>
    intro n f n' operand h hoperand
    cases h with
    | @call _ _ vs fn _ n₁ hargs hname _ =>
      obtain rfl := Option.some.inj hoperand
      have hheld := hargs.imp
        (Q := fun e n v n' => Lowers e n v.toFragment n' ∧ HeldIn e.place n.temps n'.temps v.value)
        fun arg harg _ _ _ h => ⟨h, ih arg harg h rfl⟩
      exact heldIn_call hheld hname
  | comment | nop =>
    intro n f n' operand h hoperand
    cases h
    exact absurd hoperand (by simp [Fragment.empty])

/-! ## Section 3: Temporary variables and the rest -/

/-- The operand is no temporary variable with a number below the bound. -/
def Foreign (bound : Nat) (operand : String) : Prop := ∀ k < bound, operand ≠ tempName k

instance (bound : Nat) (operand : String) : Decidable (Foreign bound operand) :=
  inferInstanceAs (Decidable (∀ k < bound, operand ≠ tempName k))

theorem foreign_of_isVariable_eq_false {bound : Nat} {operand : String}
    (h : isVariable operand = false) : Foreign bound operand := by
  rintro k _ rfl
  exact absurd h (by simp [isVariable_tempName])

theorem isVariable_builtin (name : String) : isVariable ("@" ++ name) = false := by
  have hbuiltin : isBuiltin ("@" ++ name) = true := by simp [isBuiltin]
  simp [isVariable, hbuiltin]

theorem Expr.places_eq_map (args : List Expr) : places args = args.map place := by
  induction args with
  | nil => rfl
  | cons arg args ih => rw [places, ih, List.map_cons]

namespace Expr

/-- No operand that the tree names is a temporary variable with a number below
    the bound. -/
def Avoids (bound : Nat) (e : Expr) : Prop := ∀ x ∈ e.operands, Foreign bound x

namespace Avoids

variable {bound : Nat} {e : Expr}

theorem child (h : e.Avoids bound) {part : Expr} (hpart : part ∈ e.children) :
    part.Avoids bound := by
  intro x hx
  obtain ⟨node, hnode, hown⟩ := List.mem_flatMap.mp hx
  exact h x (List.mem_flatMap.mpr ⟨node, mem_nodes_of_child hpart hnode, hown⟩)

theorem own (h : e.Avoids bound) {x : String} (hx : x ∈ e.ownOperands) : Foreign bound x :=
  h x (List.mem_flatMap.mpr ⟨e, mem_nodes.mpr .refl, hx⟩)

/-- The place of a tree that names no temporary variable is none. -/
theorem place (h : e.Avoids bound) {x : String} (hplace : e.place = some x) : Foreign bound x := by
  -- the place of a node is a constant, an operand of its own, or the place of a part
  induction e using children_induction with
  | step e ih =>
    have hpart : ∀ part ∈ e.children, part.place = some x → Foreign bound x :=
      fun part hmem => ih part hmem (h.child hmem)
    cases e with
    | null =>
      cases hplace
      exact foreign_of_isVariable_eq_false rfl
    | bool value =>
      cases hplace
      exact foreign_of_isVariable_eq_false (by cases value <;> rfl)
    | var name =>
      cases hplace
      exact h.own List.mem_cons_self
    | builtin name | assignBuiltin name value =>
      cases hplace
      exact foreign_of_isVariable_eq_false (isVariable_builtin name)
    | seq rest last => exact hpart last (by simp [children, parts]) hplace
    | loop cond body => exact hpart body (by simp [children, parts]) hplace
    | assign name value => exact hpart value (by simp [children, parts]) hplace
    | store cell address value => exact hpart value (by simp [children, parts]) hplace
    | control property target value => exact hpart value (by simp [children, parts]) hplace
    | call name args =>
      rw [children_call] at hpart
      rw [Expr.place] at hplace
      cases hname : Intrinsic.ofName? name with
      | none => simp [hname] at hplace
      | some fn =>
        simp only [hname, places_eq_map] at hplace
        rcases fn.result_mem (some "null") none (args.map Expr.place) with ⟨hnone, _⟩ | hmem
        · exact absurd (hplace.symm.trans hnone) (by simp)
        · rw [hplace, List.mem_cons, Option.some.injEq, List.mem_map] at hmem
          rcases hmem with rfl | ⟨arg, harg, hplace⟩
          · exact foreign_of_isVariable_eq_false rfl
          · exact hpart arg harg hplace
    | _ => exact absurd hplace (by simp [Expr.place])

end Avoids

end Expr

end Mlog
