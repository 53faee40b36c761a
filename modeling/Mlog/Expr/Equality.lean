import Mlog.Expr

/-! # Equality of trees

    Two trees are compared part by part.  Main statement: the comparison
    decides equality (`same_eq_true_iff`). -/

namespace Mlog.Expr

mutual

/-- Are two trees the same? -/
def same : Expr → Expr → Bool
  | null, null => true
  | bool a, bool b => a == b
  | num a, num b => a == b
  | str a, str b => a == b
  | var a, var b => a == b
  | builtin a, builtin b => a == b
  | seq a₁ a₂, seq b₁ b₂ => same a₁ b₁ && same a₂ b₂
  | branch a₁ a₂ a₃, branch b₁ b₂ b₃ => same a₁ b₁ && same a₂ b₂ && same a₃ b₃
  | loop a₁ a₂, loop b₁ b₂ => same a₁ b₁ && same a₂ b₂
  | select a₁ as a₂, select b₁ bs b₂ => same a₁ b₁ && sameArms as bs && same a₂ b₂
  | assign n a, assign m b => n == m && same a b
  | assignBuiltin n a, assignBuiltin m b => n == m && same a b
  | load c a, load d b => c == d && same a b
  | store c a₁ a₂, store d b₁ b₂ => c == d && same a₁ b₁ && same a₂ b₂
  | control p t a, control q u b => p == q && t == u && same a b
  | sensor t s, sensor u r => t == u && s == r
  | unary o a, unary p b => o == p && same a b
  | binary o a₁ a₂, binary p b₁ b₂ => o == p && same a₁ b₁ && same a₂ b₂
  | call n as, call m bs => n == m && sameArgs as bs
  | comment a, comment b => a == b
  | nop, nop => true
  | _, _ => false

/-- Are two argument lists the same? -/
def sameArgs : List Expr → List Expr → Bool
  | [], [] => true
  | a :: as, b :: bs => same a b && sameArgs as bs
  | _, _ => false

/-- Are two lists of arms the same? -/
def sameArms : List (Expr × Expr) → List (Expr × Expr) → Bool
  | [], [] => true
  | (p, a) :: as, (q, b) :: bs => same p q && same a b && sameArms as bs
  | _, _ => false

end

/-- Trees that pass the comparison are equal. -/
theorem eq_of_same : ∀ a b : Expr, same a b = true → a = b := by
  apply same.induct (fun a b => same a b = true → a = b)
    (fun as bs => sameArgs as bs = true → as = bs) (fun as bs => sameArms as bs = true → as = bs)
  all_goals intros; simp_all [same, sameArgs, sameArms]

theorem sameArgs_self {as : List Expr} (h : ∀ a ∈ as, same a a = true) :
    sameArgs as as = true := by
  induction as with
  | nil => rfl
  | cons a as ih =>
    obtain ⟨ha, has⟩ := List.forall_mem_cons.mp h
    simp [sameArgs, ha, ih has]

theorem sameArms_self {as : List (Expr × Expr)}
    (h : ∀ a ∈ as, same a.1 a.1 = true ∧ same a.2 a.2 = true) : sameArms as as = true := by
  induction as with
  | nil => rfl
  | cons a as ih =>
    obtain ⟨ha, has⟩ := List.forall_mem_cons.mp h
    simp [sameArms, ha.1, ha.2, ih has]

/-- A tree passes the comparison with itself. -/
theorem same_self (a : Expr) : same a a = true := by
  induction a with
  | select subject arms otherwise hs harms ho => simp [same, hs, ho, sameArms_self harms]
  | call name args hargs => simp [same, sameArgs_self hargs]
  | _ => simp_all [same]

/-- The comparison decides equality. -/
theorem same_eq_true_iff (a b : Expr) : same a b = true ↔ a = b :=
  ⟨eq_of_same a b, fun h => h ▸ same_self a⟩

instance : DecidableEq Expr := fun a b => decidable_of_iff _ (same_eq_true_iff a b)

end Mlog.Expr
