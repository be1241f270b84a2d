import LetPoly.Ty.Text
import LetPoly.Ty.Vars

/-!
Unification by a worklist. Equations are taken from its left: a move either splits an equation into
the equations of its parts or binds a variable, and a binding is applied to everything that waits.
When a variable meets a variable the left one is bound. A run ends because a binding removes a
variable and a split makes the worklist smaller.
-/
namespace LetPoly

/-- Two types that are to become equal. -/
abbrev Equation := Ty × Ty

/-- Why two types have no common instance. -/
inductive UnifyError where
  /-- Two types of different shape. -/
  | mismatch (expected found : Ty)
  /-- A variable that would stand for a type in which it occurs. -/
  | infinite (v : TyVar) (t : Ty)
  deriving DecidableEq, Repr

/-- The message for the user. -/
def UnifyError.message : UnifyError → String
  | .mismatch expected found => "type mismatch: expected " ++ expected.text ++ ", found " ++ found.text
  | .infinite v t => "occurs check: cannot construct infinite type " ++ v.text ++ " = " ++ t.text

namespace Unify

/-- What is done with an equation. -/
inductive Move where
  /-- The variable stands for the type from here on. -/
  | bind (v : TyVar) (t : Ty)
  /-- The equation holds if these do. -/
  | split (parts : List Equation)
  deriving DecidableEq, Repr

/-- Binds a variable to a type in which it does not occur. -/
def bindVar (v : TyVar) (t : Ty) : Except UnifyError Move :=
  if t.occurs v then .error (.infinite v t) else .ok (.bind v t)

/-- The move that an equation asks for. -/
def move : Ty → Ty → Except UnifyError Move
  | .var v, t => if t = .var v then .ok (.split []) else bindVar v t
  | t, .var v => bindVar v t
  | .prim p, .prim q => if p = q then .ok (.split []) else .error (.mismatch (.prim p) (.prim q))
  | .wrap w t, .wrap x u =>
    if w = x then .ok (.split [(t, u)]) else .error (.mismatch (.wrap w t) (.wrap x u))
  | .func a b, .func c d => .ok (.split [(a, c), (b, d)])
  | .tuple a b ts, .tuple c d us =>
    if ts.length = us.length then .ok (.split ((a, c) :: (b, d) :: ts.zip us))
    else .error (.mismatch (.tuple a b ts) (.tuple c d us))
  | t, u => .error (.mismatch t u)

/-- The variables of a list of equations. -/
def vars : List Equation → VarSet
  | [] => ∅
  | (a, b) :: rest => a.freeVars ∪ b.freeVars ∪ vars rest

/-- The number of nodes of a list of equations. -/
def size : List Equation → Nat
  | [] => 0
  | (a, b) :: rest => a.size + b.size + size rest

/-- Applies a substitution to both sides of every equation. -/
def apply (s : Subst) (equations : List Equation) : List Equation :=
  equations.map fun (a, b) => (s.apply a, s.apply b)

theorem mem_vars {v : TyVar} {equations : List Equation} :
    v ∈ vars equations ↔ ∃ e ∈ equations, v ∈ e.1.freeVars ∨ v ∈ e.2.freeVars := by
  induction equations with
  | nil => simp [vars]
  | cons e rest ih => simp [vars, Std.ExtTreeSet.mem_union_iff, ih]

theorem size_append (xs ys : List Equation) : size (xs ++ ys) = size xs + size ys := by
  induction xs with
  | nil => simp [size]
  | cons e rest ih => simp [size, ih, Nat.add_assoc]

theorem size_zip_le (ts us : List Ty) : size (ts.zip us) ≤ Ty.sizeList ts + Ty.sizeList us := by
  induction ts generalizing us with
  | nil => simp [size]
  | cons t ts ih =>
    cases us with
    | nil => simp [size]
    | cons u us =>
      have := ih us
      simp only [List.zip_cons_cons, size, Ty.sizeList]
      omega

/-- A bound variable is one side of the equation and does not occur in the other, to which it is
    bound. -/
theorem move_bind {a b t : Ty} {v : TyVar} (h : move a b = .ok (.bind v t)) :
    t.occurs v = false ∧ (a = .var v ∧ b = t ∨ a = t ∧ b = .var v) := by
  unfold move bindVar at h
  grind

/-- The parts of an equation are smaller and bring no new variable. -/
theorem move_split {a b : Ty} {parts : List Equation} (h : move a b = .ok (.split parts)) :
    size parts < a.size + b.size ∧ ∀ v ∈ vars parts, v ∈ a.freeVars ∨ v ∈ b.freeVars := by
  unfold move bindVar at h
  split at h
  · split at h
    · cases h; simp [size, vars, Ty.size, Nat.add_comm 1]
    · split at h <;> cases h
  · split at h <;> cases h
  · split at h <;> cases h
    simp [size, vars, Ty.size]
  · split at h <;> cases h
    exact ⟨by simp only [size, Ty.size]; omega, by simp [vars, Ty.freeVars, Std.ExtTreeSet.mem_union_iff]⟩
  · cases h
    refine ⟨by simp only [size, Ty.size]; omega, ?_⟩
    simp only [vars, Ty.freeVars, Std.ExtTreeSet.mem_union_iff, Std.ExtTreeSet.not_mem_empty]
    grind
  · rename_i a b ts c d us
    split at h <;> cases h
    constructor
    · have := size_zip_le ts us
      simp only [size, Ty.size]
      omega
    · intro v member
      simp only [vars, Std.ExtTreeSet.mem_union_iff, mem_vars] at member
      simp only [Ty.freeVars, Std.ExtTreeSet.mem_union_iff, Ty.mem_freeVarsList]
      rcases member with (h | h) | (h | h) | ⟨⟨t, u⟩, pair, h | h⟩
      · exact .inl (.inl (.inl h))
      · exact .inr (.inl (.inl h))
      · exact .inl (.inl (.inr h))
      · exact .inr (.inl (.inr h))
      · exact .inl (.inr ⟨t, (List.of_mem_zip pair).1, h⟩)
      · exact .inr (.inr ⟨u, (List.of_mem_zip pair).2, h⟩)
  · cases h

/-- A set inside another is not larger. -/
theorem size_le_of_subset {xs ys : VarSet} (inside : ∀ w ∈ xs, w ∈ ys) : xs.size ≤ ys.size := by
  have same : ys ∩ xs = xs := Std.ExtTreeSet.ext_mem fun w => by
    rw [Std.ExtTreeSet.mem_inter_iff]
    exact ⟨And.right, fun member => ⟨inside w member, member⟩⟩
  exact same ▸ Std.ExtTreeSet.size_inter_le_size_left

/-- A set inside another that has a further member is smaller. -/
theorem size_lt_of_subset {xs ys : VarSet} {v : TyVar} (member : v ∈ ys)
    (inside : ∀ w ∈ xs, w ≠ v ∧ w ∈ ys) : xs.size < ys.size := by
  have bound : xs.size ≤ (ys.erase v).size := size_le_of_subset fun w found => by
    rw [Std.ExtTreeSet.mem_erase]
    exact ⟨fun same => (inside w found).1 (Std.LawfulEqCmp.compare_eq_iff_eq.mp same).symm, (inside w found).2⟩
  have drop := @Std.ExtTreeSet.size_erase _ _ ys _ v
  rw [if_pos (Std.ExtTreeSet.contains_iff_mem.mpr member)] at drop
  have : 0 < ys.size := Nat.pos_of_ne_zero fun none =>
    Std.ExtTreeSet.not_mem_empty (Std.ExtTreeSet.eq_empty_iff_size_eq_zero.mpr none ▸ member)
  omega

/-- What shrinks along a run: the number of variables, or with the same number the nodes. -/
abbrev weight (equations : List Equation) : Nat × Nat :=
  ((vars equations).size, size equations)

theorem weight_split {a b : Ty} {parts rest : List Equation} (h : move a b = .ok (.split parts)) :
    Prod.Lex (· < ·) (· < ·) (weight (parts ++ rest)) (weight ((a, b) :: rest)) := by
  obtain ⟨smaller, inside⟩ := move_split h
  have fewer : (vars (parts ++ rest)).size ≤ (vars ((a, b) :: rest)).size := by
    apply size_le_of_subset
    intro v member
    obtain ⟨e, found, here⟩ := mem_vars.mp member
    rcases List.mem_append.mp found with found | found
    · exact mem_vars.mpr ⟨(a, b), List.mem_cons_self, inside v (mem_vars.mpr ⟨e, found, here⟩)⟩
    · exact mem_vars.mpr ⟨e, List.mem_cons_of_mem _ found, here⟩
  have less : size (parts ++ rest) < size ((a, b) :: rest) := by
    rw [size_append]
    exact Nat.add_lt_add_right smaller _
  exact Prod.Lex.right' _ fewer less

/-- Replacing `v` by a type without `v` takes `v` from the equations, and adds nothing but the
    variables of that type. -/
theorem mem_vars_apply_single {v w : TyVar} {t : Ty} {equations : List Equation} (fresh : v ∉ t.freeVars)
    (found : w ∈ vars (apply (.single v t) equations)) : w ≠ v ∧ (w ∈ t.freeVars ∨ w ∈ vars equations) := by
  obtain ⟨_, member, here⟩ := mem_vars.mp found
  obtain ⟨⟨c, d⟩, waits, rfl⟩ := List.mem_map.mp member
  rcases here with here | here
  · obtain ⟨other, from'⟩ := Subst.mem_freeVars_apply_single fresh here
    exact ⟨other, from'.imp_right fun inside => mem_vars.mpr ⟨(c, d), waits, .inl inside⟩⟩
  · obtain ⟨other, from'⟩ := Subst.mem_freeVars_apply_single fresh here
    exact ⟨other, from'.imp_right fun inside => mem_vars.mpr ⟨(c, d), waits, .inr inside⟩⟩

/-- The bound variable and those of the type that it is bound to are variables of the equation. -/
theorem move_bind_vars {a b t : Ty} {v : TyVar} (h : move a b = .ok (.bind v t)) (rest : List Equation) :
    v ∈ vars ((a, b) :: rest) ∧ ∀ w ∈ t.freeVars, w ∈ vars ((a, b) :: rest) := by
  obtain ⟨_, sides⟩ := move_bind h
  have here (w : TyVar) (side : w ∈ a.freeVars ∨ w ∈ b.freeVars) : w ∈ vars ((a, b) :: rest) :=
    mem_vars.mpr ⟨(a, b), List.mem_cons_self, side⟩
  rcases sides with ⟨rfl, rfl⟩ | ⟨rfl, rfl⟩
  · exact ⟨here v (.inl (by simp)), fun w inside => here w (.inr inside)⟩
  · exact ⟨here v (.inr (by simp)), fun w inside => here w (.inl inside)⟩

theorem weight_bind {a b t : Ty} {v : TyVar} {rest : List Equation} (h : move a b = .ok (.bind v t)) :
    Prod.Lex (· < ·) (· < ·) (weight (apply (.single v t) rest)) (weight ((a, b) :: rest)) := by
  have missing : v ∉ t.freeVars := fun member => by
    have := (move_bind h).1
    simp [Ty.mem_freeVars_iff.mp member] at this
  obtain ⟨bound, inside⟩ := move_bind_vars h rest
  apply Prod.Lex.left
  apply size_lt_of_subset bound
  intro w member
  obtain ⟨other, from'⟩ := mem_vars_apply_single missing member
  refine ⟨other, ?_⟩
  rcases from' with from' | from'
  · exact inside w from'
  · obtain ⟨e, waits, here⟩ := mem_vars.mp from'
    exact mem_vars.mpr ⟨e, List.mem_cons_of_mem _ waits, here⟩

/-- The most general substitution that makes both sides of every equation equal, or the first
    equation that cannot hold. -/
def solve : List Equation → Except UnifyError Subst
  | [] => .ok ∅
  | (a, b) :: rest =>
    match _h : move a b with
    | .error e => .error e
    | .ok (.split parts) => solve (parts ++ rest)
    | .ok (.bind v t) => do
      let s ← solve (apply (.single v t) rest)
      return s.after (.single v t)
termination_by equations => weight equations
decreasing_by
  · exact weight_split _h
  · exact weight_bind _h

theorem solve_error {a b : Ty} {e : UnifyError} (h : move a b = .error e) (rest : List Equation) :
    solve ((a, b) :: rest) = .error e := by
  rw [solve]
  split <;> simp_all

theorem solve_split {a b : Ty} {parts : List Equation} (h : move a b = .ok (.split parts))
    (rest : List Equation) : solve ((a, b) :: rest) = solve (parts ++ rest) := by
  rw [solve]
  split <;> simp_all

theorem solve_bind {a b t : Ty} {v : TyVar} (h : move a b = .ok (.bind v t)) (rest : List Equation) :
    solve ((a, b) :: rest) = (solve (apply (.single v t) rest)).map fun s => s.after (.single v t) := by
  rw [solve]
  split <;> simp_all
  rfl

/-- The equations that are taken from the worklist, in order, up to the end or the first that cannot
    hold. -/
def visited : List Equation → List Equation
  | [] => []
  | (a, b) :: rest =>
    (a, b) ::
      match _h : move a b with
      | .error _ => []
      | .ok (.split parts) => visited (parts ++ rest)
      | .ok (.bind v t) => visited (apply (.single v t) rest)
termination_by equations => weight equations
decreasing_by
  · exact weight_split _h
  · exact weight_bind _h

theorem visited_error {a b : Ty} {e : UnifyError} (h : move a b = .error e) (rest : List Equation) :
    visited ((a, b) :: rest) = [(a, b)] := by
  rw [visited]
  split <;> simp_all

theorem visited_split {a b : Ty} {parts : List Equation} (h : move a b = .ok (.split parts))
    (rest : List Equation) : visited ((a, b) :: rest) = (a, b) :: visited (parts ++ rest) := by
  rw [visited]
  split <;> simp_all

theorem visited_bind {a b t : Ty} {v : TyVar} (h : move a b = .ok (.bind v t)) (rest : List Equation) :
    visited ((a, b) :: rest) = (a, b) :: visited (apply (.single v t) rest) := by
  rw [visited]
  split <;> simp_all

end Unify

end LetPoly
