import Mathlib.Logic.Function.Basic
import LetPoly.Proofs.Unification
import LetPoly.Ty.Rename

/-!
Unification does not look at the names of variables. Under a renaming that maps different variables to
different ones an equation asks for the renamed move (`move_rename`), so that the worklist fails with
the renamed error or gives a solution that is renamed in the same way (`solve_rename`,
`unify_rename`).
-/
namespace LetPoly

namespace Ty
variable {ρ : TyVar → TyVar}

@[simp] theorem rename_prim (p : Prim) : (Ty.prim p).rename ρ = .prim p :=
  rfl

@[simp] theorem rename_var (v : TyVar) : (Ty.var v).rename ρ = .var (ρ v) :=
  rfl

@[simp] theorem rename_wrap (w : Wrapper) (t : Ty) : (Ty.wrap w t).rename ρ = .wrap w (t.rename ρ) :=
  rfl

@[simp] theorem rename_func (a b : Ty) : (Ty.func a b).rename ρ = .func (a.rename ρ) (b.rename ρ) :=
  rfl

@[simp] theorem rename_tuple (a b : Ty) (ts : List Ty) :
    (Ty.tuple a b ts).rename ρ = .tuple (a.rename ρ) (b.rename ρ) (ts.map (rename ρ)) := by
  simp only [rename, bind, bindList_eq_map]
  rfl

theorem mem_freeVars_rename {t : Ty} {w : TyVar} : w ∈ (t.rename ρ).freeVars ↔ ∃ v ∈ t.freeVars, ρ v = w := by
  simp only [rename, mem_freeVars_bind, mem_freeVars_var, eq_comm (a := w)]

theorem mem_freeVars_rename_injective (injective : Function.Injective ρ) {t : Ty} {v : TyVar} :
    ρ v ∈ (t.rename ρ).freeVars ↔ v ∈ t.freeVars := by
  rw [mem_freeVars_rename]
  constructor
  · rintro ⟨w, member, same⟩
    exact injective same ▸ member
  · intro member
    exact ⟨v, member, rfl⟩

theorem rename_congr {π : TyVar → TyVar} {t : Ty} (same : ∀ v ∈ t.freeVars, ρ v = π v) : t.rename ρ = t.rename π :=
  bind_congr fun v member => congrArg Ty.var (same v member)

theorem rename_rename {π : TyVar → TyVar} (t : Ty) : (t.rename ρ).rename π = t.rename fun v => π (ρ v) :=
  bind_bind _ _ t

theorem rename_id (t : Ty) : t.rename (fun v => v) = t :=
  bind_var t

/-- Replacing the variables of a renamed type. -/
theorem bind_rename (f : TyVar → Ty) (t : Ty) : (t.rename ρ).bind f = t.bind fun v => f (ρ v) :=
  bind_bind _ _ t

/-- Renaming what is put for variables. -/
theorem rename_bind (f : TyVar → Ty) (t : Ty) : (t.bind f).rename ρ = t.bind fun v => (f v).rename ρ :=
  bind_bind _ _ t

theorem rename_injective (injective : Function.Injective ρ) : Function.Injective (rename ρ) := by
  have undo (t : Ty) : (t.rename ρ).rename (Function.invFun ρ) = t := by
    rw [rename_rename]
    exact (rename_congr fun v _ => Function.leftInverse_invFun injective v).trans (rename_id t)
  exact Function.LeftInverse.injective undo

end Ty

namespace Subst

/-- What `r` puts for a renamed variable is what `s` puts for the variable, renamed. -/
def Renames (ρ : TyVar → TyVar) (s r : Subst) : Prop :=
  ∀ v, r.value (ρ v) = (s.value v).rename ρ

section
variable {ρ : TyVar → TyVar} {s r s' r' : Subst}

theorem renames_empty (ρ : TyVar → TyVar) : Renames ρ ∅ ∅ := by
  intro v
  rw [value_empty, value_empty, Ty.rename_var]

theorem renames_single (injective : Function.Injective ρ) (v : TyVar) (t : Ty) :
    Renames ρ (single v t) (single (ρ v) (t.rename ρ)) := by
  intro w
  simp only [value_single, injective.eq_iff]
  split <;> rfl

theorem Renames.apply (renames : Renames ρ s r) (t : Ty) : r.apply (t.rename ρ) = (s.apply t).rename ρ := by
  rw [apply_eq_bind, apply_eq_bind, Ty.bind_rename, Ty.rename_bind]
  simp only [renames _]

theorem Renames.after (outer : Renames ρ s' r') (inner : Renames ρ s r) : Renames ρ (s'.after s) (r'.after r) := by
  intro v
  rw [value_after, value_after, inner v, ← apply_eq_bind, outer.apply, apply_eq_bind]

end

end Subst

/-- Renames the variables that an error mentions. -/
def UnifyError.rename (ρ : TyVar → TyVar) : UnifyError → UnifyError
  | .mismatch expected found => .mismatch (expected.rename ρ) (found.rename ρ)
  | .infinite v t => .infinite (ρ v) (t.rename ρ)

namespace Unify
variable {ρ : TyVar → TyVar}

/-- Renames the variables of equations. -/
def rename (ρ : TyVar → TyVar) (equations : List Equation) : List Equation :=
  equations.map fun (a, b) => (a.rename ρ, b.rename ρ)

/-- Renames the variables that a move mentions. -/
def Move.rename (ρ : TyVar → TyVar) : Move → Move
  | .bind v t => .bind (ρ v) (t.rename ρ)
  | .split parts => .split (Unify.rename ρ parts)

theorem rename_zip (ts us : List Ty) :
    Unify.rename ρ (ts.zip us) = (ts.map (Ty.rename ρ)).zip (us.map (Ty.rename ρ)) :=
  List.zip_map.symm

theorem rename_append (xs ys : List Equation) :
    Unify.rename ρ (xs ++ ys) = Unify.rename ρ xs ++ Unify.rename ρ ys :=
  List.map_append

theorem apply_rename {s r : Subst} (renames : s.Renames ρ r) (equations : List Equation) :
    apply r (Unify.rename ρ equations) = Unify.rename ρ (apply s equations) := by
  simp only [apply, Unify.rename, List.map_map]
  refine List.map_congr_left fun e _ => ?_
  simp only [Function.comp_apply, renames.apply]

theorem occurs_rename (injective : Function.Injective ρ) (t : Ty) (v : TyVar) :
    (t.rename ρ).occurs (ρ v) = t.occurs v := by
  rw [Bool.eq_iff_iff, ← Ty.mem_freeVars_iff, ← Ty.mem_freeVars_iff, Ty.mem_freeVars_rename_injective injective]

theorem bindVar_rename (injective : Function.Injective ρ) (v : TyVar) (t : Ty) :
    bindVar (ρ v) (t.rename ρ) = ((bindVar v t).map (Move.rename ρ)).mapError (UnifyError.rename ρ) := by
  unfold bindVar
  rw [occurs_rename injective]
  split <;> rfl

/-- A renamed equation asks for the renamed move. -/
theorem move_rename (injective : Function.Injective ρ) (a b : Ty) :
    move (a.rename ρ) (b.rename ρ) = ((move a b).map (Move.rename ρ)).mapError (UnifyError.rename ρ) := by
  fun_cases move a b with
  | case1 v => rw [Ty.rename_var, move, if_pos rfl]; rfl
  | case2 v _ other =>
    have other : b.rename ρ ≠ .var (ρ v) := fun same => other (Ty.rename_injective injective same)
    rw [Ty.rename_var, move, if_neg other, bindVar_rename injective]
  | case3 _ v other =>
    rw [← bindVar_rename injective]
    cases a with
    | var w => exact (other w rfl).elim
    | tuple c d ts => rw [Ty.rename_tuple, Ty.rename_var, move]; nofun
    | _ => rfl
  | case4 q => exact if_pos rfl
  | case5 p q differ => exact if_neg differ
  | case6 t w u => exact if_pos rfl
  | case7 w t x u differ => exact if_neg differ
  | case8 a b c d => rfl
  | case9 a b ts c d us length =>
    simp only [Ty.rename_tuple, move, List.length_map, if_pos length, ← rename_zip]
    rfl
  | case10 a b ts c d us length =>
    simp only [Ty.rename_tuple, move, List.length_map, if_neg length]
    exact congrArg Except.error (congrArg₂ UnifyError.mismatch (Ty.rename_tuple a b ts).symm (Ty.rename_tuple c d us).symm)
  | case11 _ _ noVar noVar' noPrim noWrap noFunc noTuple =>
    cases a with
    | var v => exact (noVar v rfl).elim
    | prim p =>
      cases b with
      | var v => exact (noVar' v rfl).elim
      | prim q => exact (noPrim p q rfl rfl).elim
      | _ => rfl
    | wrap w t =>
      cases b with
      | var v => exact (noVar' v rfl).elim
      | wrap x u => exact (noWrap w t x u rfl rfl).elim
      | _ => rfl
    | func a a' =>
      cases b with
      | var v => exact (noVar' v rfl).elim
      | func c d => exact (noFunc a a' c d rfl rfl).elim
      | _ => rfl
    | tuple a a' ts =>
      cases b with
      | var v => exact (noVar' v rfl).elim
      | tuple c d us => exact (noTuple a a' ts c d us rfl rfl).elim
      | _ => rfl

/-- The renamed worklist fails with the renamed error, or its solution is renamed. -/
theorem solve_rename (injective : Function.Injective ρ) (equations : List Equation) :
    match solve equations with
    | .ok s => ∃ r, solve (rename ρ equations) = .ok r ∧ s.Renames ρ r
    | .error e => solve (rename ρ equations) = .error (e.rename ρ) := by
  fun_induction solve equations with
  | case1 => exact ⟨∅, by rw [rename, List.map_nil, solve], Subst.renames_empty ρ⟩
  | case2 a b rest e found =>
    have renamed := move_rename injective a b
    rw [found] at renamed
    exact solve_error renamed _
  | case3 a b rest parts found ih =>
    have renamed := move_rename injective a b
    rw [found] at renamed
    have next : solve (rename ρ ((a, b) :: rest)) = solve (rename ρ (parts ++ rest)) := by
      rw [rename_append]
      exact solve_split renamed _
    rw [next]
    exact ih
  | case4 a b rest v t found ih =>
    have renamed := move_rename injective a b
    rw [found] at renamed
    have single := Subst.renames_single injective v t
    have next : solve (rename ρ ((a, b) :: rest)) =
        (solve (rename ρ (apply (.single v t) rest))).map fun s => s.after (.single (ρ v) (t.rename ρ)) := by
      rw [← apply_rename single]
      exact solve_bind renamed _
    rw [next]
    cases solved : solve (apply (.single v t) rest) with
    | error e =>
      rw [solved] at ih
      rw [ih]
      rfl
    | ok s =>
      rw [solved] at ih
      obtain ⟨r, same, renames⟩ := ih
      rw [same]
      exact ⟨_, rfl, renames.after single⟩

end Unify

namespace TypeError
variable {ρ : TyVar → TyVar}

theorem ofUnify_rename (span : Span) (e : UnifyError) : ofUnify span (e.rename ρ) = (ofUnify span e).rename ρ := by
  cases e <;> rfl

theorem withNote_rename (note : String) (e : TypeError) : (e.rename ρ).withNote note = (e.withNote note).rename ρ := by
  obtain ⟨cause, span⟩ := e
  cases cause <;> rfl

end TypeError

/-- Unification of renamed types fails with the renamed error, or its solution is renamed. -/
theorem unify_rename {ρ : TyVar → TyVar} (injective : Function.Injective ρ) (a b : Ty) :
    match unify a b with
    | .ok s => ∃ r, unify (a.rename ρ) (b.rename ρ) = .ok r ∧ s.Renames ρ r
    | .error e => unify (a.rename ρ) (b.rename ρ) = .error (e.rename ρ) := by
  rw [unify_eq_solve, unify_eq_solve]
  exact Unify.solve_rename injective [(a, b)]

end LetPoly
