import LetPoly.Proofs.Soundness

/-!
The variables that inference of an expression brings in, and the form of what it solves. Where no named
variable has been read before, all types that named variables are read as speak of variables that are
free in the environment or new: what one step keeps (`Step.within`) carries over to a run
(`Path.within`). So do the types and the substitution that are inferred, and no variable that has been
replaced is left in them (`inferExpr_solved_form`).
-/
namespace LetPoly

namespace Env
variable {Γ : Env} {v : TyVar}

theorem mem_mentioned :
    v ∈ Γ.mentioned ↔ ∃ (name : String) (σ : Scheme), Γ[name]? = some σ ∧ (v ∈ σ.ty.freeVars ∨ v ∈ σ.vars) := by
  simp [mentioned, Std.ExtTreeMap.mem_toList_iff_getElem?_eq_some]

theorem mem_mentioned_of_free (free : v ∈ Γ.freeVars) : v ∈ Γ.mentioned := by
  obtain ⟨name, σ, look, free⟩ := mem_freeVars.mp free
  exact mem_mentioned.mpr ⟨name, σ, look, .inl (Scheme.mem_freeVars.mp free).1⟩

end Env

namespace State

/-- No solved variable is left in what is known of a variable. -/
theorem Consistent.apply_value {st : State} (consistent : st.Consistent) (v : TyVar) :
    st.solved.apply (st.solved.value v) = st.solved.value v := by
  by_cases key : v ∈ st.solved
  · have live := Infer.live_value consistent (consistent.keys v key)
    exact Subst.apply_eq_self fun w member => (live w member).2
  · rw [Subst.value_of_notMem key, Subst.apply_eq_bind, Ty.bind, Subst.value_of_notMem key]

/-- What is known of the named variables speaks of variables in `P` only. -/
def NamesIn (P : TyVar → Prop) (st : State) : Prop :=
  ∀ (name : String) (v : TyVar), st.named[name]? = some v → (st.solved.value v).In P

section
variable {K P : TyVar → Prop} {st st' : State}

/-- A step from what lies in `P`, with new variables in `P`, does not lead out of it. -/
theorem Step.within (step : Step K st st') (consistent : st.Consistent) (known : ∀ v, K v → P v) (new : P st.next)
    (names : st.NamesIn P) : (∀ v, st.Reads st' v → P v) ∧ st'.NamesIn P := by
  have unread (quiet : st.Unread st') (v : TyVar) (read : st.Reads st' v) : P v :=
    absurd read (quiet.2.not_reads v)
  cases step with
  | supply _ => exact ⟨unread (unread_same rfl), names⟩
  | note silent => exact ⟨unread (unread_append rfl silent), names⟩
  | @solve a b s left right solution =>
    refine ⟨unread (unread_append rfl (by simp)), fun name v found w stands => ?_⟩
    rw [Subst.value_after] at stands
    obtain ⟨x, member, stands⟩ := Ty.mem_freeVars_bind.mp stands
    cases key : s[x]? with
    | none =>
      rw [Subst.value, key, Option.getD_none, Ty.mem_freeVars_var] at stands
      exact stands ▸ names name v found x member
    | some t =>
      rw [Subst.value, key, Option.getD_some] at stands
      exact known w (((unify_inside solution key).2 w stands).elim (left w) (right w))
  | @reread name v found =>
    refine ⟨?_, names⟩
    rintro w ⟨event, member, read⟩
    rw [news_append rfl, List.mem_singleton] at member
    subst member
    exact names name v found w read
  | @read name unknown =>
    constructor
    · rintro w ⟨event, member, read⟩
      rw [news_append rfl, List.mem_singleton] at member
      subst member
      rw [Event.Reads, Ty.mem_freeVars_var] at read
      exact read ▸ new
    · intro other v found
      rw [Std.ExtTreeMap.getElem?_insert] at found
      split at found
      · cases found
        rw [Subst.value_of_notMem (Infer.live_next consistent), Ty.in_var]
        exact new
      · exact names other v found

/-- A run from what lies in `P`, with new variables in `P`, does not lead out of it. -/
theorem Path.within (path : Path K st st') (known : ∀ v, K v → P v) (new : ∀ v, st.next ≤ v → P v)
    (names : st.NamesIn P) : (∀ v, st.Reads st' v → P v) ∧ st'.NamesIn P := by
  induction path with
  | refl => exact ⟨fun v read => absurd read ((silent_self st).not_reads v), names⟩
  | @tail st₁ st₂ path consistent step ih =>
    obtain ⟨reads, names₁⟩ := ih
    have fits (v : TyVar) (fits : Fits K st st₁ v) : P v := fits.2.elim (known v) fun met => met.elim (new v) (reads v)
    obtain ⟨reads₁, names₂⟩ := step.within consistent fits (new _ path.next) names₁
    refine ⟨?_, names₂⟩
    rintro v ⟨event, member, read⟩
    rw [news_trans path.before step.before, List.mem_append] at member
    rcases member with member | member
    · exact reads v ⟨event, member, read⟩
    · exact reads₁ v ⟨event, member, read⟩

end

end State

namespace Infer
open State

/-- The variable is free in the environment, or has been given out from `n` on and is below `n'`. -/
def Given (Γ : Env) (n n' : Nat) (v : TyVar) : Prop :=
  v ∈ Γ.freeVars ∨ n ≤ v ∧ v < n'

/-- The form of what is inferred in an environment while variables are given out from `n` on, up to
    `n'`: only given variables occur, and none that is replaced is left. -/
structure SolvedForm (Γ : Env) (n n' : Nat) (s : Subst) (t : Ty) : Prop where
  supply : n ≤ n'
  keys : ∀ k ∈ s, Given Γ n n' k
  values : ∀ (k : TyVar) (u : Ty), s[k]? = some u → u.In (Given Γ n n')
  type : t.In (Given Γ n n')
  apart : ∀ k ∈ s, k ∉ t.freeVars ∧ ∀ (j : TyVar) (u : Ty), s[j]? = some u → k ∉ u.freeVars
  idempotent : ∀ u, s.apply (s.apply u) = s.apply u
  fixed : s.apply t = t

section
variable {Γ : Env} {st st' : State} {s : Subst} {t : Ty}

/-- In an environment below the supply its free variables are known at the start of an item. -/
theorem scope_of_below (below : Γ.Below st.next) (unnamed : st.named = ∅) (unsolved : st.solved = ∅) :
    Scope (· ∈ Γ.freeVars) st where
  consistent := ⟨by simp [unsolved], by simp [unsolved], by simp [unnamed]⟩
  live v free := ⟨below v (Env.mem_mentioned_of_free free), by simp [unsolved]⟩

/-- A step from the start of an item speaks of given variables only. -/
theorem given_of_reach (reach : Reach (· ∈ Γ.freeVars) st s st') (unnamed : st.named = ∅) {v : TyVar}
    (met : Met (· ∈ Γ.freeVars) st st' v) (below : v < st'.next) : Given Γ st.next st'.next v := by
  obtain ⟨reads, _⟩ := reach.path.within (P := fun v => v ∈ Γ.freeVars ∨ st.next ≤ v) (fun _ => .inl) (fun _ => .inr)
    (by simp [NamesIn, unnamed])
  have given : v ∈ Γ.freeVars ∨ st.next ≤ v := met.elim .inl fun met => met.elim .inr (reads v)
  exact given.imp_right fun new => ⟨new, below⟩

/-- A step from the start of an item leaves the solved form behind. -/
theorem solvedForm_of_reach (reach : Reach (· ∈ Γ.freeVars) st s st') (unnamed : st.named = ∅) (unsolved : st.solved = ∅)
    (known : t.In (Fits (· ∈ Γ.freeVars) st st')) : SolvedForm Γ st.next st'.next s t := by
  have solved : st'.solved = s := by rw [reach.solved, unsolved, Subst.after_empty]
  have missing {u : Ty} (inside : u.In (Fits (· ∈ Γ.freeVars) st st')) {k : TyVar} (key : k ∈ s) : k ∉ u.freeVars :=
    fun member => (inside k member).1.2 (solved ▸ key)
  have fits {v : TyVar} (fits : Fits (· ∈ Γ.freeVars) st st' v) : Given Γ st.next st'.next v :=
    given_of_reach reach unnamed fits.2 fits.1.1
  have apart (k : TyVar) (key : k ∈ s) (j : TyVar) (u : Ty) (found : s[j]? = some u) : k ∉ u.freeVars :=
    missing (reach.values j u found) key
  exact {
    supply := reach.next
    keys := fun k key => given_of_reach reach unnamed (reach.keys k key) (reach.consistent.keys k (solved ▸ key))
    values := fun k u found => (reach.values k u found).imp fun _ => fits
    type := known.imp fun _ => fits
    apart := fun k key => ⟨missing known key, apart k key⟩
    idempotent := fun u => by
      have value (v : TyVar) : (s.value v).bind s.value = s.value v := by
        rw [← Subst.apply_eq_bind, ← solved, reach.consistent.apply_value]
      simp only [Subst.apply_eq_bind, Ty.bind_bind, value]
    fixed := reach.apply_eq_self known }

end

end Infer

open Infer

/-- Inference of an expression from the start of an item leaves its result in solved form. -/
theorem inferExpr_solved_form (Γ : Env) (n : Nat) (below : Γ.Below n) (st : State) (next : st.next = n)
    (unnamed : st.named = ∅) (unsolved : st.solved = ∅) (e : Expr) (s : Subst) (t : Ty) (st' : State)
    (run : inferExpr Γ e st = .ok (s, t) st') : SolvedForm Γ n st'.next s t := by
  subst next
  obtain ⟨reach, known, _⟩ := inferExpr_sound (scope_of_below below unnamed unsolved) (fun _ free => free) e run
  exact solvedForm_of_reach reach unnamed unsolved known

/-- An environment in which the type of `x` is open. -/
def sharedEnv : Env :=
  (∅ : Env).insert "x" (.mono (.var 0))

/-- The expression `fun y -> [(x : 'a); (y : 'a)]`, in which `'a` is read twice. -/
def sharedExpr : Expr :=
  let named (id : String) : Expr := .typed (.ident ⟨id, {}⟩) (.var "a" {}) {}
  .lambda (.ident ⟨"y", {}⟩) (.list [named "x", named "y"] {}) {}

/-- What is solved for the list: its elements and both readings of `'a` have the type of `y`. -/
def sharedSolution : Subst :=
  (((∅ : Subst).insert 0 (.var 1)).insert 2 (.var 1)).insert 3 (.var 1)

theorem sharedExpr_run : inferExpr sharedEnv sharedExpr { next := 1 } =
    .ok (sharedSolution, .func (.var 1) (.list (.var 1)))
      { next := 4, named := (∅ : Std.ExtTreeMap String TyVar compare).insert "a" 3, solved := sharedSolution,
        journal := #[.resolved "a" (.var 3), .equated (.var 3) (.var 0), .equated (.var 2) (.var 0),
          .resolved "a" (.var 0), .equated (.var 0) (.var 1), .equated (.var 1) (.var 1)] } := by
  cbv

theorem sharedExpr_solved_form : sharedEnv.Below 1 ∧
    SolvedForm sharedEnv 1 4 sharedSolution (.func (.var 1) (.list (.var 1))) := by
  have below : sharedEnv.Below 1 := by
    unfold Env.Below
    decide
  exact ⟨below, inferExpr_solved_form sharedEnv 1 below { next := 1 } rfl rfl rfl sharedExpr _ _ _ sharedExpr_run⟩

end LetPoly
