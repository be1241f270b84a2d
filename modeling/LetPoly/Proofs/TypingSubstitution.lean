import LetPoly.Proofs.Instances

/-!
Typing under replacement. What is typed in `Γ` is typed in every environment that admits `Γ` under
`θ`, with `θ` applied to its type (`HasType.under`); so derivations survive substitutions
(`HasType.subst`) and more general environments. The one case with an argument is a `let` group,
whose quantified variables are renamed apart first (`ValuesTyped.under`).
-/
namespace LetPoly.Typing

/-- An annotation that allows a type allows what comes from it by replacing variables. -/
def Reading.Stable (A : Reading) : Prop :=
  ∀ (a : TypeExpr) (t : Ty) (θ : TyVar → Ty), A a t → A a (t.bind θ)

theorem NumberType.bind_eq {n : Number} {t : Ty} (typed : NumberType n t) (θ : TyVar → Ty) : t.bind θ = t := by
  cases typed <;> rfl

theorem bind_withMeasure {t : Ty} {θ : TyVar → Ty} (closed : t.bind θ = t) (m : Measure) :
    (t.withMeasure m).bind θ = t.withMeasure m := by
  cases m <;> simp [Ty.withMeasure, Ty.bind, closed]

theorem LiteralType.bind_eq {M : Measures} {value : Literal} {t : Ty} (typed : LiteralType M value t)
    (θ : TyVar → Ty) : t.bind θ = t := by
  cases typed with
  | number typed => exact typed.bind_eq θ
  | bool b | char c | string s | unit => rfl
  | measured typed declared => exact bind_withMeasure (typed.bind_eq θ) _

mutual

/-- An annotation means a type without variables. -/
theorem Means.bind_eq {M : Measures} {a : TypeExpr} {t : Ty} (θ : TyVar → Ty) : Means M a t → t.bind θ = t
  | .prim p span => rfl
  | .list span arg => by rw [Ty.bind, arg.bind_eq θ]
  | .option span arg => by rw [Ty.bind, arg.bind_eq θ]
  | .func param result => by rw [Ty.bind, param.bind_eq θ, result.bind_eq θ]
  | .tuple span elements => by
    have same := elements.bind_eq θ
    simp only [Ty.bindList, List.cons.injEq] at same
    rw [Ty.bind, same.1, same.2.1, same.2.2]
  | .measured span base number declared => bind_withMeasure (base.bind_eq θ) _

theorem MeansAll.bind_eq {M : Measures} {as : List TypeExpr} {ts : List Ty} (θ : TyVar → Ty) :
    MeansAll M as ts → Ty.bindList θ ts = ts
  | .nil => rfl
  | .cons first rest => by rw [Ty.bindList, first.bind_eq θ, rest.bind_eq θ]

end

theorem stable_means (M : Measures) : Reading.Stable (Means M) := by
  intro a t θ means
  rwa [means.bind_eq θ]

theorem bindList_map_const {α : Type} (θ : TyVar → Ty) (t : Ty) (xs : List α) :
    Ty.bindList θ (xs.map fun _ => t) = xs.map fun _ => t.bind θ := by
  rw [Ty.bindList_eq_map, List.map_map]
  rfl

section
variable {M : Measures} {A : Reading}

mutual

theorem Accepts.bind (stable : A.Stable) (θ : TyVar → Ty) {p : Pattern} {t : Ty} {named : List (String × Ty)} :
    Accepts M A p t named → Accepts M A p (t.bind θ) (bindNamed θ named)
  | .wild span t => .wild span _
  | .ident id t => .ident id _
  | .const span typed => by
    rw [typed.bind_eq θ]
    exact .const span typed
  | .tuple span elements => .tuple span (elements.bind stable θ)
  | .list span elements => .list span (bindList_map_const θ _ _ ▸ elements.bind stable θ)
  | .cons span head tail => by
    rw [bindNamed_append]
    exact .cons span (head.bind stable θ) (tail.bind stable θ)
  | .some span inner => .some span (inner.bind stable θ)
  | .none span t => .none span _
  | .typed span allowed inner => .typed span (stable _ _ θ allowed) (inner.bind stable θ)

theorem AcceptsAll.bind (stable : A.Stable) (θ : TyVar → Ty) {ps : List Pattern} {ts : List Ty}
    {named : List (String × Ty)} : AcceptsAll M A ps ts named → AcceptsAll M A ps (Ty.bindList θ ts) (bindNamed θ named)
  | .nil => .nil
  | .cons first rest => by
    rw [bindNamed_append]
    exact .cons (first.bind stable θ) (rest.bind stable θ)

end

theorem Accepts.apply (stable : A.Stable) (s : Subst) {p : Pattern} {t : Ty} {named : List (String × Ty)}
    (accepts : Accepts M A p t named) : Accepts M A p (s.apply t) (s.applyNamed named) := by
  rw [Subst.apply_eq_bind, applyNamed_eq_bindNamed]
  exact accepts.bind stable s.value

theorem AcceptsAll.apply (stable : A.Stable) (s : Subst) {ps : List Pattern} {ts : List Ty}
    {named : List (String × Ty)} (accepts : AcceptsAll M A ps ts named) :
    AcceptsAll M A ps (ts.map s.apply) (s.applyNamed named) := by
  rw [funext (Subst.apply_eq_bind s), ← Ty.bindList_eq_map, applyNamed_eq_bindNamed]
  exact accepts.bind stable s.value

mutual

/-- Typing survives replacement of variables and more general environments. -/
theorem HasType.under (stable : A.Stable) {Γ Δ : Env} {θ : TyVar → Ty} {e : Expr} {t : Ty}
    (admits : Γ.Admits θ Δ) : HasType M A Γ e t → HasType M A Δ e (t.bind θ)
  | .const span typed => by
    rw [typed.bind_eq θ]
    exact .const span typed
  | .ident look inst => by
    obtain ⟨τ, found, here⟩ := admits.left look
    obtain ⟨f, fixed, rfl⟩ := Scheme.instance_iff.mp inst
    refine .ident found (here _ ⟨fun v => (f v).bind θ, fun v free => ?_, (Ty.bind_bind _ _ _).symm⟩)
    simp only [fixed v free, Ty.bind]
  | .lambda span distinct param body =>
    .lambda span distinct (param.bind stable θ) (body.under stable (admits.extendMono _))
  | .apply span func arg => .apply span (func.under stable admits) (arg.under stable admits)
  | .letIn span distinct values body => by
    obtain ⟨θ', same, admitted⟩ := admits.bodyEnv _
    exact .letIn span distinct (values.under stable ((admits.congr same).valueEnv _ _)) (body.under stable admitted)
  | .ifThenElse span condition yes no =>
    .ifThenElse span (condition.under stable admits) (yes.under stable admits) (no.under stable admits)
  | .ifThen span condition yes => .ifThen span (condition.under stable admits) (yes.under stable admits)
  | .matchWith span scrutinee rules =>
    .matchWith span (scrutinee.under stable admits) (rules.under stable admits)
  | .function span rules => .function span (rules.under stable admits)
  | .tuple span elements => .tuple span (elements.under stable admits)
  | .list span elements => .list span (bindList_map_const θ _ _ ▸ elements.under stable admits)
  | .cons span head tail => .cons span (head.under stable admits) (tail.under stable admits)
  | .some span value => .some span (value.under stable admits)
  | .none span t => .none span _
  | .typed span allowed value => .typed span (stable _ _ θ allowed) (value.under stable admits)

theorem HaveTypes.under (stable : A.Stable) {Γ Δ : Env} {θ : TyVar → Ty} {es : List Expr} {ts : List Ty}
    (admits : Γ.Admits θ Δ) : HaveTypes M A Γ es ts → HaveTypes M A Δ es (Ty.bindList θ ts)
  | .nil => .nil
  | .cons first rest => .cons (first.under stable admits) (rest.under stable admits)

theorem ValuesTyped.under (stable : A.Stable) {Γ Δ : Env} {θ : TyVar → Ty} {bindings : List (Binding Expr)}
    {named : List (String × Ty)} (admits : Γ.Admits θ Δ) :
    ValuesTyped M A Γ bindings named → ValuesTyped M A Δ bindings (bindNamed θ named)
  | .nil => .nil
  | .cons value pattern rest => by
    rw [bindNamed_append]
    exact .cons (value.under stable admits) (pattern.bind stable θ) (rest.under stable admits)

theorem RulesTyped.under (stable : A.Stable) {Γ Δ : Env} {θ : TyVar → Ty} {rules : List (Rule Expr)} {a b : Ty}
    (admits : Γ.Admits θ Δ) : RulesTyped M A Γ rules a b → RulesTyped M A Δ rules (a.bind θ) (b.bind θ)
  | .nil => .nil
  | .cons distinct pattern guard body rest =>
    .cons distinct (pattern.bind stable θ) (guard.under stable (admits.extendMono _))
      (body.under stable (admits.extendMono _)) (rest.under stable admits)

theorem GuardTyped.under (stable : A.Stable) {Γ Δ : Env} {θ : TyVar → Ty} {guard : Option Expr}
    (admits : Γ.Admits θ Δ) : GuardTyped M A Γ guard → GuardTyped M A Δ guard
  | .missing => .missing
  | .bool guard => .bool (guard.under stable admits)

end

/-- A rule that is typed before a replacement goes with rules that are typed after it. -/
theorem RulesTyped.cons_under (stable : A.Stable) {Γ Δ : Env} {θ : TyVar → Ty} {pattern : Pattern} {guard : Option Expr}
    {body : Expr} {rules : List (Rule Expr)} {a b : Ty} {named : List (String × Ty)}
    (rest : RulesTyped M A Δ rules (a.bind θ) (b.bind θ)) (admits : Γ.Admits θ Δ)
    (distinct : pattern.names.Nodup) (accepts : Accepts M A pattern a named)
    (guarded : GuardTyped M A (Γ.extendMono named) guard) (typed : HasType M A (Γ.extendMono named) body b) :
    RulesTyped M A Δ (⟨pattern, guard, body⟩ :: rules) (a.bind θ) (b.bind θ) :=
  .cons distinct (accepts.bind stable θ) (guarded.under stable (admits.extendMono named))
    (typed.under stable (admits.extendMono named)) rest

theorem HasType.subst (stable : A.Stable) {Γ : Env} {s : Subst} {e : Expr} {t : Ty} (safe : Γ.Safe s)
    (typed : HasType M A Γ e t) : HasType M A (Γ.subst s) e (s.apply t) := by
  rw [Subst.apply_eq_bind]
  exact typed.under stable (Env.admits_subst safe)

theorem HaveTypes.uncons {Γ : Env} {e : Expr} {es : List Expr} {us : List Ty} (typed : HaveTypes M A Γ (e :: es) us) :
    ∃ t ts, us = t :: ts ∧ HasType M A Γ e t ∧ HaveTypes M A Γ es ts := by
  cases typed with
  | cons first rest => exact ⟨_, _, rfl, first, rest⟩

/-- Values and patterns of a group are typed one by one. -/
theorem valuesTyped_iff {Γ : Env} {bindings : List (Binding Expr)} {named : List (String × Ty)} :
    ValuesTyped M A Γ bindings named ↔ ∃ ts, HaveTypes M A Γ (bindings.map Binding.value) ts ∧
      AcceptsAll M A (bindings.map Binding.pattern) ts named := by
  constructor
  · intro values
    induction bindings generalizing named with
    | nil =>
      cases values
      exact ⟨[], .nil, .nil⟩
    | cons binding bindings ih =>
      cases values with
      | cons value pattern rest =>
        obtain ⟨ts, typed, accepted⟩ := ih rest
        exact ⟨_ :: ts, .cons value typed, .cons pattern accepted⟩
  · rintro ⟨ts, typed, accepted⟩
    induction bindings generalizing named ts with
    | nil =>
      cases typed
      cases accepted
      exact .nil
    | cons binding bindings ih =>
      cases typed with
      | cons value typed =>
        cases accepted with
        | cons pattern accepted => exact .cons value pattern (ih _ typed accepted)

end

end LetPoly.Typing
