import LetPoly.Proofs.PatternCompleteness
import LetPoly.Proofs.Soundness

/-!
Completeness of inference. An expression that has a type by the rules is inferred, and the inferred
type stands for the given one (`inferExpr_complete`): inference runs in an environment that covers the
one of the derivation, and the theorem goes along the program text, as for soundness. A `let` group is
the one place where more than the types of the derivation is kept: its names are quantified over at
least as much (`Ready.bodyEnv`).
-/
namespace LetPoly.Infer
open State Typing

/-- Inference in `Γ` is ready for what is typed in `Δ`: no scheme quantifies what is known, and under
    `θ` the schemes of `Γ` have all instances that those of `Δ` have. -/
structure Ready (K : TyVar → Prop) (M : Measures) (Γ Δ : Env) (st : State) (θ : TyVar → Ty) : Prop where
  scope : Scope K st
  measures : st.measures = M
  inside : Γ.In K
  hidden : Hidden K Γ st
  covers : Γ.Covers θ Δ

section
variable {K : TyVar → Prop} {M : Measures} {Γ Δ : Env} {st st₁ : State} {θ θ₁ : TyVar → Ty} {s : Subst} {t u : Ty}
  {named others : List (String × Ty)}

theorem Ready.safe (ready : Ready K M Γ Δ st θ) (progress : Progress K st θ s st₁ θ₁) : Γ.Safe s :=
  ready.hidden.safe progress.unread.2 progress.reach

/-- After a step inference is ready under what is solved. -/
theorem Ready.step (ready : Ready K M Γ Δ st θ) (progress : Progress K st θ s st₁ θ₁) :
    Ready (Fits K st st₁) M (Γ.subst s) Δ st₁ θ₁ where
  scope := progress.reach.scope
  measures := progress.reach.measures.trans ready.measures
  inside := progress.reach.subst ready.scope.live ready.inside
  hidden := ready.hidden.step progress.unread.2 progress.reach
  covers := by
    refine Env.Covers.subst (ready.covers.congr fun v free => ?_) progress.holds (ready.safe progress)
    exact progress.agree v (ready.scope.live v (ready.inside v free)).1

/-- The same for parts that are inferred in turn, from what is solved before them. -/
theorem Ready.next {r : Subst} (ready : Ready K M (Γ.subst s) Δ st θ) (safe : Γ.Safe s)
    (progress : Progress K st θ r st₁ θ₁) :
    Ready (Fits K st st₁) M (Γ.subst (r.after s)) Δ st₁ θ₁ ∧ Γ.Safe (r.after s) :=
  ⟨Env.subst_after safe ▸ ready.step progress, safe.after (ready.safe progress)⟩

theorem Ready.empty (ready : Ready K M Γ Δ st θ) : Ready K M (Γ.subst ∅) Δ st θ :=
  Γ.subst_empty.symm ▸ ready

theorem Ready.extendMono (ready : Ready K M Γ Δ st θ) (names : NamedStands K θ named others) :
    Ready K M (Γ.extendMono named) (Δ.extendMono others) st θ where
  scope := ready.scope
  measures := ready.measures
  inside := ready.inside.extendMono names.1
  hidden := ready.hidden.extendMono named
  covers := names.2 ▸ ready.covers.extendMono named

/-- Inference is ready for the body of a group. -/
theorem Ready.bodyEnv (ready : Ready K M Γ Δ st θ) (names : NamedStands K θ named others) :
    Ready (· ∈ Γ.freeVars) M (Typing.bodyEnv Γ named) (Typing.bodyEnv Δ others) st θ where
  scope := ⟨ready.scope.consistent, fun v free => ready.scope.live v (ready.inside v free)⟩
  measures := ready.measures
  inside _ := mem_freeVars_bodyEnv
  hidden := ready.hidden.bodyEnv ready.scope.live ready.inside names.1
  covers := names.2 ▸ ready.covers.bodyEnv named

/-! ### Instances and groups -/

/-- New variables may stand for any choice of types. -/
theorem renewal_complete (scope : Scope K st) (θ : TyVar → Ty) (vars : List TyVar) (f : TyVar → Ty) :
    Completes (fun s st₁ θ₁ => Progress K st θ ∅ st₁ θ₁ ∧ (∀ v, v ∈ s ↔ v ∈ vars) ∧
      ∀ v ∈ vars, Stands (Fits K st st₁) θ₁ (s.value v) (f v)) (renewal vars st) := by
  induction vars generalizing K st θ with
  | nil => exact completes_pure θ ⟨progress_refl scope.consistent θ, by simp, by simp⟩
  | cons v vars ih =>
    refine (fresh_complete scope θ (f v)).bind ?_
    rintro t st₁ θ₁ ⟨progress, stands⟩
    refine (ih progress.reach.scope θ₁).bind ?_
    rintro r st₂ θ₂ ⟨step, keys, values⟩
    refine completes_pure θ₂ ⟨progress.trans_empty step, fun w => ?_, fun w member => ?_⟩
    · rw [Std.ExtTreeMap.mem_union_iff, Subst.mem_single, keys, List.mem_cons]
    · rw [value_union]
      by_cases key : w ∈ r
      · rw [if_pos key]
        exact (values w ((keys w).mp key)).gain progress.reach step.reach
      · obtain rfl : w = v := by
          rcases List.mem_cons.mp member with same | member
          · exact same
          · exact absurd ((keys w).mpr member) key
        rw [if_neg key, Subst.value_single, if_pos rfl]
        exact Subst.apply_empty t ▸ stands.carry progress.reach step

/-- A scheme is used at a type that stands for any of its instances. -/
theorem instantiate_complete {σ : Scheme} (scope : Scope K st) (inside : ∀ v ∈ σ.freeVars, K v)
    (inst : σ.InstanceUnder θ u) :
    Completes (fun t st₁ θ₁ => Progress K st θ ∅ st₁ θ₁ ∧ Stands (Fits K st st₁) θ₁ t u) (instantiate σ st) := by
  obtain ⟨f, fixed, rfl⟩ := inst
  refine (renewal_complete scope θ σ.vars f).bind ?_
  rintro s st₁ θ₁ ⟨progress, keys, values⟩
  have here (v : TyVar) (member : v ∈ σ.ty.freeVars) : Stands (Fits K st st₁) θ₁ (s.value v) (f v) := by
    by_cases quantified : v ∈ σ.vars
    · exact values v quantified
    · have free : v ∈ σ.freeVars := Scheme.mem_freeVars.mpr ⟨member, quantified⟩
      rw [Subst.value_of_notMem (mt (keys v).mp quantified)]
      exact Stands.keep (θ := θ) ⟨Ty.in_var.mpr (inside v free), (fixed v free).symm⟩ scope.live progress
  refine completes_pure θ₁ ⟨progress, ?_⟩
  rw [Subst.apply_eq_bind]
  refine ⟨fun w stands => ?_, ?_⟩
  · obtain ⟨v, member, stands⟩ := Ty.mem_freeVars_bind.mp stands
    exact (here v member).1 w stands
  · rw [Ty.bind_bind]
    exact Ty.bind_congr fun v member => (here v member).2

theorem inferPlaceholders_complete {patterns : List Pattern} {us : List Ty} (scope : Scope K st)
    (measures : st.measures = M) (θ : TyVar → Ty) (solves : st.Solves s) (distinct : ∀ p ∈ patterns, p.names.Nodup)
    (accepts : AcceptsAll M (Means M) patterns us named) :
    Completes (fun out st₁ θ₁ => ∃ r, out.1 = r.after s ∧ Progress K st θ r st₁ θ₁ ∧
      StandAll (Fits K st st₁) θ₁ (out.2.1.map out.1.apply) us ∧
      NamedStands (Fits K st st₁) θ₁ (out.1.applyNamed out.2.2) named) (inferPlaceholders s patterns st) := by
  induction patterns generalizing K st θ s us named with
  | nil =>
    cases accepts
    exact completes_pure θ ⟨∅, (Subst.empty_after s).symm, progress_refl scope.consistent θ, ⟨by simp, rfl⟩,
      namedStands_nil _ _⟩
  | cons p ps ih =>
    cases accepts with
    | @cons _ _ u us _ _ first rest =>
      simp only [List.mem_cons, forall_eq_or_imp] at distinct
      refine (fresh_complete scope θ u).bind ?_
      rintro t st₁ θ₁ ⟨progress₁, stands⟩
      refine (inferPattern_complete progress₁.reach.scope (progress₁.reach.measures.trans measures) stands distinct.1
        first).bind ?_
      rintro ⟨s₁, names⟩ st₂ θ₂ ⟨progress₂, namesStand⟩
      have progress := progress₁.empty_trans progress₂
      refine (ih progress.reach.scope (progress.reach.measures.trans measures) θ₂ (solves.after progress.reach) distinct.2
        rest).bind ?_
      rintro ⟨s₂, ts, more⟩ st₃ θ₃ ⟨r, rfl, step, all, moreStand⟩
      have fresh : s.apply t = t :=
        (Subst.empty_after s ▸ solves.after progress₁.reach).apply_eq_self stands.1
      have here : (r.after (s₁.after s)).applyNamed names = r.applyNamed names := by
        rw [Subst.applyNamed_after,
          (solves.after progress.reach).applyNamed_eq_self namesStand.1]
      refine completes_pure θ₃ ⟨r.after s₁, (Subst.after_assoc r s₁ s).symm, progress.trans step, ?_, ?_⟩
      · rw [List.map_cons, Subst.apply_after, Subst.apply_after, fresh, standAll_cons]
        exact ⟨(stands.carry progress₁.reach progress₂).carry progress.reach step, all.gain progress.reach step.reach⟩
      · rw [Subst.applyNamed_append, here]
        exact namedStands_append ((namesStand.gain progress₁.reach progress₂.reach).carry progress.reach step)
          (moreStand.gain progress.reach step.reach)

theorem record_complete {events : List Event} (scope : Scope K st) (θ : TyVar → Ty)
    (idle : ∀ event ∈ events, event.solution = ∅) (unread : ∀ (name : String) (t : Ty), .resolved name t ∉ events) :
    Completes (fun _ st₁ θ₁ => Progress K st θ ∅ st₁ θ₁) (record events st) := by
  refine .of_run θ (record_ok.mpr rfl) ⟨?_, unread_append rfl unread, fun _ _ => rfl, Subst.holds_empty θ⟩
  exact record_reach scope.consistent idle unread (record_ok.mpr rfl)

theorem generalizeAll_complete (ready : Ready K M Γ Δ st θ) (names : NamedStands K θ named others) :
    Completes (fun Γ' st₁ θ₁ => Progress K st θ ∅ st₁ θ₁ ∧ Γ' = bodyEnv Γ named ∧
      NamedStands (Fits K st st₁) θ₁ named others) (generalizeAll Γ named st) := by
  refine (record_complete ready.scope θ ?_ ?_).bind ?_
  · intro event member
    obtain ⟨entry, _, rfl⟩ := List.mem_map.mp member
    rfl
  · intro name t member
    obtain ⟨entry, _, same⟩ := List.mem_map.mp member
    cases same
  · rintro _ st₁ θ₁ progress
    exact completes_pure θ₁ ⟨progress, rfl, names.keep ready.scope.live progress⟩

/-- What the values of a group have to achieve: their names stand for those of the derivation. -/
def ValuesComplete (K : TyVar → Prop) (st : State) (θ : TyVar → Ty) (named : List (String × Ty))
    (out : Subst × List (String × Ty)) (st₁ : State) (θ₁ : TyVar → Ty) : Prop :=
  Progress K st θ out.1 st₁ θ₁ ∧ NamedStands (Fits K st st₁) θ₁ (out.1.applyNamed out.2) named

/-- What a group has to achieve: its body is inferred in an environment with names that stand for
    those of the derivation. -/
def GroupComplete (K : TyVar → Prop) (st : State) (θ : TyVar → Ty) (Γ : Env) (named : List (String × Ty)) :
    Subst × Env → State → (TyVar → Ty) → Prop
  | (s, Γ'), st₁, θ₁ => Progress K st θ s st₁ θ₁ ∧
    ∃ names, Γ' = bodyEnv (Γ.subst s) names ∧ NamedStands (Fits K st st₁) θ₁ names named

theorem nodup_pattern {bindings : List (Binding Expr)} (distinct : (groupNames bindings).Nodup) {p : Pattern}
    (member : p ∈ bindings.map Binding.pattern) : p.names.Nodup := by
  obtain ⟨binding, found, rfl⟩ := List.mem_map.mp member
  exact List.Nodup.sublist (List.sublist_flatten_of_mem (List.mem_map.mpr ⟨binding, found, rfl⟩)) distinct

theorem groupOf_complete {recursive : Bool} {bindings : List (Binding Expr)}
    {plain : Infer (Subst × List (String × Ty))} {values : Env → Subst → List Ty → Infer Subst} {us : List Ty}
    (ready : Ready K M Γ Δ st θ) (distinct : (groupNames bindings).Nodup)
    (accepts : AcceptsAll M (Means M) (bindings.map Binding.pattern) us named)
    (plainComplete : recursive = false → Completes (ValuesComplete K st θ named) (plain st))
    (valuesComplete : recursive = true → ∀ {K' : TyVar → Prop} {Γ' : Env} {s : Subst} {placeholders : List Ty}
      {st₁ : State} {θ₁ : TyVar → Ty}, Ready K' M (Γ'.subst s) (Δ.extendMono named) st₁ θ₁ → st₁.Solves s →
      Γ'.Safe s → StandAll K' θ₁ (placeholders.map s.apply) us →
      Completes (fun s' st₂ θ₂ => ∃ r, s' = r.after s ∧ Progress K' st₁ θ₁ r st₂ θ₂) (values Γ' s placeholders st₁)) :
    Completes (GroupComplete K st θ Γ named) (groupOf Γ recursive bindings plain values st) := by
  have finish (s : Subst) (names : List (String × Ty)) (st₁ : State) (θ₁ : TyVar → Ty)
      (done : ValuesComplete K st θ named (s, names) st₁ θ₁) :
      Completes (GroupComplete K st θ Γ named)
        ((do
          let Γ' ← generalizeAll (Γ.subst s) (s.applyNamed names)
          return (s, Γ') : Infer (Subst × Env)) st₁) := by
    obtain ⟨progress, namesStand⟩ := done
    refine (generalizeAll_complete (ready.step progress) namesStand).bind ?_
    rintro Γ' st₂ θ₂ ⟨step, rfl, stands⟩
    exact completes_pure θ₂ ⟨progress.trans_empty step, _, rfl, stands.gain progress.reach step.reach⟩
  refine .bind_run (checkDistinct_ok.mpr ⟨rfl, by rw [List.map_flatMap]; exact distinct⟩) ?_
  cases recursive with
  | false =>
    refine (plainComplete rfl).bind ?_
    rintro ⟨s, names⟩ st₁ θ₁ done
    exact finish s names st₁ θ₁ done
  | true =>
    refine (inferPlaceholders_complete ready.scope ready.measures θ (solves_empty st) (fun p => nodup_pattern distinct)
      accepts).bind ?_
    rintro ⟨s₁, placeholders, names⟩ st₁ θ₁ ⟨r, rfl, progress, all, namesStand⟩
    rw [Subst.after_empty] at *
    have inner := (ready.step progress).extendMono namesStand
    rw [← Env.subst_extendMono] at inner
    refine (valuesComplete rfl inner progress.reach.solves ((ready.safe progress).extendMono names) all).bind ?_
    rintro s₂ st₂ θ₂ ⟨q, rfl, step⟩
    refine .bind_run (a := (q.after r, names)) rfl (finish _ _ st₂ θ₂ ⟨progress.trans step, ?_⟩)
    rw [Subst.applyNamed_after]
    exact namesStand.carry progress.reach step

end

/-- Inference finds a type that stands for `u`. -/
def Finds (K : TyVar → Prop) (st : State) (θ : TyVar → Ty) (u : Ty) : Subst × Ty → State → (TyVar → Ty) → Prop
  | (s, t), st₁, θ₁ => Progress K st θ s st₁ θ₁ ∧ Stands (Fits K st st₁) θ₁ t u

/-- Inference goes on from `s` and makes progress. -/
def Continues (K : TyVar → Prop) (st : State) (θ : TyVar → Ty) (s s' : Subst) (st₁ : State) (θ₁ : TyVar → Ty) : Prop :=
  ∃ r, s' = r.after s ∧ Progress K st θ r st₁ θ₁

/-- Inference that goes on from nothing makes progress. -/
theorem Completes.of_empty {K : TyVar → Prop} {st : State} {θ : TyVar → Ty} {named : List (String × Ty)}
    {result : EStateM.Result Failure State (Subst × List (String × Ty))}
    (completes : Completes (fun out st₁ θ₁ => Continues K st θ ∅ out.1 st₁ θ₁ ∧
      NamedStands (Fits K st st₁) θ₁ (out.1.applyNamed out.2) named) result) :
    Completes (ValuesComplete K st θ named) result := by
  refine completes.mono ?_
  rintro ⟨s, names⟩ st₁ θ₁ ⟨⟨r, rfl, progress⟩, namesStand⟩
  rw [Subst.after_empty] at *
  exact ⟨progress, namesStand⟩

mutual

/-- An expression is inferred if it has a type, and the inferred type stands for that one. -/
theorem inferExpr_complete {K : TyVar → Prop} {M : Measures} {Γ Δ : Env} {st : State} {θ : TyVar → Ty} {u : Ty}
    (ready : Ready K M Γ Δ st θ) :
    (e : Expr) → HasType M (Means M) Δ e u → Completes (Finds K st θ u) (inferExpr Γ e st)
  | .const value span, typed => by
    cases typed with
    | const _ typed =>
      refine .bind_run (literalType_ok.mpr ⟨rfl, ready.measures ▸ typed⟩) ?_
      exact completes_pure θ ⟨progress_refl ready.scope.consistent θ, stands_literal typed⟩
  | .ident id, typed => by
    cases typed with
    | ident look inst =>
      obtain ⟨σ, found, here⟩ := ready.covers.right look
      rw [inferExpr_ident found]
      refine (instantiate_complete ready.scope (fun v free => ?_) (here u inst)).bind ?_
      · exact ready.inside v (Env.mem_freeVars.mpr ⟨_, σ, found, free⟩)
      · rintro t st₁ θ₁ done
        exact completes_pure θ₁ done
  | .lambda param body span, typed => by
    cases typed with
    | @lambda _ _ _ a _ _ _ distinct accepts typed =>
      refine (fresh_complete ready.scope θ a).bind ?_
      rintro t st₁ θ₁ ⟨progress₁, known⟩
      refine (inferPattern_complete progress₁.reach.scope (progress₁.reach.measures.trans ready.measures) known distinct
        accepts).bind ?_
      rintro ⟨s₁, named⟩ st₂ θ₂ ⟨progress₂, names⟩
      have progress := progress₁.empty_trans progress₂
      have inner := (ready.step progress).extendMono (names.gain progress₁.reach progress₂.reach)
      refine (inferExpr_complete inner body typed).bind ?_
      rintro ⟨s₂, b⟩ st₃ θ₃ ⟨step, result⟩
      have input := (known.carry progress₁.reach progress₂).carry progress.reach step
      rw [← Subst.apply_after] at input
      exact completes_pure θ₃ ⟨progress.trans step, stands_func input (result.gain progress.reach step.reach)⟩
  | .apply func arg span, typed => by
    cases typed with
    | @apply _ _ _ _ b _ funcTyped argTyped =>
      refine (inferExpr_complete ready func funcTyped).bind ?_
      rintro ⟨s₁, f⟩ st₁ θ₁ ⟨progress₁, funcStands⟩
      refine (inferExpr_complete (ready.step progress₁) arg argTyped).bind ?_
      rintro ⟨s₂, a⟩ st₂ θ₂ ⟨progress₂, argStands⟩
      have both := progress₁.trans progress₂
      refine (fresh_complete both.reach.scope θ₂ u).bind ?_
      rintro result st₃ θ₃ ⟨progress₃, resultStands⟩
      have progress := both.trans_empty progress₃
      have funcStands := (funcStands.carry progress₁.reach progress₂).carry_empty both.reach progress₃
      have argStands := (argStands.gain progress₁.reach progress₂.reach).carry_empty both.reach progress₃
      have resultStands := resultStands.gain both.reach progress₃.reach
      refine (equate_complete progress.reach.scope funcStands (stands_func argStands resultStands)).bind ?_
      rintro s₃ st₄ θ₄ step
      have fixed := progress.reach.apply_eq_self resultStands.1
      refine completes_pure θ₄ ⟨?_, ?_⟩
      · rw [Subst.after_assoc]
        exact progress.trans step
      · rw [Subst.after_assoc, Subst.apply_after, fixed]
        exact resultStands.carry progress.reach step
  | .letIn recursive bindings body span, typed => by
    cases typed with
    | @letIn _ _ _ _ _ named _ distinct valuesTyped bodyTyped =>
      obtain ⟨us, values, patterns⟩ := valuesTyped_iff.mp valuesTyped
      refine (groupOf_complete ready distinct patterns ?_ ?_).bind ?_
      · rintro rfl
        exact .of_empty (inferPlain_complete ready.empty (solves_empty st) Γ.safe_empty bindings distinct valuesTyped)
      · rintro rfl K' Γ' s placeholders st₁ θ₁ inner solves safe all
        exact inferValues_complete inner solves safe all bindings values
      · rintro ⟨s₁, Γ'⟩ st₁ θ₁ ⟨progress, names, rfl, namesStand⟩
        have after := ready.step progress
        refine (inferExpr_complete (after.bodyEnv namesStand) body bodyTyped).bind ?_
        rintro ⟨s₂, t⟩ st₂ θ₂ ⟨step, known⟩
        have step := step.mono after.inside
        refine completes_pure θ₂ ⟨progress.trans step, Stands.gain ⟨?_, known.2⟩ progress.reach step.reach⟩
        exact known.1.imp fun v => Fits.mono after.inside
  | .ifThenElse condition yes no span, typed => by
    have parts : ∃ t, u = t ∧ HasType M (Means M) Δ condition .bool ∧ HasType M (Means M) Δ yes t ∧
        no.elim (t = .unit) fun e => HasType M (Means M) Δ e t := by
      cases typed with
      | ifThenElse _ condition yes no => exact ⟨u, rfl, condition, yes, no⟩
      | ifThen _ condition yes => exact ⟨.unit, rfl, condition, yes, rfl⟩
    obtain ⟨_, rfl, conditionTyped, yesTyped, noTyped⟩ := parts
    refine (inferExpr_complete ready condition conditionTyped).bind ?_
    rintro ⟨s₁, c⟩ st₁ θ₁ ⟨progress₁, known⟩
    refine (equate_complete progress₁.reach.scope (stands_prim .bool) known).bind ?_
    rintro s₂ st₂ θ₂ progress₂
    have both := progress₁.trans progress₂
    refine (inferExpr_complete (ready.step both) yes yesTyped).bind ?_
    rintro ⟨s₃, a⟩ st₃ θ₃ ⟨progress₃, yesStands⟩
    have three := both.trans progress₃
    have yesStands := yesStands.gain both.reach progress₃.reach
    refine (inferElse_complete (ready.step three) no noTyped).bind ?_
    rintro ⟨s₄, b⟩ st₄ θ₄ ⟨progress₄, noStands⟩
    have progress := three.trans progress₄
    have noStands := noStands.gain three.reach progress₄.reach
    have yesKept : Stands (Fits K st st₄) θ₄ ((s₄.after (s₃.after (s₂.after s₁))).apply a) u := by
      rw [Subst.apply_after, three.reach.apply_eq_self yesStands.1]
      exact yesStands.carry three.reach progress₄
    have noKept : Stands (Fits K st st₄) θ₄ ((s₄.after (s₃.after (s₂.after s₁))).apply b) u := by
      rw [progress.reach.apply_eq_self noStands.1]
      exact noStands
    refine (equate_complete progress.reach.scope yesKept noKept).bind ?_
    rintro s₅ st₅ θ₅ step
    refine completes_pure θ₅ ⟨progress.trans step, ?_⟩
    rw [Subst.apply_after]
    exact yesKept.carry progress.reach step
  | .matchWith scrutinee rules span, typed => by
    cases typed with
    | matchWith _ valueTyped rulesTyped =>
      refine (inferExpr_complete ready scrutinee valueTyped).bind ?_
      rintro ⟨s₁, a⟩ st₁ θ₁ ⟨progress₁, known⟩
      refine (fresh_complete progress₁.reach.scope θ₁ u).bind ?_
      rintro b st₂ θ₂ ⟨progress₂, known₂⟩
      have progress := progress₁.trans_empty progress₂
      have input := known.carry_empty progress₁.reach progress₂
      have result := known₂.gain progress₁.reach progress₂.reach
      have same {t : Ty} (inside : t.In (Fits K st st₂)) : s₁.apply t = t :=
        progress.reach.apply_eq_self inside
      refine (inferRules_complete (ready.step progress) progress.reach.solves (ready.safe progress)
        ((same input.1).symm ▸ input) ((same result.1).symm ▸ result) rules rulesTyped).bind ?_
      rintro s₂ st₃ θ₃ ⟨r, rfl, step⟩
      refine completes_pure θ₃ ⟨progress.trans step, ?_⟩
      rw [Subst.apply_after, same result.1]
      exact result.carry progress.reach step
  | .function rules span, typed => by
    cases typed with
    | @function _ _ a b _ rulesTyped =>
      refine (fresh_complete ready.scope θ a).bind ?_
      rintro x st₁ θ₁ ⟨progress₁, known₁⟩
      refine (fresh_complete progress₁.reach.scope θ₁ b).bind ?_
      rintro y st₂ θ₂ ⟨progress₂, known₂⟩
      have progress := progress₁.trans_empty progress₂
      have input := known₁.carry_empty progress₁.reach progress₂
      have result := known₂.gain progress₁.reach progress₂.reach
      refine (inferRules_complete (ready.step progress) progress.reach.solves (ready.safe progress)
        ((Subst.apply_empty x).symm ▸ input) ((Subst.apply_empty y).symm ▸ result) rules rulesTyped).bind ?_
      rintro s₂ st₃ θ₃ ⟨r, rfl, step⟩
      rw [Subst.after_empty]
      refine completes_pure θ₃ ⟨progress.empty_trans step, ?_⟩
      exact stands_func (input.carry progress.reach step) (result.carry progress.reach step)
  | .tuple elements span, typed => by
    cases typed with
    | tuple _ typed =>
      refine (inferSequence_complete ready.empty (solves_empty st) Γ.safe_empty elements typed).bind ?_
      rintro ⟨s, ts⟩ st₁ θ₁ ⟨⟨r, rfl, progress⟩, all⟩
      obtain ⟨x, y, rest, rfl⟩ := all.two
      refine .bind_run (a := .tuple x y rest) rfl (completes_pure θ₁ ⟨?_, stands_tuple all⟩)
      exact (Subst.after_empty r).symm ▸ progress
  | .list elements span, typed => by
    cases typed with
    | @list _ _ t _ typed =>
      refine (fresh_complete ready.scope θ t).bind ?_
      rintro elem st₁ θ₁ ⟨progress, known⟩
      refine (inferElements_complete (ready.step progress) progress.reach.solves (ready.safe progress)
        ((Subst.apply_empty elem).symm ▸ known) elements typed).bind ?_
      rintro s st₂ θ₂ ⟨r, rfl, step⟩
      rw [Subst.after_empty]
      exact completes_pure θ₂ ⟨progress.empty_trans step, stands_wrap (known.carry progress.reach step)⟩
  | .cons head tail span, typed => by
    cases typed with
    | cons _ headTyped tailTyped =>
      refine (inferExpr_complete ready head headTyped).bind ?_
      rintro ⟨s₁, h⟩ st₁ θ₁ ⟨progress₁, headStands⟩
      refine (inferExpr_complete (ready.step progress₁) tail tailTyped).bind ?_
      rintro ⟨s₂, l⟩ st₂ θ₂ ⟨progress₂, tailStands⟩
      have progress := progress₁.trans progress₂
      have elemStands := headStands.carry progress₁.reach progress₂
      refine (equate_complete progress.reach.scope (stands_wrap elemStands)
        (tailStands.gain progress₁.reach progress₂.reach)).bind ?_
      rintro s₃ st₃ θ₃ step
      have fixed := progress.reach.apply_eq_self elemStands.1
      refine completes_pure θ₃ ⟨?_, ?_⟩
      · rw [Subst.after_assoc]
        exact progress.trans step
      · rw [Subst.after_assoc, Subst.apply_after, Subst.apply_wrap, Subst.apply_wrap, fixed]
        exact stands_wrap (elemStands.carry progress.reach step)
  | .some value span, typed => by
    cases typed with
    | some _ typed =>
      refine (inferExpr_complete ready value typed).bind ?_
      rintro ⟨s, t⟩ st₁ θ₁ ⟨progress, known⟩
      exact completes_pure θ₁ ⟨progress, stands_wrap known⟩
  | .none span, typed => by
    cases typed with
    | none _ t =>
      refine (fresh_complete ready.scope θ t).bind ?_
      rintro elem st₁ θ₁ ⟨progress, known⟩
      exact completes_pure θ₁ ⟨progress, stands_wrap known⟩
  | .typed value ascribed span, typed => by
    cases typed with
    | typed _ means valueTyped =>
      refine (inferExpr_complete ready value valueTyped).bind ?_
      rintro ⟨s₁, t⟩ st₁ θ₁ ⟨progress, known⟩
      refine .bind_run (resolve_of_means ((progress.reach.measures.trans ready.measures).symm ▸ means)) ?_
      refine (equate_complete progress.reach.scope (stands_means means) known).bind ?_
      rintro s₂ st₂ θ₂ step
      have same (r : Subst) : r.apply u = u := by rw [Subst.apply_eq_bind, means.bind_eq]
      refine completes_pure θ₂ ⟨progress.trans step, ?_⟩
      rw [same]
      exact stands_means means

theorem inferElse_complete {K : TyVar → Prop} {M : Measures} {Γ Δ : Env} {st : State} {θ : TyVar → Ty} {u : Ty}
    (ready : Ready K M Γ Δ st θ) :
    (no : Option Expr) → no.elim (u = .unit) (fun e => HasType M (Means M) Δ e u) →
      Completes (Finds K st θ u) (inferElse Γ no st)
  | some e, typed => inferExpr_complete ready e typed
  | none, same => by
    cases same
    exact completes_pure θ ⟨progress_refl ready.scope.consistent θ, stands_prim .unit⟩

theorem inferGuard_complete {K : TyVar → Prop} {M : Measures} {Γ Δ : Env} {st : State} {θ : TyVar → Ty}
    (ready : Ready K M Γ Δ st θ) :
    (guard : Option Expr) → GuardTyped M (Means M) Δ guard →
      Completes (fun s st₁ θ₁ => Progress K st θ s st₁ θ₁) (inferGuard Γ guard st)
  | some e, typed => by
    cases typed with
    | bool typed =>
      refine (inferExpr_complete ready e typed).bind ?_
      rintro ⟨s₁, t⟩ st₁ θ₁ ⟨progress, known⟩
      refine (equate_complete progress.reach.scope (stands_prim .bool) known).bind ?_
      rintro s₂ st₂ θ₂ step
      exact completes_pure θ₂ (progress.trans step)
  | none, _ => completes_pure θ (progress_refl ready.scope.consistent θ)

/-- Rules are inferred if they are typed. -/
theorem inferRules_complete {K : TyVar → Prop} {M : Measures} {Γ Δ : Env} {st : State} {θ : TyVar → Ty} {s : Subst}
    {input result a b : Ty} (ready : Ready K M (Γ.subst s) Δ st θ) (solves : st.Solves s) (safe : Γ.Safe s)
    (inputStands : Stands K θ (s.apply input) a) (resultStands : Stands K θ (s.apply result) b) :
    (rules : List (Rule Expr)) → RulesTyped M (Means M) Δ rules a b →
      Completes (Continues K st θ s) (inferRules Γ input result s rules st)
  | [], _ => completes_pure θ ⟨∅, (Subst.empty_after s).symm, progress_refl ready.scope.consistent θ⟩
  | ⟨pattern, guard, body⟩ :: rules, typed => by
    cases typed with
    | cons distinct accepts guardTyped bodyTyped rest =>
      refine (inferPattern_complete ready.scope ready.measures inputStands distinct accepts).bind ?_
      rintro ⟨s₁, named⟩ st₁ θ₁ ⟨progress₁, names⟩
      -- as for soundness, the guard, the body and the equation go from what is known after the pattern
      have inner := (ready.next safe progress₁).1.extendMono names
      refine (inferGuard_complete inner guard guardTyped).bind ?_
      rintro s₂ st₂ θ₂ progress₂
      rw [(solves.after progress₁.reach).subst_after inner.inside]
      refine (inferExpr_complete (inner.step progress₂) body bodyTyped).bind ?_
      rintro ⟨s₃, t⟩ st₃ θ₃ ⟨progress₃, known⟩
      have both := progress₂.trans progress₃
      have solved := (solves.after progress₁.reach).after both.reach
      have known := known.gain progress₂.reach progress₃.reach
      have resultKnown := (resultStands.apply ready.scope.live progress₁).apply progress₁.reach.scope.live both
      have fixed := solved.apply_eq_self known.1
      rw [← Subst.apply_after s₁, ← Subst.apply_after, Subst.after_assoc] at resultKnown
      rw [Subst.after_assoc] at fixed
      refine (equate_complete both.reach.scope resultKnown (fixed.symm ▸ known)).bind ?_
      rintro s₄ st₄ θ₄ progress₄
      have progress := progress₁.trans (both.trans progress₄)
      have form : s₄.after (s₃.after (s₂.after (s₁.after s))) = ((s₄.after (s₃.after s₂)).after s₁).after s := by
        simp only [Subst.after_assoc]
      obtain ⟨next, safe'⟩ := ready.next safe progress
      have inputNext := inputStands.apply ready.scope.live progress
      have resultNext := resultStands.apply ready.scope.live progress
      have solves' := solves.after progress.reach
      rw [← Subst.apply_after] at inputNext resultNext
      rw [← form] at next safe' inputNext resultNext solves'
      refine (inferRules_complete next solves' safe' inputNext resultNext rules rest).mono ?_
      rintro s' st₅ θ₅ ⟨r, rfl, step⟩
      exact ⟨_, by simp only [Subst.after_assoc], progress.trans step⟩

/-- Elements are inferred if they all have one type. -/
theorem inferElements_complete {K : TyVar → Prop} {M : Measures} {Γ Δ : Env} {st : State} {θ : TyVar → Ty} {s : Subst}
    {elem u : Ty} (ready : Ready K M (Γ.subst s) Δ st θ) (solves : st.Solves s) (safe : Γ.Safe s)
    (elemStands : Stands K θ (s.apply elem) u) :
    (es : List Expr) → HaveTypes M (Means M) Δ es (es.map fun _ => u) →
      Completes (Continues K st θ s) (inferElements Γ elem s es st)
  | [], _ => completes_pure θ ⟨∅, (Subst.empty_after s).symm, progress_refl ready.scope.consistent θ⟩
  | e :: es, typed => by
    cases typed with
    | cons first rest =>
      refine (inferExpr_complete ready e first).bind ?_
      rintro ⟨s₁, t⟩ st₁ θ₁ ⟨progress₁, known⟩
      have elemKnown := elemStands.apply ready.scope.live progress₁
      rw [← Subst.apply_after] at elemKnown
      refine (equate_complete progress₁.reach.scope elemKnown known).bind ?_
      rintro s₂ st₂ θ₂ progress₂
      have progress := progress₁.trans progress₂
      obtain ⟨next, safe'⟩ := ready.next safe progress
      have elemNext := elemStands.apply ready.scope.live progress
      have solves' := solves.after progress.reach
      rw [← Subst.apply_after] at elemNext
      rw [Subst.after_assoc] at next safe' elemNext solves'
      refine (inferElements_complete next solves' safe' elemNext es rest).mono ?_
      rintro s' st₃ θ₃ ⟨r, rfl, step⟩
      exact ⟨_, by simp only [Subst.after_assoc], progress.trans step⟩

/-- Expressions are inferred in turn if they have types. -/
theorem inferSequence_complete {K : TyVar → Prop} {M : Measures} {Γ Δ : Env} {st : State} {θ : TyVar → Ty} {s : Subst}
    {us : List Ty} (ready : Ready K M (Γ.subst s) Δ st θ) (solves : st.Solves s) (safe : Γ.Safe s) :
    (es : List Expr) → HaveTypes M (Means M) Δ es us →
      Completes (fun out st₁ θ₁ => Continues K st θ s out.1 st₁ θ₁ ∧ StandAll (Fits K st st₁) θ₁ out.2 us)
        (inferSequence Γ s es st)
  | [], typed => by
    cases typed
    exact completes_pure θ ⟨⟨∅, (Subst.empty_after s).symm, progress_refl ready.scope.consistent θ⟩, by simp, rfl⟩
  | e :: es, typed => by
    cases typed with
    | cons first rest =>
      refine (inferExpr_complete ready e first).bind ?_
      rintro ⟨s₁, t⟩ st₁ θ₁ ⟨progress, known⟩
      obtain ⟨next, safe'⟩ := ready.next safe progress
      refine (inferSequence_complete next (solves.after progress.reach) safe' es rest).bind ?_
      rintro ⟨s₂, ts⟩ st₂ θ₂ ⟨⟨r, rfl, step⟩, all⟩
      refine completes_pure θ₂ ⟨⟨_, (Subst.after_assoc r s₁ s).symm, progress.trans step⟩, ?_⟩
      rw [Subst.apply_after, (solves.after progress.reach).apply_eq_self known.1, standAll_cons]
      exact ⟨known.carry progress.reach step, all.gain progress.reach step.reach⟩

theorem inferPlain_complete {K : TyVar → Prop} {M : Measures} {Γ Δ : Env} {st : State} {θ : TyVar → Ty} {s : Subst}
    {named : List (String × Ty)} (ready : Ready K M (Γ.subst s) Δ st θ) (solves : st.Solves s) (safe : Γ.Safe s) :
    (bindings : List (Binding Expr)) → (groupNames bindings).Nodup → ValuesTyped M (Means M) Δ bindings named →
      Completes (fun out st₁ θ₁ => Continues K st θ s out.1 st₁ θ₁ ∧
        NamedStands (Fits K st st₁) θ₁ (out.1.applyNamed out.2) named) (inferPlain Γ s bindings st)
  | [], _, typed => by
    cases typed
    exact completes_pure θ ⟨⟨∅, (Subst.empty_after s).symm, progress_refl ready.scope.consistent θ⟩, namedStands_nil _ _⟩
  | ⟨pattern, value⟩ :: bindings, distinct, typed => by
    cases typed with
    | cons valueTyped accepts rest =>
      obtain ⟨here, others, _⟩ := List.nodup_append.mp distinct
      refine (inferExpr_complete ready value valueTyped).bind ?_
      rintro ⟨s₁, t⟩ st₁ θ₁ ⟨progress₁, known⟩
      refine (inferPattern_complete progress₁.reach.scope (progress₁.reach.measures.trans ready.measures) known here
        accepts).bind ?_
      rintro ⟨s₂, names⟩ st₂ θ₂ ⟨progress₂, namesStand⟩
      have progress := progress₁.trans progress₂
      obtain ⟨next, safe'⟩ := ready.next safe progress
      have solves' := solves.after progress.reach
      rw [Subst.after_assoc] at next safe' solves'
      refine (inferPlain_complete next solves' safe' bindings others rest).bind ?_
      rintro ⟨s₃, more⟩ st₃ θ₃ ⟨⟨r, rfl, step⟩, moreStand⟩
      refine completes_pure θ₃ ⟨⟨_, by simp only [Subst.after_assoc], progress.trans step⟩, ?_⟩
      have kept : (r.after (s₂.after (s₁.after s))).applyNamed names = r.applyNamed names := by
        rw [Subst.applyNamed_after, solves'.applyNamed_eq_self namesStand.1]
      rw [Subst.applyNamed_append, kept]
      exact namedStands_append ((namesStand.gain progress₁.reach progress₂.reach).carry progress.reach step)
        (moreStand.gain progress.reach step.reach)

theorem inferValues_complete {K : TyVar → Prop} {M : Measures} {Γ Δ : Env} {st : State} {θ : TyVar → Ty} {s : Subst}
    {placeholders us : List Ty} (ready : Ready K M (Γ.subst s) Δ st θ) (solves : st.Solves s) (safe : Γ.Safe s)
    (all : StandAll K θ (placeholders.map s.apply) us) :
    (bindings : List (Binding Expr)) → HaveTypes M (Means M) Δ (bindings.map Binding.value) us →
      Completes (Continues K st θ s) (inferValues Γ s placeholders bindings st)
  | [], typed => by
    cases placeholders <;>
      exact completes_pure θ ⟨∅, (Subst.empty_after s).symm, progress_refl ready.scope.consistent θ⟩
  | ⟨pattern, value⟩ :: bindings, typed => by
    obtain ⟨u, rest, rfl, first, others⟩ := typed.uncons
    cases placeholders with
    | nil => simp [StandAll] at all
    | cons placeholder placeholders =>
      obtain ⟨stands, more⟩ := standAll_cons.mp all
      refine (inferExpr_complete ready value first).bind ?_
      rintro ⟨s₁, t⟩ st₁ θ₁ ⟨progress₁, known⟩
      have placeKnown := stands.apply ready.scope.live progress₁
      have fixed := (solves.after progress₁.reach).apply_eq_self known.1
      rw [← Subst.apply_after] at placeKnown
      refine (equate_complete progress₁.reach.scope placeKnown (fixed.symm ▸ known)).bind ?_
      rintro s₂ st₂ θ₂ progress₂
      have progress := progress₁.trans progress₂
      obtain ⟨next, safe'⟩ := ready.next safe progress
      have moreNext := more.apply ready.scope.live progress
      have solves' := solves.after progress.reach
      rw [← Subst.map_apply_after] at moreNext
      rw [Subst.after_assoc] at next safe' moreNext solves'
      refine (inferValues_complete next solves' safe' moreNext bindings others).mono ?_
      rintro s' st₃ θ₃ ⟨r, rfl, step⟩
      exact ⟨_, by simp only [Subst.after_assoc], progress.trans step⟩

end

end LetPoly.Infer
