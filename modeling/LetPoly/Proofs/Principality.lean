import LetPoly.Proofs.Completeness
import LetPoly.Proofs.ProgramSoundness

/-!
Completeness of inference for whole programs. A program that is typed by the rules is inferred, and
each name gets a scheme that is at least as general as in any typing (`runInfer_principal`). Between
two items nothing is free, so the environment of a derivation is covered whatever variables stand for.
The environment in which a program is typed may also be less general than the one in which it is
inferred, so a program is inferred still when its prelude becomes more general (`runInfer_monotone`).
-/
namespace LetPoly

open Infer Typing

/-- A closed environment covers another one if each of its schemes generalizes the other's. -/
theorem Env.Closed.covers_iff {Γ Δ : Env} (closed : Γ.Closed) (θ : TyVar → Ty) :
    Γ.Covers θ Δ ↔ Γ.Related Scheme.Generalizes Δ := by
  have same (name : String) (σ : Scheme) (look : Γ[name]? = some σ) (u : Ty) :
      σ.InstanceUnder θ u ↔ σ.Instance u :=
    Iff.trans (Scheme.instanceUnder_congr fun v free => absurd free (closed name σ look v)) Scheme.instance_iff.symm
  constructor <;> intro related
  · exact related.imp fun name σ τ look _ here u inst => (same name σ look u).mp (here u inst)
  · exact related.imp fun name σ τ look _ here u inst => (same name σ look u).mpr (here u inst)

namespace Infer
open State

/-- Inference before an item is ready for what is typed in `Δ`. -/
structure Between (M : Measures) (Γ Δ : Env) (st : State) : Prop where
  closed : Γ.Closed
  measures : st.measures = M
  given : ∀ v, Γ.Binds v → v < st.next
  general : Γ.Related Scheme.Generalizes Δ

section
variable {M M' : Measures} {Γ Δ Δ' : Env} {st : State} {item : Item} {items : List Item}

theorem Between.ready (between : Between M Γ Δ st) :
    Ready (fun _ => False) M Γ Δ { st with named := ∅, solved := ∅ } .var where
  scope := scope_start st
  measures := between.measures
  inside := between.closed.not_mem_freeVars
  hidden v bound := ⟨between.given v bound, id⟩
  covers := (between.closed.covers_iff .var).mpr between.general

theorem Ready.between {K : TyVar → Prop} {θ : TyVar → Ty} (ready : Ready K M Γ Δ st θ) (closed : Γ.Closed) :
    Between M Γ Δ st where
  closed := closed
  measures := ready.measures
  given v bound := (ready.hidden v bound).1
  general := (closed.covers_iff θ).mp ready.covers

theorem inferGroup_complete {K : TyVar → Prop} {θ : TyVar → Ty} {recursive : Bool} {bindings : List (Binding Expr)}
    {named : List (String × Ty)} (ready : Ready K M Γ Δ st θ) (distinct : (groupNames bindings).Nodup)
    (typed : ValuesTyped M (Means M) (valueEnv Δ recursive named) bindings named) :
    Completes (GroupComplete K st θ Γ named) (inferGroup Γ recursive bindings st) := by
  obtain ⟨us, values, patterns⟩ := valuesTyped_iff.mp typed
  refine groupOf_complete ready distinct patterns ?_ ?_
  · rintro rfl
    exact .of_empty (inferPlain_complete ready.empty (solves_empty st) Γ.safe_empty bindings distinct typed)
  · rintro rfl K' Γ' s placeholders st₁ θ₁ inner solves safe all
    exact inferValues_complete inner solves safe all bindings values

/-- An item that is typed is inferred, with schemes that are at least as general. -/
theorem inferItem_complete (between : Between M Γ Δ st) (typed : ItemTyped Means M Δ item M' Δ') :
    Completes (fun Γ' st' _ => Between M' Γ' Δ' st') (inferItem Γ item st) := by
  have ready := between.ready
  refine .bind_run (a := ()) rfl ?_
  cases typed with
  | expr typed =>
    refine (inferExpr_complete ready _ typed).bind ?_
    rintro ⟨s, t⟩ st₁ θ₁ ⟨progress, _⟩
    have after := ready.step progress
    refine (record_complete after.scope θ₁ (by simp [Event.solution]) (by simp)).bind ?_
    rintro _ st₂ θ₂ step
    refine completes_pure θ₂ ?_
    rw [between.closed.subst_eq_self] at after ⊢
    exact (between.closed.subst_eq_self ∅ ▸ after.step step).between between.closed
  | letGroup distinct typed =>
    refine (inferGroup_complete ready distinct typed).bind ?_
    rintro ⟨s, Γ'⟩ st₁ θ₁ ⟨progress, names, rfl, namesStand⟩
    refine completes_pure θ₁ (((ready.step progress).bodyEnv namesStand).between ?_)
    rw [between.closed.subst_eq_self]
    exact between.closed.bodyEnv names
  | measure span declared =>
    refine .bind_run (checkDefinition_ok.mpr ⟨rfl, between.measures ▸ declared⟩) ?_
    refine .bind_run (record_ok.mpr rfl) (.bind_run (a := ()) rfl (completes_pure .var ?_))
    exact ⟨between.closed, by rw [← between.measures], between.given, between.general⟩

/-- Items that are typed in turn are inferred, with schemes that are at least as general. -/
theorem inferItems_complete (between : Between M Γ Δ st) (typed : ItemsTyped Means M Δ items Δ') :
    Completes (fun Γ' _ _ => Γ'.Related Scheme.Generalizes Δ') (inferItems Γ items st) := by
  induction items generalizing M Γ Δ st with
  | nil =>
    cases typed
    exact completes_pure .var between.general
  | cons item items ih =>
    cases typed with
    | cons first rest =>
      refine (inferItem_complete between first).bind ?_
      rintro Γ₁ st₁ _ next
      exact ih next rest

theorem between_start (closed : Γ.Closed) (general : Γ.Related Scheme.Generalizes Δ) (items : List Item) :
    Between ∅ Γ Δ (startState Γ items) where
  closed := closed
  measures := rfl
  given _ := Env.lt_supply
  general := general

end

end Infer

/-- The numbers for variables run out: all are in use at the start, or the run stops at the last one. -/
def Exhausts (Γ : Env) (items : List Item) : Prop :=
  varLimit ≤ Γ.supply ∨
    ∃ st, (inferFrom Γ items).run {} = .error .outOfVariables st ∧ varLimit ≤ st.next + 1

theorem not_exhausts_of_ok {Γ Γ' : Env} {items : List Item} (run : runInfer Γ items = .ok Γ') :
    ¬ Exhausts Γ items := by
  obtain ⟨enough, _⟩ := runInfer_ok.mp run
  rintro (full | ⟨st, stopped, _⟩)
  · exact Nat.lt_irrefl _ (Nat.lt_of_lt_of_le enough full)
  · rw [runInfer, stopped] at run
    cases run

/-- A program that is typed by the rules is inferred in any environment that is at least as general, with
    schemes that are at least as general. -/
theorem runInfer_complete_of_generalizes {Γ Δ Δ' : Env} {items : List Item} (closed : Γ.Closed)
    (general : Γ.Related Scheme.Generalizes Δ) (typed : ItemsTyped Means ∅ Δ items Δ') (enough : ¬ Exhausts Γ items) :
    ∃ Γ', runInfer Γ items = .ok Γ' ∧ Γ'.Related Scheme.Generalizes Δ' := by
  have completes := inferItems_complete (between_start closed general items) typed
  have free : Γ.supply < varLimit := Nat.not_le.mp fun full => enough (.inl full)
  have same : inferFrom Γ items {} = inferItems Γ items (startState Γ items) := by rw [inferFrom_run, if_pos free]
  cases run : inferItems Γ items (startState Γ items) with
  | ok Γ' st =>
    rw [run] at completes
    obtain ⟨_, general⟩ := completes
    exact ⟨Γ', runInfer_ok.mpr ⟨free, st, run⟩, general⟩
  | error e st =>
    rw [run] at completes same
    obtain ⟨rfl, full⟩ := completes
    exact absurd (.inr ⟨st, same, full⟩) enough

theorem runInfer_complete {Γ Δ : Env} {items : List Item} (closed : Γ.Closed) (typed : ItemsTyped Means ∅ Γ items Δ)
    (enough : ¬ Exhausts Γ items) : ∃ Γ', runInfer Γ items = .ok Γ' ∧ Γ'.Related Scheme.Generalizes Δ :=
  runInfer_complete_of_generalizes closed (Env.related_refl fun _ _ _ _ => id) typed enough

/-- A program that is typed by the rules is inferred, unless the numbers for variables run out, and
    every typing of it has schemes that are instances of the inferred ones. -/
theorem runInfer_principal (Γ : Env) (items : List Item) (closed : Γ.Closed)
    (typable : ∃ Δ, ItemsTyped Means ∅ Γ items Δ) (enough : ¬ Exhausts Γ items) :
    ∃ Γ', runInfer Γ items = .ok Γ' ∧ ∀ Δ, ItemsTyped Means ∅ Γ items Δ → Γ'.Related Scheme.Generalizes Δ := by
  obtain ⟨Δ₀, typed₀⟩ := typable
  obtain ⟨Γ', run, _⟩ := runInfer_complete closed typed₀ enough
  refine ⟨Γ', run, fun Δ typed => ?_⟩
  obtain ⟨Γ'', again, general⟩ := runInfer_complete closed typed enough
  cases run.symm.trans again
  exact general

/-- By the rules `pair` may be typed for numbers only. -/
theorem pairItems_typed :
    ItemsTyped Means ∅ identityEnv pairItems (bodyEnv identityEnv [("pair", .func .int (.tuple .int .bool []))]) := by
  have use (t : Ty) : HasType ∅ (Means ∅) (identityEnv.extendMono [("x", .int)]) (.ident ⟨"id", {}⟩) (.func t t) :=
    .ident (σ := ⟨[0], .func (.var 0) (.var 0)⟩) (by cbv)
      ⟨fun v => if v = 0 then t else .var v, fun v other => if_neg (by simpa using other), rfl⟩
  have arg : HasType ∅ (Means ∅) (identityEnv.extendMono [("x", .int)]) (.ident ⟨"x", {}⟩) .int :=
    .ident (σ := .mono .int) (by cbv) ⟨.var, fun _ _ => rfl, rfl⟩
  have pair := HaveTypes.cons (.apply {} (use .int) arg)
    (.cons (.apply {} (use .bool) (.const {} (.bool true))) .nil)
  have value := HasType.lambda {} (by decide) (.ident ⟨"x", {}⟩ .int) (.tuple {} pair)
  exact .cons (.letGroup (by decide) (.cons value (.ident _ _) .nil)) .nil

theorem pairItems_principal :
    ∃ Γ, runInfer identityEnv pairItems = .ok Γ ∧
      Γ.Related Scheme.Generalizes (bodyEnv identityEnv [("pair", .func .int (.tuple .int .bool []))]) := by
  have run : runInfer identityEnv pairItems =
      .ok (identityEnv.insert "pair" ⟨[3], .func (.var 3) (.tuple (.var 3) .bool [])⟩) := by cbv
  obtain ⟨Γ, run, general⟩ := runInfer_principal identityEnv pairItems identityEnv_closed ⟨_, pairItems_typed⟩
    (not_exhausts_of_ok run)
  exact ⟨Γ, run, general _ pairItems_typed⟩

/-- A program that is inferred in one prelude is inferred in every more general one, unless the numbers for
    variables run out, and with schemes that are more general. -/
theorem runInfer_monotone (Γ Δ : Env) (items : List Item) (closed : Γ.Closed) (closed' : Δ.Closed)
    (general : Γ.Related Scheme.Generalizes Δ) (unnamed : ∀ item ∈ items, item.NoNamedVars) (Δ' : Env)
    (run : runInfer Δ items = .ok Δ') (enough : ¬ Exhausts Γ items) :
    ∃ Γ', runInfer Γ items = .ok Γ' ∧ Γ'.Related Scheme.Generalizes Δ' := by
  -- The two runs need not go alike; what they have in common is the derivation that the less general one gives.
  obtain ⟨_, st', run⟩ := runInfer_ok.mp run
  have silent := (quiet_inferItems Δ items unnamed _ _ _ run).2
  have typed : ItemsTyped Means ∅ Δ items Δ' :=
    (inferItems_sound closed' run).2 (State.before_self st') (steady_of_silent silent fun v => Env.lt_supply)
  exact runInfer_complete_of_generalizes closed general typed enough

/-- An environment with the identity function on numbers. -/
def numberEnv : Env :=
  (∅ : Env).insert "id" ⟨[], .func .int .int⟩

/-- The program `let pair = fun x -> (id x, id 1)`. -/
def numberItems : List Item :=
  let use (arg : Expr) : Expr := .apply (.ident ⟨"id", {}⟩) arg {}
  let pair : Expr := .tuple [use (.ident ⟨"x", {}⟩), use (.const (.number (.int 1)) {})] {}
  [.letGroup false [⟨.ident ⟨"pair", {}⟩, .lambda (.ident ⟨"x", {}⟩) pair {}⟩]]

theorem numberEnv_closed : numberEnv.Closed := by
  refine Env.closed_of_freeVars fun v => ?_
  rw [show numberEnv.freeVars = ∅ by cbv]
  exact Std.ExtTreeSet.not_mem_empty

theorem identityEnv_generalizes : identityEnv.Related Scheme.Generalizes numberEnv := by
  refine (Env.related_refl fun _ _ _ _ => id).insert "id" fun t inst => ?_
  obtain ⟨θ, _, rfl⟩ := inst
  exact ⟨fun v => if v = 0 then .int else .var v, fun v other => if_neg (by simpa using other), rfl⟩

theorem numberItems_monotone : ∃ Γ Δ, runInfer identityEnv numberItems = .ok Γ ∧ runInfer numberEnv numberItems = .ok Δ ∧
    Γ.Related Scheme.Generalizes Δ ∧ Γ["pair"]? = some ⟨[3], .func (.var 3) (.tuple (.var 3) .int [])⟩ ∧
    Δ["pair"]? = some ⟨[], .func .int (.tuple .int .int [])⟩ := by
  have run : runInfer identityEnv numberItems =
      .ok (identityEnv.insert "pair" ⟨[3], .func (.var 3) (.tuple (.var 3) .int [])⟩) := by cbv
  have run' : runInfer numberEnv numberItems =
      .ok (numberEnv.insert "pair" ⟨[], .func .int (.tuple .int .int [])⟩) := by cbv
  obtain ⟨Γ, again, general⟩ := runInfer_monotone identityEnv numberEnv numberItems identityEnv_closed numberEnv_closed
    identityEnv_generalizes (by decide) _ run' (not_exhausts_of_ok run)
  cases run.symm.trans again
  exact ⟨_, _, run, run', general, Std.ExtTreeMap.getElem?_insert_self, Std.ExtTreeMap.getElem?_insert_self⟩

end LetPoly
