import Std.Data.TreeMap
import LetPoly.Proofs.Soundness
import LetPoly.Proofs.Steps
import LetPoly.Typing.Program

/-!
Soundness of inference for whole programs (`runInfer_sound`): the schemes that are inferred for a
program without named annotation variables have a derivation. Between items all schemes are closed,
and what they quantify is below the supply of new variables.
-/
namespace LetPoly

namespace Env

theorem Closed.not_mem_freeVars {Γ : Env} (closed : Γ.Closed) (v : TyVar) : v ∉ Γ.freeVars := by
  intro free
  obtain ⟨name, σ, look, free⟩ := mem_freeVars.mp free
  exact closed name σ look v free

theorem closed_of_freeVars {Γ : Env} (none : ∀ v, v ∉ Γ.freeVars) : Γ.Closed :=
  fun name σ look v free => none v (mem_freeVars.mpr ⟨name, σ, look, free⟩)

theorem closed_empty : Closed ∅ := by
  intro name σ look
  simp at look

theorem Closed.subst_eq_self {Γ : Env} (closed : Γ.Closed) (s : Subst) : Γ.subst s = Γ :=
  Env.subst_eq_self fun v free => absurd free (closed.not_mem_freeVars v)

theorem Closed.bodyEnv {Γ : Env} (closed : Γ.Closed) (named : List (String × Ty)) :
    Closed (Typing.bodyEnv Γ named) :=
  closed_of_freeVars fun v free => closed.not_mem_freeVars v (Infer.mem_freeVars_bodyEnv free)

/-- Every variable that an environment mentions is below its supply. -/
theorem below_supply (Γ : Env) : Γ.Below Γ.supply := by
  have fold (vars : List TyVar) (n : Nat) :
      n ≤ vars.foldl (fun n v => max n (v + 1)) n ∧ ∀ v ∈ vars, v < vars.foldl (fun n v => max n (v + 1)) n := by
    induction vars generalizing n with
    | nil => simp
    | cons w vars ih =>
      obtain ⟨least, above⟩ := ih (max n (w + 1))
      have first : w < vars.foldl (fun n v => max n (v + 1)) (max n (w + 1)) :=
        Nat.lt_of_lt_of_le (Nat.lt_of_lt_of_le (Nat.lt_succ_self w) (Nat.le_max_right n (w + 1))) least
      refine ⟨Nat.le_trans (Nat.le_max_left n (w + 1)) least, ?_⟩
      simp only [List.mem_cons, forall_eq_or_imp]
      exact ⟨first, above⟩
  exact (fold Γ.mentioned 0).2

/-- What a scheme quantifies is below the supply. -/
theorem lt_supply {Γ : Env} {v : TyVar} (bound : Γ.Binds v) : v < Γ.supply := by
  obtain ⟨name, σ, look, member⟩ := bound
  apply below_supply Γ v
  simp only [mentioned, List.mem_flatMap]
  exact ⟨(name, σ), Std.ExtTreeMap.mem_toList_iff_getElem?_eq_some.mpr look, List.mem_append_right _ member⟩

end Env

namespace Infer
open State Typing

/-- From `st` until `fin` nothing is captured, and the reading of annotations fits, whatever measures
    are declared. -/
structure Steady (R : Measures → Reading) (Γ : Env) (st fin : State) : Prop where
  stable : ∀ M, (R M).Stable
  allows : ∀ (M : Measures) (a : TypeExpr) (t : Ty), (st.Silent fin → Means M a t) → R M a t
  kept : Kept (fun _ => False) Γ st fin

section
variable {R : Measures → Reading} {Γ Γ' : Env} {st st' fin : State}

theorem Steady.calm (steady : Steady R Γ st fin) :
    Calm (fun _ => False) st.measures (R st.measures) Γ { st with named := ∅, solved := ∅ } fin where
  allows := ⟨rfl, steady.stable st.measures, steady.allows st.measures⟩
  kept := steady.kept

theorem Steady.step {K : TyVar → Prop} {M : Measures} {A : Reading} (steady : Steady R Γ st fin)
    (before : st.Before st') (upto : st'.Before fin) (calm : Calm K M A Γ' st' fin) : Steady R Γ' st' fin where
  stable := steady.stable
  allows M a t means := steady.allows M a t fun silent => means (silent.right before upto)
  kept := calm.kept.forget fun _ => False.elim

/-- A closed environment stays as it is. -/
theorem Steady.keep {s : Subst} (steady : Steady R Γ st fin) (closed : Γ.Closed)
    (reach : Reach (fun _ => False) { st with named := ∅, solved := ∅ } s st') (upto : st'.Before fin) :
    Steady R Γ st' fin := by
  have calm := steady.calm.step reach upto
  rw [closed.subst_eq_self] at calm
  exact steady.step reach.journal upto calm

theorem scope_start (st : State) : Scope (fun _ => False) { st with named := ∅, solved := ∅ } where
  consistent := ⟨by simp, by simp, by simp⟩
  live _ := False.elim

theorem inferGroup_sound {K : TyVar → Prop} {recursive : Bool} {bindings : List (Binding Expr)} {s : Subst}
    (scope : Scope K st) (inside : Γ.In K) (run : inferGroup Γ recursive bindings st = .ok (s, Γ') st') :
    ∃ named, (groupNames bindings).Nodup ∧ Γ' = bodyEnv (Γ.subst s) named ∧ Reach K st s st' ∧
      ∀ {M : Measures} {A : Reading} {fin : State}, st'.Before fin → Calm K M A Γ st fin →
        ValuesTyped M A (valueEnv (Γ.subst s) recursive named) bindings named ∧
        Calm (· ∈ (Γ.subst s).freeVars) M A Γ' st' fin :=
  groupOf_sound scope inside (inferPlain_sound scope (solves_empty st) (Env.inUnder_empty.mpr inside) bindings)
    (fun scope solves inside known length => inferValues_sound scope solves inside known bindings length) run

/-- An item is typed with the schemes that are inferred for it. -/
theorem inferItem_sound {item : Item} (closed : Γ.Closed) (run : inferItem Γ item st = .ok Γ' st') :
    Γ'.Closed ∧ st.Before st' ∧
      ∀ {R : Measures → Reading} {fin : State}, st'.Before fin → Steady R Γ st fin →
        ItemTyped R st.measures Γ item st'.measures Γ' ∧ Steady R Γ' st' fin := by
  have inside : Γ.In fun _ => False := closed.not_mem_freeVars
  obtain ⟨_, st₁, start, run⟩ := bind_ok.mp run
  cases start
  cases item with
  | expr value =>
    obtain ⟨⟨s, t⟩, st₂, run₁, run⟩ := bind_ok.mp run
    obtain ⟨_, st₃, run₂, done⟩ := bind_ok.mp run
    cases done
    obtain ⟨reach₁, _, typed⟩ := inferExpr_sound (scope_start st) inside value run₁
    have reach := reach₁.trans_empty (record_reach reach₁.consistent (by simp [Event.solution]) (by simp) run₂)
    have before : st₂.Before st' := before_append (by rw [record_ok.mp run₂])
    rw [closed.subst_eq_self] at typed ⊢
    refine ⟨closed, reach.journal, fun upto steady => ⟨?_, steady.keep closed reach upto⟩⟩
    rw [reach.measures]
    exact .expr (typed (before.trans upto) steady.calm)
  | letGroup recursive bindings =>
    obtain ⟨⟨s, Δ⟩, st₂, run₁, done⟩ := bind_ok.mp run
    cases done
    obtain ⟨named, distinct, rfl, reach, sound⟩ := inferGroup_sound (scope_start st) inside run₁
    rw [closed.subst_eq_self] at sound ⊢
    refine ⟨closed.bodyEnv named, reach.journal, fun upto steady => ?_⟩
    obtain ⟨typed, calm⟩ := sound upto steady.calm
    rw [reach.measures]
    exact ⟨.letGroup distinct typed, steady.step reach.journal upto calm⟩
  | measure name definition span =>
    obtain ⟨_, st₂, run₁, run⟩ := bind_ok.mp run
    obtain ⟨_, st₃, run₂, run⟩ := bind_ok.mp run
    obtain ⟨rfl, declared⟩ := checkDefinition_ok.mp run₁
    have reach := record_reach (K := fun _ => False) (scope_start st).consistent (by simp [Event.solution]) (by simp) run₂
    cases record_ok.mp run₂
    cases run
    refine ⟨closed, reach.journal, fun upto steady => ⟨.measure span declared, ?_⟩⟩
    have after := steady.keep closed reach upto
    exact ⟨after.stable, after.allows, after.kept⟩

/-- A program is typed with the schemes that are inferred for it, item by item. -/
theorem inferItems_sound {items : List Item} (closed : Γ.Closed) (run : inferItems Γ items st = .ok Γ' st') :
    st.Before st' ∧ ∀ {R : Measures → Reading} {fin : State}, st'.Before fin → Steady R Γ st fin →
      ItemsTyped R st.measures Γ items Γ' := by
  induction items generalizing Γ st with
  | nil =>
    cases run
    exact ⟨before_self _, fun _ _ => .nil⟩
  | cons item items ih =>
    obtain ⟨Δ, st₁, run₁, run₂⟩ := bind_ok.mp run
    obtain ⟨closed₁, before₁, first⟩ := inferItem_sound closed run₁
    obtain ⟨before₂, rest⟩ := ih closed₁ run₂
    refine ⟨before₁.trans before₂, fun upto steady => ?_⟩
    obtain ⟨typed, steady₁⟩ := first (before₂.trans upto) steady
    exact .cons typed (rest upto steady₁)

/-- The state in which the items of a program are inferred. -/
def startState (Γ : Env) (items : List Item) : State :=
  { next := Γ.supply, journal := #[.began items.length] }

theorem inferFrom_run (Γ : Env) (items : List Item) : inferFrom Γ items {} =
    if Γ.supply < varLimit then inferItems Γ items (startState Γ items) else .error .outOfVariables {} := by
  unfold inferFrom reserve
  by_cases enough : Γ.supply < varLimit
  · rw [if_pos enough, if_pos enough, startState, ← Nat.zero_max Γ.supply]
    rfl
  · rw [if_neg enough, if_neg enough]
    rfl

theorem runInfer_ok {items : List Item} :
    runInfer Γ items = .ok Γ' ↔
      Γ.supply < varLimit ∧ ∃ st', inferItems Γ items (startState Γ items) = .ok Γ' st' := by
  show outcome (inferFrom Γ items {}) = _ ↔ _
  rw [inferFrom_run]
  by_cases enough : Γ.supply < varLimit
  · rw [if_pos enough]
    cases inferItems Γ items (startState Γ items) <;> simp [outcome, enough]
  · simp [outcome, enough]

theorem steady_of_silent (silent : st.Silent fin) (given : ∀ v, Γ.Binds v → v < st.next) :
    Steady Means Γ st fin where
  stable := stable_means
  allows _ _ _ means := means silent
  kept := .inr ⟨silent, fun v bound => ⟨given v bound, id⟩⟩

end

end Infer

open Infer Typing

/-- The schemes that are inferred for a program without named annotation variables are derivable. -/
theorem runInfer_sound (Γ : Env) (items : List Item) (closed : Γ.Closed) (unnamed : ∀ item ∈ items, item.NoNamedVars)
    (Γ' : Env) (run : runInfer Γ items = .ok Γ') : ItemsTyped Means ∅ Γ items Γ' := by
  obtain ⟨_, st', run⟩ := runInfer_ok.mp run
  have silent := (quiet_inferItems Γ items unnamed _ _ _ run).2
  exact (inferItems_sound closed run).2 (State.before_self st') (steady_of_silent silent fun v => Env.lt_supply)

/-- An environment with the identity function. -/
def identityEnv : Env :=
  (∅ : Env).insert "id" ⟨[0], .func (.var 0) (.var 0)⟩

/-- The program `let pair = fun x -> (id x, id true)`. -/
def pairItems : List Item :=
  let use (arg : Expr) : Expr := .apply (.ident ⟨"id", {}⟩) arg {}
  let pair : Expr := .tuple [use (.ident ⟨"x", {}⟩), use (.const (.bool true) {})] {}
  [.letGroup false [⟨.ident ⟨"pair", {}⟩, .lambda (.ident ⟨"x", {}⟩) pair {}⟩]]

theorem identityEnv_closed : identityEnv.Closed := by
  refine Env.closed_of_freeVars fun v => ?_
  rw [show identityEnv.freeVars = ∅ by cbv]
  exact Std.ExtTreeSet.not_mem_empty

theorem pairItems_sound :
    ∃ Γ, runInfer identityEnv pairItems = .ok Γ ∧ ItemsTyped Means ∅ identityEnv pairItems Γ ∧
      Γ["pair"]? = some ⟨[3], .func (.var 3) (.tuple (.var 3) .bool [])⟩ := by
  have run : runInfer identityEnv pairItems =
      .ok (identityEnv.insert "pair" ⟨[3], .func (.var 3) (.tuple (.var 3) .bool [])⟩) := by cbv
  exact ⟨_, run, runInfer_sound identityEnv pairItems identityEnv_closed (by decide) _ run,
    Std.ExtTreeMap.getElem?_insert_self⟩

end LetPoly
