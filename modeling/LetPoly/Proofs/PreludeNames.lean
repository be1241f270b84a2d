import LetPoly.Proofs.Alike
import LetPoly.Proofs.Freshness
import LetPoly.Proofs.ProgramSoundness
import LetPoly.Proofs.Simulation

/-!
The names of the quantified variables of an environment do not matter to the programs that are inferred
in it, as long as its schemes capture nothing (`runInfer_alpha`). A scheme captures nothing if it does
not quantify a variable that is free in the environment (`Apart`), because all that is put for variables
speaks of free and of new variables. Without this the names do matter (`capturingItems_not_alpha`).
-/
namespace LetPoly

/-- No scheme that has free variables quantifies a variable that is free in the environment. -/
def Env.Apart (Γ : Env) : Prop :=
  ∀ (name : String) (σ : Scheme), Γ[name]? = some σ → ∀ u ∈ σ.freeVars, ∀ v ∈ σ.vars, v ∉ Γ.freeVars

/-- At the start of two runs the variables that are free in both environments are shared. -/
def startPairing (Γ Δ : Env) : Pairing where
  name v := v
  shared v := v ∈ Γ.freeVars ∧ v ∈ Δ.freeVars
  left := Γ.supply
  right := Δ.supply
  injective := fun _ _ same => same
  left_below v free := Env.below_supply Γ v (Env.mem_mentioned_of_free free.1)
  right_below v free := Env.below_supply Δ v (Env.mem_mentioned_of_free free.2)

/-- The comparison of runs in two environments. -/
abbrev startComparison (Γ Δ : Env) : Comparison :=
  .upToNames (startPairing Γ Δ).shared Γ.supply Δ.supply

section
variable {Γ Δ : Env}

theorem alike_start (alpha : Env.Related Scheme.AlphaEq Γ Δ) : Env.Related (startPairing Γ Δ).Alike Γ Δ := by
  refine alpha.imp fun name σ τ look look' ⟨π, injective, bound, same⟩ => ⟨π, injective, fun v member => ?_, same⟩
  refine ⟨(bound v member).1, fun free => ?_⟩
  have fixed := (bound v member).2 free
  have found : v ∈ τ.ty.freeVars := same ▸ Ty.mem_freeVars_rename.mpr ⟨v, member, fixed⟩
  have free' : v ∉ τ.vars := fixed ▸ mt (bound v member).1.mpr free
  exact ⟨⟨Env.mem_freeVars.mpr ⟨name, σ, look, Scheme.mem_freeVars.mpr ⟨member, free⟩⟩,
    Env.mem_freeVars.mpr ⟨name, τ, look', Scheme.mem_freeVars.mpr ⟨found, free'⟩⟩⟩, fixed⟩

/-- Environments that are equal up to the names of quantified variables correspond at the start. -/
theorem sameEnv_start (alpha : Env.Related Scheme.AlphaEq Γ Δ) (apart : Γ.Apart) (apart' : Δ.Apart) :
    (startComparison Γ Δ).SameEnv (startPairing Γ Δ) Γ Δ := by
  refine (alike_start alpha).imp fun name σ τ look look' alike => .inr ⟨alike, fun u free => ?_⟩
  have free' : u ∈ τ.freeVars := alike.mem_freeVars.mpr ⟨u, free, rfl⟩
  constructor
  · intro v member
    exact ⟨Env.lt_supply ⟨name, σ, look, member⟩, fun shared => apart name σ look u free v member shared.1⟩
  · intro v member
    exact ⟨Env.lt_supply ⟨name, τ, look', member⟩, fun shared => apart' name τ look' u free' v member shared.2⟩

theorem sameState_start (Γ Δ : Env) (items : List Item) :
    (startPairing Γ Δ).SameState (Infer.startState Γ items) (Infer.startState Δ items) where
  left := rfl
  right := rfl
  measures := rfl
  named := by simp [Infer.startState]
  shared := by simp [Infer.startState]
  solved := Pairing.sameSubst_empty _

/-- Items are inferred in parallel from the start. -/
theorem agree_start (alpha : Env.Related Scheme.AlphaEq Γ Δ) (apart : Γ.Apart) (apart' : Δ.Apart) (items : List Item) :
    (startComparison Γ Δ).Agree (startPairing Γ Δ) (startComparison Γ Δ).SameEnv
      (Infer.inferItems Γ items (Infer.startState Γ items)) (Infer.inferItems Δ items (Infer.startState Δ items)) :=
  Comparison.parallel_inferItems (Comparison.lawful_upToNames _ _ _) (sameEnv_start alpha apart apart') items
    ⟨Nat.le_refl _, Nat.le_refl _, fun _ shared => .inl ⟨shared, rfl⟩⟩ _ _ (sameState_start Γ Δ items)

/-- Runs that agree and have enough variables end with the same error or with related results. -/
theorem Comparison.Agree.outcomes {α β : Type} {C : Comparison} {P : Pairing} {A : Pairing → α → β → Prop}
    {x : EStateM.Result Failure State α} {y : EStateM.Result Failure State β} (agree : C.Agree P A x y)
    (enough : Infer.outcome x ≠ .error .outOfVariables) (enough' : Infer.outcome y ≠ .error .outOfVariables) :
    ∃ Q : Pairing, P.Grows Q ∧ C.keeps Q ∧
      ((∃ e, Infer.outcome x = .error (.illTyped e) ∧ Infer.outcome y = .error (.illTyped (e.rename Q.name))) ∨
       ∃ a b, Infer.outcome x = .ok a ∧ Infer.outcome y = .ok b ∧ A Q a b) := by
  cases agree with
  | ok grows keeps _ related => exact ⟨_, grows, keeps, .inr ⟨_, _, rfl, rfl, related⟩⟩
  | illTyped grows keeps _ => exact ⟨_, grows, keeps, .inl ⟨_, rfl, rfl⟩⟩
  | outLeft _ => exact absurd rfl enough
  | outRight => exact absurd rfl enough'

theorem Pairing.Alike.alphaEq {P : Pairing} {σ τ : Scheme} (alike : P.Alike σ τ) : (σ.rename P.name).AlphaEq τ := by
  obtain ⟨π, injective, bound, same⟩ := alike
  obtain ⟨π', back⟩ : ∃ π' : TyVar → TyVar, ∀ v, π' (P.name v) = π v :=
    ⟨fun w => π (Function.invFun P.name w), fun v => congrArg π (Function.leftInverse_invFun P.injective v)⟩
  have member_iff {v : TyVar} : P.name v ∈ (σ.rename P.name).vars ↔ v ∈ σ.vars := by
    simp [Scheme.rename, P.injective.eq_iff]
  refine ⟨π', fun v member w member' equal => ?_, fun w member => ?_, ?_⟩
  · obtain ⟨v, found, rfl⟩ := Ty.mem_freeVars_rename.mp member
    obtain ⟨w, found', rfl⟩ := Ty.mem_freeVars_rename.mp member'
    rw [back, back] at equal
    rw [injective v found w found' equal]
  · obtain ⟨v, found, rfl⟩ := Ty.mem_freeVars_rename.mp member
    rw [back, member_iff]
    exact ⟨(bound v found).1, fun free => ((bound v found).2 free).2⟩
  · simp only [Scheme.rename, Ty.rename_rename, back]
    exact same

theorem runInfer_run {items : List Item} (enough : runInfer Γ items ≠ .error .outOfVariables) :
    runInfer Γ items = Infer.outcome (Infer.inferItems Γ items (Infer.startState Γ items)) := by
  have run : runInfer Γ items = Infer.outcome (Infer.inferFrom Γ items {}) := rfl
  rw [run, Infer.inferFrom_run] at enough ⊢
  split
  · rfl
  · rename_i few
    rw [if_neg few] at enough
    exact absurd rfl enough

end

/-- Two environments that are equal up to the names of quantified variables, and whose schemes do not
    capture, give the same results to every program: the same error, or schemes that are equal up to the
    names of quantified variables. One renaming leads from one to the other; it leaves the free
    variables of the environments as they are and renames variables that they do not mention. -/
theorem runInfer_alpha (Γ Δ : Env) (items : List Item) (alpha : Env.Related Scheme.AlphaEq Γ Δ) (apart : Γ.Apart)
    (apart' : Δ.Apart) (enough : runInfer Γ items ≠ .error .outOfVariables)
    (enough' : runInfer Δ items ≠ .error .outOfVariables) :
    ∃ ρ : TyVar → TyVar, Function.Injective ρ ∧ (∀ v ∈ Γ.freeVars, ρ v = v) ∧
      ((∃ e, runInfer Γ items = .error (.illTyped e) ∧ runInfer Δ items = .error (.illTyped (e.rename ρ))) ∨
       ∃ Γ' Δ', runInfer Γ items = .ok Γ' ∧ runInfer Δ items = .ok Δ' ∧
        Env.Related (fun σ τ => (σ.rename ρ).AlphaEq τ) Γ' Δ' ∧
        ∀ v ∈ Γ'.freeVars, v ∈ Γ.freeVars ∨ v ∉ Γ.mentioned ∧ ρ v ∉ Δ.mentioned) := by
  have run := runInfer_run enough
  have run' := runInfer_run enough'
  rw [run] at enough ⊢
  rw [run'] at enough' ⊢
  obtain ⟨Q, grows, keeps, results⟩ := (agree_start alpha apart apart' items).outcomes enough enough'
  refine ⟨Q.name, Q.injective, fun v free => (grows.keep v ((alike_start alpha).shared free)).2, results.imp_right ?_⟩
  rintro ⟨Γ', Δ', done, done', same⟩
  have alike : Env.Related Q.Alike Γ' Δ' := same.imp fun _ _ _ _ _ => Comparison.alike_of_upToNames
  refine ⟨Γ', Δ', done, done', alike.imp fun _ _ _ _ _ => (·.alphaEq), fun v free => ?_⟩
  -- A shared variable is one of the start or above what the environments mention.
  rcases keeps.2.2 v (alike.shared free) with ⟨free, _⟩ | ⟨above, above'⟩
  · exact .inl free.1
  · exact .inr ⟨fun member => Nat.not_lt_of_le above (Env.below_supply Γ v member),
      fun member => Nat.not_lt_of_le above' (Env.below_supply Δ _ member)⟩

/-- An environment with `f : ∀ 'v. 't1 -> 'v` and `x : 't0`. -/
def openEnv (v : TyVar) : Env :=
  ((∅ : Env).insert "f" ⟨[v], .func (.var 1) (.var v)⟩).insert "x" (.mono (.var 0))

theorem getElem?_openEnv {v : TyVar} {name : String} {σ : Scheme} (look : (openEnv v)[name]? = some σ) :
    σ = .mono (.var 0) ∨ σ = ⟨[v], .func (.var 1) (.var v)⟩ := by
  simp only [openEnv, Env.getElem?_insert_eq] at look
  split at look
  · exact .inl (Option.some.inj look).symm
  · split at look
    · exact .inr (Option.some.inj look).symm
    · simp at look

theorem mem_freeVars_openType {u v : TyVar} : u ∈ (Ty.func (.var 1) (.var v)).freeVars ↔ u = 1 ∨ u = v := by
  simp [Ty.freeVars, Std.ExtTreeSet.mem_union_iff, eq_comm (b := u)]

/-- The environments are equal up to the name of the quantified variable. -/
theorem openEnv_alpha {v w : TyVar} (left : v ≠ 1) (right : w ≠ 1) :
    Env.Related Scheme.AlphaEq (openEnv v) (openEnv w) := by
  have kept : Equiv.swap v w 1 = 1 := Equiv.swap_apply_of_ne_of_ne left.symm right.symm
  have function : Scheme.AlphaEq ⟨[v], .func (.var 1) (.var v)⟩ ⟨[w], .func (.var 1) (.var w)⟩ := by
    refine ⟨Equiv.swap v w, fun _ _ _ _ same => Equiv.injective _ same, fun u member => ?_, by simp [kept]⟩
    rcases mem_freeVars_openType.mp member with rfl | rfl
    · simp [kept, left.symm, right.symm]
    · simp
  have same : Scheme.AlphaEq (.mono (.var 0)) (.mono (.var 0)) := ⟨id, by simp, by simp [Scheme.mono], rfl⟩
  exact ((Env.related_refl (by simp)).insert "f" function).insert "x" same

theorem mem_freeVars_openEnv {u v : TyVar} (free : u ∈ (openEnv v).freeVars) : u = 0 ∨ u = 1 := by
  obtain ⟨name, σ, look, free⟩ := Env.mem_freeVars.mp free
  rcases getElem?_openEnv look with rfl | rfl
  · exact .inl (by simpa using free)
  · obtain ⟨member, free⟩ := Scheme.mem_freeVars.mp free
    exact .inr ((mem_freeVars_openType.mp member).resolve_right (by simpa using free))

theorem openEnv_apart {v : TyVar} (new : v ≠ 0) (new' : v ≠ 1) : (openEnv v).Apart := by
  intro name σ look u free w member free'
  rcases getElem?_openEnv look with rfl | rfl
  · simp [Scheme.mono] at member
  · obtain rfl : w = v := by simpa using member
    exact (mem_freeVars_openEnv free').elim new new'

/-- The program `let g = f`, `f x`. -/
def sharingItems : List Item :=
  let name (id : String) : Expr := .ident ⟨id, {}⟩
  [.letGroup false [⟨.ident ⟨"g", {}⟩, name "f"⟩], .expr (.apply (name "f") (name "x") {})]

/-- The runs share `'t0`, and `'t3` in one is `'t6` in the other. -/
theorem sharingItems_alpha : ∃ ρ : TyVar → TyVar, Function.Injective ρ ∧ ρ 0 = 0 ∧
    ∃ Γ Δ, runInfer (openEnv 2) sharingItems = .ok Γ ∧ runInfer (openEnv 5) sharingItems = .ok Δ ∧
      Env.Related (fun σ τ => (σ.rename ρ).AlphaEq τ) Γ Δ ∧
      Γ["g"]? = some ⟨[3], .func (.var 0) (.var 3)⟩ ∧ Δ["g"]? = some ⟨[6], .func (.var 0) (.var 6)⟩ := by
  have run : runInfer (openEnv 2) sharingItems = .ok
      ((((∅ : Env).insert "f" ⟨[2], .func (.var 0) (.var 2)⟩).insert "x" (.mono (.var 0))).insert "g"
        ⟨[3], .func (.var 0) (.var 3)⟩) := by cbv
  have run' : runInfer (openEnv 5) sharingItems = .ok
      ((((∅ : Env).insert "f" ⟨[5], .func (.var 0) (.var 5)⟩).insert "x" (.mono (.var 0))).insert "g"
        ⟨[6], .func (.var 0) (.var 6)⟩) := by cbv
  obtain ⟨ρ, injective, fixed, ⟨e, failed, _⟩ | ⟨Γ, Δ, done, done', same, _⟩⟩ :=
    runInfer_alpha (openEnv 2) (openEnv 5) sharingItems (openEnv_alpha (by decide) (by decide))
      (openEnv_apart (by decide) (by decide)) (openEnv_apart (by decide) (by decide)) (by simp [run]) (by simp [run'])
  · rw [run] at failed
    cases failed
  · have free : 0 ∈ (openEnv 2).freeVars := by
      refine Env.mem_freeVars.mpr ⟨"x", .mono (.var 0), ?_, by simp⟩
      simp [openEnv]
    rw [run] at done
    rw [run'] at done'
    cases done
    cases done'
    refine ⟨ρ, injective, fixed 0 free, _, _, run, run', same, ?_, ?_⟩ <;> exact Std.ExtTreeMap.getElem?_insert_self

/-- The program `f x`, `x 1`, `f 1`. -/
def capturingItems : List Item :=
  let name (id : String) : Expr := .ident ⟨id, {}⟩
  let one : Expr := .const (.number (.int 1)) {}
  [.expr (.apply (name "f") (name "x") {}), .expr (.apply (name "x") one {}), .expr (.apply (name "f") one {})]

/-- Without the condition the names matter: where `f` quantifies `'t0` it captures the type of `x`, and
    takes an integer then. -/
theorem capturingItems_not_alpha : Env.Related Scheme.AlphaEq (openEnv 0) (openEnv 2) ∧
    (∃ Γ, runInfer (openEnv 0) capturingItems = .ok Γ) ∧
    ∃ e, runInfer (openEnv 2) capturingItems = .error (.illTyped e) := by
  have run : runInfer (openEnv 0) capturingItems = .ok
      (((∅ : Env).insert "f" ⟨[0], .func (.var 0) (.var 0)⟩).insert "x" (.mono (.func .int (.var 4)))) := by cbv
  have run' : runInfer (openEnv 2) capturingItems =
      .error (.illTyped { cause := .mismatch (.func .int (.var 5)) .int none }) := by cbv
  exact ⟨openEnv_alpha (by decide) (by decide), ⟨_, run⟩, _, run'⟩

end LetPoly
