import LetPoly.Proofs.NormalForms
import LetPoly.Proofs.PreludeNames
import LetPoly.Proofs.Shift
import LetPoly.Proofs.TopLevel

/-!
A program may be inferred in parts. What the first part leaves to the second is its environment: the run of
the whole program has given out more variables by then than the environment mentions, but nothing
remains of them, so that the second part has the same result after a run of its own (`runInfer_append`).
-/
namespace LetPoly

/-- No number above all variables of an environment is less than its supply. -/
theorem Env.Below.supply_le {Γ : Env} {n : Nat} (below : Γ.Below n) : Γ.supply ≤ n := by
  have fold (vars : List TyVar) (all : ∀ v ∈ vars, v < n) (m : Nat) (start : m ≤ n) :
      vars.foldl (fun m v => max m (v + 1)) m ≤ n := by
    induction vars generalizing m with
    | nil => exact start
    | cons w vars ih =>
      simp only [List.mem_cons, forall_eq_or_imp] at all
      exact ih all.2 _ (Nat.max_le.mpr ⟨start, all.1⟩)
  exact fold Γ.mentioned below 0 (Nat.zero_le n)

/-- Renaming all variables does not change the normal forms of closed schemes. -/
theorem Env.Closed.normalize_rename {Γ : Env} (closed : Γ.Closed) {ρ : TyVar → TyVar} (injective : Function.Injective ρ) :
    Γ.Related (fun σ τ => σ.normalize = τ.normalize) (Γ.rename ρ) := by
  refine (Env.eq_rename_iff.mp rfl).imp fun name σ τ look _ same => ?_
  subst same
  exact ((closed name σ look).alphaEq_rename injective).normalize_eq

namespace Infer
variable {Γ : Env} {p q items : List Item} {st st' : State}

theorem inferItems_append (Γ : Env) (p q : List Item) :
    inferItems Γ (p ++ q) = inferItems Γ p >>= fun Δ => inferItems Δ q := by
  induction p generalizing Γ with
  | nil => rfl
  | cons item p ih => simp only [List.cons_append, inferItems, ih, bind_assoc]

/-- Items do not look at what an item before them has left behind. -/
theorem outcome_inferItems_restart (Γ : Env) (items : List Item) (st : State) :
    outcome (inferItems Γ items { st with named := ∅, solved := ∅ }) = outcome (inferItems Γ items st) := by
  cases items <;> rfl

/-- The first part of a program is inferred as if it was the whole program, as long as there are enough
    variables. The journal says how many items the program has, and nothing looks at the journal. -/
theorem inferItems_part (run : inferItems ∅ p (startState ∅ p) = .ok Γ st) (items : List Item) :
    (∃ st₁, inferItems ∅ p (startState ∅ items) = .ok Γ st₁ ∧ st₁.next = st.next ∧ Γ.Below st.next) ∨
      ∃ st₁, inferItems ∅ p (startState ∅ items) = .error .outOfVariables st₁ := by
  have ahead : Ahead 0 0 ∅ ∅ (startState ∅ p) (startState ∅ items) :=
    ⟨Nat.zero_le _, rfl, rfl, Env.below_supply ∅, (Env.rename_eq_self fun v _ => TyVar.shift_zero 0 v).symm⟩
  have agree : (Comparison.shifted 0 0).Agree _ _ (inferItems ∅ p (startState ∅ p))
      (inferItems ∅ p (startState ∅ items)) := ahead.inferItems p
  rw [run] at agree
  generalize inferItems ∅ p (startState ∅ items) = result at agree
  cases agree with
  | ok _ keeps states same =>
    obtain ⟨_, next, _, below, rfl⟩ := ahead_of_same keeps states same
    rw [Env.rename_eq_self fun v _ => TyVar.shift_zero 0 v]
    exact .inl ⟨_, rfl, next, below⟩
  | outRight => exact .inr ⟨_, rfl⟩

/-- What the first part leaves of its variables is below the supply. -/
theorem below_of_inferItems (run : inferItems ∅ p (startState ∅ p) = .ok Γ st) : Γ.Below st.next := by
  rcases inferItems_part run p with ⟨_, _, _, below⟩ | ⟨_, stopped⟩
  · exact below
  · rw [run] at stopped
    cases stopped

/-- The second part of a program is inferred in the state that the first part leaves. -/
theorem outcome_inferItems_append {Δ : Env} (run : inferItems Γ p st = .ok Δ st') :
    outcome (inferItems Γ (p ++ q) st) = outcome (inferItems Δ q { st' with named := ∅, solved := ∅ }) := by
  rw [outcome_inferItems_restart, inferItems_append]
  show outcome (EStateM.bind _ _ _) = _
  rw [EStateM.bind, run]

theorem outcome_inferItems_append_error {e : Failure} (run : inferItems Γ p st = .error e st') :
    outcome (inferItems Γ (p ++ q) st) = .error e := by
  rw [inferItems_append]
  show outcome (EStateM.bind _ _ _) = _
  rw [EStateM.bind, run]
  rfl

/-- Where the first part of a program ends, the run of the whole program is ahead of a new run. -/
theorem ahead_part {k : Nat} (plain : ∀ item ∈ p, item.declares = [])
    (run : inferItems ∅ p (startState ∅ items) = .ok Γ st) (next : st.next = Γ.supply + k) (q : List Item) :
    Ahead Γ.supply k Γ Γ (startState Γ q) st := by
  have later := inferItems_later ∅ (startState ∅ items) plain
  rw [run] at later
  exact ⟨Nat.le_refl _, next, later.measures, Γ.below_supply,
    (Env.rename_eq_self fun v mentioned => TyVar.shift_of_lt (Γ.below_supply v mentioned)).symm⟩

end Infer

open Infer

/-- A program that declares no measures may be inferred before what follows it. Its environment gives every
    continuation the result that it has in the whole program: the same error or the same schemes, with
    new variables shifted by a number that depends on the first part only. -/
theorem runInfer_append (p : List Item) (plain : ∀ item ∈ p, item.declares = []) (Γ : Env)
    (run : runInfer ∅ p = .ok Γ) :
    ∃ k, ∀ q : List Item, runInfer ∅ (p ++ q) ≠ .error .outOfVariables → runInfer Γ q ≠ .error .outOfVariables →
      (∃ e, runInfer Γ q = .error (.illTyped e) ∧
        runInfer ∅ (p ++ q) = .error (.illTyped (e.rename (TyVar.shift Γ.supply k)))) ∨
      ∃ Γ₁ Γ₂, runInfer Γ q = .ok Γ₁ ∧ runInfer ∅ (p ++ q) = .ok Γ₂ ∧ Γ₂ = Γ₁.rename (TyVar.shift Γ.supply k) ∧
        Γ₁.Related (fun σ τ => σ.normalize = τ.normalize) Γ₂ := by
  obtain ⟨_, st, run⟩ := runInfer_ok.mp run
  -- A run of its own starts right above what the environment mentions, and `k` below the end of the first part.
  obtain ⟨k, next⟩ := Nat.exists_eq_add_of_le (below_of_inferItems run).supply_le
  refine ⟨k, fun q enough enough' => ?_⟩
  have whole := runInfer_run enough
  have alone := runInfer_run enough'
  rcases inferItems_part run (p ++ q) with ⟨st₁, part, counted, _⟩ | ⟨st₁, stopped⟩
  · rw [outcome_inferItems_append part] at whole
    have agree := (ahead_part plain part (counted.trans next) q).inferItems q
    obtain ⟨Q, _, keeps, ⟨e, failed, failed'⟩ | ⟨Γ₁, Γ₂, done, done', same⟩⟩ :=
      agree.outcomes (alone ▸ enough') (whole ▸ enough)
    · obtain ⟨l, _, rfl⟩ := keeps
      exact .inl ⟨e, alone.trans failed, whole.trans failed'⟩
    · have shifted := eq_rename_of_sameEnv keeps same
      obtain ⟨_, _, run'⟩ := runInfer_ok.mp (alone.trans done)
      have closed : Γ₁.Closed := (inferItems_extends (inferItems_extends Env.closed_empty run).closed run').closed
      refine .inr ⟨Γ₁, Γ₂, alone.trans done, whole.trans done', shifted, ?_⟩
      exact shifted ▸ closed.normalize_rename (TyVar.shift_injective _ k)
  · exact absurd (whole.trans (outcome_inferItems_append_error stopped)) enough

/-- The program `let id = fun x -> x`, `let one = id 1`. -/
def unitItems : List Item :=
  let name (id : String) : Expr := .ident ⟨id, {}⟩
  [.letGroup false [⟨.ident ⟨"id", {}⟩, .lambda (.ident ⟨"x", {}⟩) (name "x") {}⟩],
    .letGroup false [⟨.ident ⟨"one", {}⟩, .apply (name "id") (.const (.number (.int 1)) {}) {}⟩]]

/-- The program `let pair = fun x -> (id x, one)`. -/
def clientItems : List Item :=
  let name (id : String) : Expr := .ident ⟨id, {}⟩
  let pair : Expr := .tuple [.apply (name "id") (name "x") {}, name "one"] {}
  [.letGroup false [⟨.ident ⟨"pair", {}⟩, .lambda (.ident ⟨"x", {}⟩) pair {}⟩]]

/-- The environment after the first program. -/
def unitEnv : Env :=
  ((∅ : Env).insert "id" ⟨[0], .func (.var 0) (.var 0)⟩).insert "one" ⟨[], .int⟩

/-- The environment after both programs, where `k` more variables have been given out before `pair`. -/
def clientEnv (k : Nat) : Env :=
  unitEnv.insert "pair" ⟨[3 + k], .func (.var (3 + k)) (.tuple (.var (3 + k)) .int [])⟩

/-- The use of `id` in the first program takes two variables that its environment does not mention. -/
theorem clientItems_append : runInfer ∅ unitItems = .ok unitEnv ∧ unitEnv.supply = 1 ∧
    runInfer unitEnv clientItems = .ok (clientEnv 0) ∧ runInfer ∅ (unitItems ++ clientItems) = .ok (clientEnv 2) ∧
    ∃ k, clientEnv 2 = (clientEnv 0).rename (TyVar.shift 1 k) ∧
      (clientEnv 0).Related (fun σ τ => σ.normalize = τ.normalize) (clientEnv 2) := by
  have run : runInfer ∅ unitItems = .ok unitEnv := by cbv
  have alone : runInfer unitEnv clientItems = .ok (clientEnv 0) := by cbv
  have whole : runInfer ∅ (unitItems ++ clientItems) = .ok (clientEnv 2) := by cbv
  have supply : unitEnv.supply = 1 := by cbv
  obtain ⟨k, same⟩ := runInfer_append unitItems (by decide) unitEnv run
  rw [supply] at same
  rcases same clientItems (by simp [whole]) (by simp [alone]) with ⟨e, failed, _⟩ | ⟨Γ₁, Γ₂, done, done', shifted, normal⟩
  · rw [alone] at failed
    cases failed
  · cases alone.symm.trans done
    cases whole.symm.trans done'
    exact ⟨run, supply, alone, whole, k, shifted, normal⟩

end LetPoly
