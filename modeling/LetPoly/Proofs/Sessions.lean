import LetPoly.Proofs.Shift
import LetPoly.Proofs.Steps

/-!
Sessions: items in turn from one state, which survives errors. An item that fails may leave named variables
and solutions behind, but the next item does not look at them. What remains are the variables that have
been given out, so a session goes on after an error as it would have gone on before it, with later
variables shifted (`session_after_failure`).
-/
namespace LetPoly

/-- Renames the variables that a failure mentions. -/
def Failure.rename (ρ : TyVar → TyVar) : Failure → Failure
  | .illTyped e => .illTyped (e.rename ρ)
  | .outOfVariables => .outOfVariables

/-- What comes of an item: the environment after it or why it fails, and the measures that are declared
    then. -/
structure Answer where
  result : Except Failure Env
  measures : Typing.Measures

/-- Renames the variables that an answer mentions. -/
def Answer.rename (ρ : TyVar → TyVar) : Answer → Answer
  | ⟨.ok Γ, measures⟩ => ⟨.ok (Γ.rename ρ), measures⟩
  | ⟨.error e, measures⟩ => ⟨.error (e.rename ρ), measures⟩

namespace Infer
open Comparison

/-- Infers items in turn from one state. An item that fails leaves the environment to the next one as it
    is, and the state as the error finds it. -/
def session (Γ : Env) (st : State) : List Item → List Answer
  | [] => []
  | item :: items =>
    match inferItem Γ item st with
    | .ok Γ' st' => ⟨.ok Γ', st'.measures⟩ :: session Γ' st' items
    | .error e st' => ⟨.error e, st'.measures⟩ :: session Γ st' items

/-- At no item the numbers for variables run out. -/
def Enough (answers : List Answer) : Prop :=
  ∀ answer ∈ answers, answer.result ≠ .error .outOfVariables

section
variable {n k : Nat} {Γ Δ : Env} {st st' : State}

theorem enough_cons {answer : Answer} {answers : List Answer} :
    Enough (answer :: answers) ↔ answer.result ≠ .error .outOfVariables ∧ Enough answers := by
  simp [Enough]

/-- Two sessions one of which is ahead of the other have the same answers, shifted. -/
theorem session_ahead (ahead : Ahead n k Γ Δ st st') (items : List Item) (enough : Enough (session Γ st items))
    (enough' : Enough (session Δ st' items)) :
    session Δ st' items = (session Γ st items).map (Answer.rename (TyVar.shift n k)) := by
  induction items generalizing Γ Δ st st' with
  | nil => rfl
  | cons item items ih =>
    rw [session] at enough enough' ⊢
    rw [session]
    have agree := ahead.inferItem item
    generalize inferItem Γ item st = left at agree enough
    generalize inferItem Δ item st' = right at agree enough'
    cases agree with
    | @ok Q Γ' Δ' st₁ st₁' _ keeps states same =>
      have ahead := ahead_of_same keeps states same
      simp only [List.map_cons, enough_cons] at enough enough' ⊢
      rw [ih ahead enough.2 enough'.2, Answer.rename, ahead.env, ahead.measures]
    | @illTyped Q e st₁ st₁' grows keeps states =>
      -- The environment is the one before the item, in which the variables given out since are new.
      have ahead := ahead_of_same keeps states (ahead.sameEnv.extend (lawful_shifted n k) grows)
      simp only [List.map_cons, enough_cons] at enough enough' ⊢
      obtain ⟨l, _, rfl⟩ := keeps
      rw [ih ahead enough.2 enough'.2, Answer.rename, ahead.measures]
      rfl
    | outLeft may => exact may.elim
    | outRight =>
      simp only [enough_cons] at enough'
      exact absurd rfl enough'.1

end

end Infer

open Infer

/-- An item that fails leaves nothing behind but variables that have been given out: after it, a session has
    the answers that it would have had before it, with new variables shifted by the number of those. -/
theorem session_after_failure (Γ : Env) (st : State) (below : Γ.Below st.next) (item : Item) (e : Failure) (st₁ : State)
    (failed : inferItem Γ item st = .error e st₁) (items : List Item) (enough : Enough (session Γ st items))
    (enough' : Enough (session Γ st₁ items)) :
    ∃ k, st₁.next = st.next + k ∧
      session Γ st₁ items = (session Γ st items).map (Answer.rename (TyVar.shift st.next k)) := by
  obtain ⟨next, measures⟩ := inferItem_error failed
  obtain ⟨k, counted⟩ := Nat.exists_eq_add_of_le next
  have env : Γ = Γ.rename (TyVar.shift st.next k) :=
    (Env.rename_eq_self fun v mentioned => TyVar.shift_of_lt (below v mentioned)).symm
  exact ⟨k, counted, session_ahead ⟨Nat.le_refl _, counted, measures, below, env⟩ items enough enough'⟩

/-- The item `fun y -> (y : 'a) y`, which would have an infinite type. -/
def selfItem : Item :=
  let y : Expr := .ident ⟨"y", {}⟩
  .expr (.lambda (.ident ⟨"y", {}⟩) (.apply (.typed y (.var "a" {}) {}) y {}) {})

/-- The items `let pair = fun (y : 'a) -> (y, x)`, `fun z -> z z`, `[<Measure>] type m`. -/
def laterItems : List Item :=
  let name (id : String) : Expr := .ident ⟨id, {}⟩
  [.letGroup false [⟨.ident ⟨"pair", {}⟩,
      .lambda (.typed (.ident ⟨"y", {}⟩) (.var "a" {}) {}) (.tuple [name "y", name "x"] {}) {}⟩],
    .expr (.lambda (.ident ⟨"z", {}⟩) (.apply (name "z") (name "z") {}) {}), .measure "m" none {}]

/-- The answers to these items from `'t1` on, shifted by `k`. -/
def laterAnswers (k : Nat) : List Answer :=
  let Γ := sharedEnv.insert "pair" ⟨[2 + k], .func (.var (2 + k)) (.tuple (.var (2 + k)) (.var 0) [])⟩
  [⟨.ok Γ, ∅⟩,
    ⟨.error (.illTyped { cause := .infinite (3 + k) (.func (.var (3 + k)) (.var (4 + k))) }), ∅⟩,
    ⟨.ok Γ, (∅ : Typing.Measures).insert "m"⟩]

/-- The state that the failed item leaves behind. -/
def selfState : State :=
  { next := 4, named := (∅ : Std.ExtTreeMap String TyVar compare).insert "a" 2, solved := (∅ : Subst).insert 2 (.var 1),
    journal := #[.resolved "a" (.var 2), .equated (.var 2) (.var 1), .equated (.var 1) (.func (.var 1) (.var 3))] }

theorem enough_laterAnswers (k : Nat) : Enough (laterAnswers k) := by
  simp [Enough, laterAnswers]

/-- The item burns three variables and leaves `'a` behind; the next items do not see it. -/
theorem selfItem_failure : sharedEnv.Below 1 ∧
    inferItem sharedEnv selfItem { next := 1 } =
      .error (.illTyped { cause := .infinite 1 (.func (.var 1) (.var 3)) }) selfState ∧
    session sharedEnv { next := 1 } laterItems = laterAnswers 0 ∧
    session sharedEnv selfState laterItems = (laterAnswers 0).map (Answer.rename (TyVar.shift 1 3)) := by
  have below : sharedEnv.Below 1 := by
    unfold Env.Below
    decide
  have failed : inferItem sharedEnv selfItem { next := 1 } =
      .error (.illTyped { cause := .infinite 1 (.func (.var 1) (.var 3)) }) selfState := by cbv
  have before : session sharedEnv { next := 1 } laterItems = laterAnswers 0 := by cbv
  have after : session sharedEnv selfState laterItems = laterAnswers 3 := by cbv
  obtain ⟨k, counted, same⟩ := session_after_failure sharedEnv { next := 1 } below selfItem _ selfState failed laterItems
    (before ▸ enough_laterAnswers 0) (after ▸ enough_laterAnswers 3)
  obtain rfl : k = 3 := Nat.add_left_cancel counted.symm
  exact ⟨below, failed, before, before ▸ same⟩

end LetPoly
