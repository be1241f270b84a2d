import LetPoly.Proofs.FreeNames

/-!
Scoping is lexical (`inferItem_scoped`): an item is inferred only if all its free identifiers are in the
environment, and an identifier that is reported as unbound is the first free one that is not. Which
environment each part of an expression is inferred in decides this. What is said of a step (`Scoped`) composes
in the order in which identifiers are free in an expression, and leaves a scope together with the names that
the scope hides.
-/
namespace LetPoly

@[simp] theorem Env.mem_subst {Γ : Env} {s : Subst} {name : String} : name ∈ Γ.subst s ↔ name ∈ Γ := by
  rw [Std.ExtTreeMap.mem_iff_isSome_getElem?, Std.ExtTreeMap.mem_iff_isSome_getElem?, getElem?_subst, Option.isSome_map]

namespace Infer
open Typing

/-- The step succeeds only if the identifiers are in the environment, and reports the first that is not. -/
structure Scoped {α : Type} (Γ : Env) (ids : List Ident) (m : Infer α) : Prop where
  bound : ∀ {a : α} {st st' : State}, m st = .ok a st' → ∀ id ∈ ids, id.name ∈ Γ
  unbound : ∀ {name : String} {span : Span} {st st' : State},
    m st = .error (.illTyped ⟨.unboundVariable name, span⟩) st' →
      ∃ left right, ids = left ++ ⟨name, span⟩ :: right ∧ (∀ id ∈ left, id.name ∈ Γ) ∧ name ∉ Γ

section
variable {α β : Type} {Γ : Env} {ids others : List Ident} {names : List String} {m : Infer α} {f : α → Infer β}

/-- Elementary steps look no name up. -/
theorem Elementary.quiet (elementary : Elementary (fun _ => True) True m) : Scoped Γ [] m where
  bound _ := by simp
  unbound run := absurd trivial (elementary.not_aboutNames run)

namespace Scoped

/-- Identifiers are looked up one after the other, where the second step may rely on the outcome of the
    first. -/
theorem bind_run (first : Scoped Γ ids m) (next : ∀ a st st', m st = .ok a st' → Scoped Γ others (f a)) :
    Scoped Γ (ids ++ others) (m >>= f) where
  bound run id member := by
    obtain ⟨a, st₁, run₁, run₂⟩ := bind_ok.mp run
    rcases List.mem_append.mp member with member | member
    · exact first.bound run₁ id member
    · exact (next a _ _ run₁).bound run₂ id member
  unbound run := by
    rcases bind_error.mp run with run | ⟨a, st₁, run₁, run⟩
    · obtain ⟨left, right, rfl, before, missing⟩ := first.unbound run
      exact ⟨left, right ++ others, by simp, before, missing⟩
    · obtain ⟨left, right, rfl, before, missing⟩ := (next a _ _ run₁).unbound run
      refine ⟨ids ++ left, right, by simp, fun id member => ?_, missing⟩
      rcases List.mem_append.mp member with member | member
      · exact first.bound run₁ id member
      · exact before id member

theorem bind (first : Scoped Γ ids m) (next : ∀ a, Scoped Γ others (f a)) : Scoped Γ (ids ++ others) (m >>= f) :=
  first.bind_run fun a _ _ _ => next a

/-- A step that looks no name up may go before. -/
theorem after_run (first : Scoped Γ [] m) (next : ∀ a st st', m st = .ok a st' → Scoped Γ ids (f a)) :
    Scoped Γ ids (m >>= f) :=
  first.bind_run next

theorem after (first : Scoped Γ [] m) (next : ∀ a, Scoped Γ ids (f a)) : Scoped Γ ids (m >>= f) :=
  first.bind next

/-- A step that looks no name up may follow. -/
theorem before (first : Scoped Γ ids m) (next : ∀ a, Scoped Γ [] (f a)) : Scoped Γ ids (m >>= f) := by
  simpa using first.bind next

/-- What is solved does not matter. -/
theorem of_subst {s : Subst} (inner : Scoped (Γ.subst s) ids m) : Scoped Γ ids m where
  bound run id member := Env.mem_subst.mp (inner.bound run id member)
  unbound run := by simpa using inner.unbound run

/-- Outside the scope of names these are hidden. -/
theorem of_extend {entries : List (String × Scheme)} (inner : Scoped (Γ.extend entries) ids m)
    (added : entries.map Prod.fst = names) : Scoped Γ (hide names ids) m := by
  have outside {name : String} (other : name ∉ names) : name ∈ Γ.extend entries ↔ name ∈ Γ := by
    simp [Env.mem_extend, added, other]
  constructor
  · intro a st st' run id member
    obtain ⟨member, other⟩ := mem_hide.mp member
    exact (outside other).mp (inner.bound run id member)
  · intro name span st st' run
    obtain ⟨left, right, rfl, before, missing⟩ := inner.unbound run
    have other : name ∉ names := fun member => missing (Env.mem_extend.mpr (.inr (added ▸ member)))
    refine ⟨hide names left, hide names right, ?_, ?_, (outside other).not.mp missing⟩
    · simp [hide, other]
    · intro id member
      obtain ⟨member, other⟩ := mem_hide.mp member
      exact (outside other).mp (before id member)

theorem of_extendMono {named : List (String × Ty)} (inner : Scoped (Γ.extendMono named) ids m)
    (added : named.map Prod.fst = names) : Scoped Γ (hide names ids) m := by
  refine inner.of_extend ?_
  rw [List.map_map]
  exact added

theorem of_bodyEnv {named : List (String × Ty)} (inner : Scoped (bodyEnv Γ named) ids m)
    (added : named.map Prod.fst = names) : Scoped Γ (hide names ids) m := by
  refine inner.of_extend ?_
  rw [List.map_map]
  exact added

end Scoped

/-! ### Identifiers, patterns and groups -/

theorem scoped_pure (a : α) : Scoped Γ [] (pure a : Infer α) :=
  Elementary.quiet (.pure a)

theorem scoped_ident (id : Ident) : Scoped Γ [id] (inferExpr Γ (.ident id)) := by
  cases look : Γ[id.name]? with
  | some σ =>
    have known : id.name ∈ Γ := by simp [Std.ExtTreeMap.mem_iff_isSome_getElem?, look]
    have quiet : Scoped Γ [] (inferExpr Γ (.ident id)) := by
      rw [inferExpr_ident look]
      exact (elementary_instantiate σ).quiet.after fun _ => scoped_pure _
    refine ⟨by simp [known], fun run => ?_⟩
    obtain ⟨left, right, none, _⟩ := quiet.unbound run
    simp at none
  | none =>
    have missing : id.name ∉ Γ := by simp [Std.ExtTreeMap.mem_iff_isSome_getElem?, look]
    have failed (st : State) :
        inferExpr Γ (.ident id) st = .error (.illTyped ⟨.unboundVariable id.name, id.span⟩) st := by
      rw [inferExpr.eq_def]
      simp only [look]
      rfl
    constructor
    · intro a st st' run
      simp [failed] at run
    · intro name span st st' run
      rw [failed] at run
      cases run
      exact ⟨[], [], rfl, by simp, missing⟩

theorem scoped_checkDistinct (ids : List Ident) : Scoped Γ [] (checkDistinct ids) where
  bound _ := by simp
  unbound {_ _ st _} run := by
    rw [checkDistinct_run] at run
    cases found : duplicate? [] ids <;> simp [found] at run

theorem scoped_inferPattern (t : Ty) (p : Pattern) : Scoped Γ [] (inferPattern t p) :=
  (scoped_checkDistinct _).after fun _ =>
    (elementary_matchPattern t p fun _ _ _ _ => trivial).quiet

theorem scoped_inferPlaceholders (s : Subst) (ps : List Pattern) : Scoped Γ [] (inferPlaceholders s ps) := by
  induction ps generalizing s with
  | nil => exact scoped_pure _
  | cons p ps ih =>
    rw [inferPlaceholders]
    exact elementary_fresh.quiet.after fun t => (scoped_inferPattern t p).after fun _ =>
      (ih _).after fun _ => scoped_pure _

theorem inferPlaceholders_length {ps : List Pattern} {s s' : Subst} {placeholders : List Ty}
    {named : List (String × Ty)} {st st' : State}
    (run : inferPlaceholders s ps st = .ok (s', placeholders, named) st') : placeholders.length = ps.length := by
  induction ps generalizing s s' placeholders named st with
  | nil =>
    cases run
    rfl
  | cons p ps ih =>
    obtain ⟨t, st₁, _, run⟩ := bind_ok.mp run
    obtain ⟨⟨s₁, names⟩, st₂, _, run⟩ := bind_ok.mp run
    obtain ⟨⟨s₂, ts, others⟩, st₃, run₁, done⟩ := bind_ok.mp run
    cases done
    exact congrArg (· + 1) (ih run₁)

/-- The free identifiers of a group are those of its values, less its names if these scope over them. -/
theorem scoped_inferGroup {recursive : Bool} {bindings : List (Binding Expr)}
    (plain : Scoped Γ (Expr.freeValues bindings) (inferPlain Γ ∅ bindings))
    (values : ∀ (Δ : Env) (s : Subst) (placeholders : List Ty), placeholders.length = bindings.length →
      Scoped Δ (Expr.freeValues bindings) (inferValues Δ s placeholders bindings)) :
    Scoped Γ (Item.free (.letGroup recursive bindings)) (inferGroup Γ recursive bindings) := by
  rw [inferGroup_eq, groupTypes, Item.free]
  refine Scoped.before ?_ fun _ => (elementary_generalizeAll _ _).quiet.after fun _ => scoped_pure _
  refine (scoped_checkDistinct _).after fun _ => ?_
  cases recursive with
  | false => exact plain
  | true =>
    refine (scoped_inferPlaceholders _ _).after_run ?_
    rintro ⟨s₁, placeholders, named⟩ st st' run
    have length : placeholders.length = bindings.length := by simpa using inferPlaceholders_length run
    exact ((values _ s₁ placeholders length).of_extendMono (inferPlaceholders_groupNames run)).before fun _ => scoped_pure _

end

/-! ### Expressions -/

mutual

/-- An expression looks its free identifiers up in order. -/
theorem scoped_inferExpr {Γ : Env} : (e : Expr) → Scoped Γ e.free (inferExpr Γ e)
  | .const value span => by
    rw [Expr.free, inferExpr]
    exact (elementary_literalType span value).quiet.after fun _ => scoped_pure _
  | .ident id => scoped_ident id
  | .lambda param body _ => by
    rw [Expr.free, inferExpr]
    refine elementary_fresh.quiet.after fun t => ?_
    refine (scoped_inferPattern t param).after_run fun (s₁, named) st st' run => ?_
    have names : named.map Prod.fst = param.names := inferPattern_names run
    exact ((scoped_inferExpr body).of_extendMono names).of_subst.before fun _ => scoped_pure _
  | .apply func arg span => by
    rw [Expr.free, inferExpr]
    refine (scoped_inferExpr func).bind fun (s₁, funcType) => ?_
    refine (scoped_inferExpr arg).of_subst.before fun (s₂, argType) => ?_
    exact elementary_fresh.quiet.after fun _ => (Elementary.equate _ _ _ _ trivial).quiet.after fun _ => scoped_pure _
  | .letIn recursive bindings body _ => by
    rw [free_letIn, inferExpr_letIn]
    have group : Scoped Γ (Item.free (.letGroup recursive bindings)) (inferGroup Γ recursive bindings) :=
      scoped_inferGroup (scoped_inferPlain ∅ bindings) fun _ s placeholders => scoped_inferValues s placeholders bindings
    refine group.bind_run fun (s₁, Γ') st st' run => ?_
    obtain ⟨named, rfl, names⟩ := inferGroup_names run
    exact ((scoped_inferExpr body).of_bodyEnv names).of_subst.before fun _ => scoped_pure _
  | .ifThenElse condition yes no _ => by
    rw [Expr.free, inferExpr, List.append_assoc]
    refine (scoped_inferExpr condition).bind fun (s₁, _) => (Elementary.equate _ _ _ _ trivial).quiet.after fun s₂ => ?_
    refine (scoped_inferExpr yes).of_subst.bind fun (s₃, _) => ?_
    refine (scoped_inferElse no).of_subst.before fun (s₄, _) => ?_
    exact (Elementary.equate _ _ _ _ trivial).quiet.after fun _ => scoped_pure _
  | .matchWith scrutinee rules _ => by
    rw [Expr.free, inferExpr]
    refine (scoped_inferExpr scrutinee).bind fun (s₁, input) => elementary_fresh.quiet.after fun result => ?_
    exact (scoped_inferRules input result s₁ rules).before fun _ => scoped_pure _
  | .function rules _ => by
    rw [Expr.free, inferExpr]
    refine elementary_fresh.quiet.after fun input => elementary_fresh.quiet.after fun result => ?_
    exact (scoped_inferRules input result ∅ rules).before fun _ => scoped_pure _
  | .tuple elements span => by
    rw [Expr.free, inferExpr]
    refine (scoped_inferSequence ∅ elements).before fun (s, ts) => ?_
    exact (elementary_tupleType span ts).quiet.after fun _ => scoped_pure _
  | .list elements _ => by
    rw [Expr.free, inferExpr]
    refine elementary_fresh.quiet.after fun elem => ?_
    exact (scoped_inferElements elem ∅ elements).before fun _ => scoped_pure _
  | .cons head tail _ => by
    rw [Expr.free, inferExpr]
    refine (scoped_inferExpr head).bind fun (s₁, _) => (scoped_inferExpr tail).of_subst.before fun (s₂, _) => ?_
    exact (Elementary.equate _ _ _ _ trivial).quiet.after fun _ => scoped_pure _
  | .some value _ => by
    rw [Expr.free, inferExpr]
    exact (scoped_inferExpr value).before fun _ => scoped_pure _
  | .none _ => by
    rw [Expr.free, inferExpr]
    exact elementary_fresh.quiet.after fun _ => scoped_pure _
  | .typed value ascribed _ => by
    rw [Expr.free, inferExpr]
    refine (scoped_inferExpr value).before fun (s₁, t) => ?_
    refine (elementary_resolve ascribed fun _ _ => trivial).quiet.after fun annotated => ?_
    exact (Elementary.equate _ _ _ _ trivial).quiet.after fun _ => scoped_pure _

theorem scoped_inferElse {Γ : Env} : (no : Option Expr) → Scoped Γ (Expr.freeOption no) (inferElse Γ no)
  | some e => by
    rw [Expr.freeOption, inferElse]
    exact scoped_inferExpr e
  | none => by
    rw [Expr.freeOption, inferElse]
    exact scoped_pure _

theorem scoped_inferGuard {Γ : Env} : (guard : Option Expr) → Scoped Γ (Expr.freeOption guard) (inferGuard Γ guard)
  | some e => by
    rw [Expr.freeOption, inferGuard]
    refine (scoped_inferExpr e).before fun (s₁, t) => ?_
    exact (Elementary.equate _ _ _ _ trivial).quiet.after fun _ => scoped_pure _
  | none => by
    rw [Expr.freeOption, inferGuard]
    exact scoped_pure _

theorem scoped_inferRules {Γ : Env} (input result : Ty) (s : Subst) :
    (rules : List (Rule Expr)) → Scoped Γ (Expr.freeRules rules) (inferRules Γ input result s rules)
  | [] => by
    rw [Expr.freeRules, inferRules]
    exact scoped_pure _
  | ⟨pattern, guard, body⟩ :: rules => by
    -- The names of the pattern scope over the guard and the body, and not over the rules that follow.
    rw [Expr.freeRules, inferRules, hide_append, List.append_assoc]
    refine (scoped_inferPattern _ pattern).after_run fun (s₁, named) st st' run => ?_
    have names : named.map Prod.fst = pattern.names := inferPattern_names run
    refine ((scoped_inferGuard guard).of_extendMono names).of_subst.bind fun s₂ => ?_
    refine ((scoped_inferExpr body).of_subst.of_extendMono names).of_subst.bind fun (s₃, t) => ?_
    exact (Elementary.equate _ _ _ _ trivial).quiet.after fun s₄ => scoped_inferRules input result _ rules

theorem scoped_inferElements {Γ : Env} (elem : Ty) (s : Subst) :
    (es : List Expr) → Scoped Γ (Expr.freeList es) (inferElements Γ elem s es)
  | [] => by
    rw [Expr.freeList, inferElements]
    exact scoped_pure _
  | e :: es => by
    rw [Expr.freeList, inferElements]
    refine (scoped_inferExpr e).of_subst.bind fun (s₁, t) => ?_
    exact (Elementary.equate _ _ _ _ trivial).quiet.after fun s₂ => scoped_inferElements elem _ es

theorem scoped_inferSequence {Γ : Env} (s : Subst) :
    (es : List Expr) → Scoped Γ (Expr.freeList es) (inferSequence Γ s es)
  | [] => by
    rw [Expr.freeList, inferSequence]
    exact scoped_pure _
  | e :: es => by
    rw [Expr.freeList, inferSequence]
    refine (scoped_inferExpr e).of_subst.bind fun (s₁, t) => ?_
    exact (scoped_inferSequence _ es).before fun _ => scoped_pure _

theorem scoped_inferPlain {Γ : Env} (s : Subst) :
    (bindings : List (Binding Expr)) → Scoped Γ (Expr.freeValues bindings) (inferPlain Γ s bindings)
  | [] => by
    rw [Expr.freeValues, inferPlain]
    exact scoped_pure _
  | ⟨pattern, value⟩ :: bindings => by
    rw [Expr.freeValues, inferPlain]
    refine (scoped_inferExpr value).of_subst.bind fun (s₁, t) => ?_
    refine (scoped_inferPattern t pattern).after fun (s₂, named) => ?_
    exact (scoped_inferPlain _ bindings).before fun _ => scoped_pure _

theorem scoped_inferValues {Γ : Env} (s : Subst) (placeholders : List Ty) :
    (bindings : List (Binding Expr)) → placeholders.length = bindings.length →
      Scoped Γ (Expr.freeValues bindings) (inferValues Γ s placeholders bindings)
  | [], length => by
    rw [List.length_eq_zero_iff.mp length, Expr.freeValues, inferValues] <;> simp [scoped_pure]
  | ⟨pattern, value⟩ :: bindings, length => by
    cases placeholders with
    | nil => cases length
    | cons placeholder placeholders =>
      rw [Expr.freeValues, inferValues]
      refine (scoped_inferExpr value).of_subst.bind fun (s₁, t) => ?_
      refine (Elementary.equate _ _ _ _ trivial).quiet.after fun s₂ => ?_
      exact scoped_inferValues _ placeholders bindings (Nat.succ.inj length)

end

theorem scoped_inferItem {Γ : Env} (item : Item) : Scoped Γ item.free (inferItem Γ item) := by
  have restart : Scoped Γ [] (modify fun st => { st with named := ∅, solved := ∅ } : Infer Unit) :=
    ⟨by simp, fun run => by cases run⟩
  refine restart.after fun _ => ?_
  cases item with
  | expr value =>
    refine (scoped_inferExpr value).before fun (s, t) => ?_
    exact (Elementary.record (by simp)).quiet.after fun _ => scoped_pure _
  | letGroup recursive bindings =>
    have group : Scoped Γ (Item.free (.letGroup recursive bindings)) (inferGroup Γ recursive bindings) :=
      scoped_inferGroup (scoped_inferPlain ∅ bindings) fun _ s placeholders => scoped_inferValues s placeholders bindings
    exact group.before fun _ => scoped_pure _
  | measure name definition span =>
    have check : Scoped Γ [] (checkDefinition span definition) := by
      cases definition with
      | none => exact scoped_pure _
      | some m => exact (elementary_resolveMeasure span m).quiet.after fun _ => scoped_pure _
    have declare : Scoped Γ [] (modify fun st => { st with measures := st.measures.insert name } : Infer Unit) :=
      ⟨by simp, fun run => by cases run⟩
    exact check.after fun _ => (Elementary.record (by simp)).quiet.after fun _ => declare.after fun _ => scoped_pure _

end Infer

open Infer

/-- Scoping is lexical: an item is inferred only if all its free identifiers are in the environment, and an
    identifier that is reported as unbound is free in the item, where it is reported, and not in the
    environment; all free identifiers to its left are. -/
theorem inferItem_scoped (Γ : Env) (item : Item) (st : State) :
    (∀ Γ' st', inferItem Γ item st = .ok Γ' st' → ∀ id ∈ item.free, id.name ∈ Γ) ∧
    ∀ name span st', inferItem Γ item st = .error (.illTyped ⟨.unboundVariable name, span⟩) st' →
      ∃ left right, item.free = left ++ ⟨name, span⟩ :: right ∧ (∀ id ∈ left, id.name ∈ Γ) ∧ name ∉ Γ :=
  ⟨fun _ _ run => (scoped_inferItem item).bound run, fun _ _ _ run => (scoped_inferItem item).unbound run⟩

/-- Where the second binding of `siblingItem` uses the name of the first. -/
def siblingSpan : Span :=
  { start := ⟨1, 19⟩, stop := ⟨1, 20⟩ }

/-- The item `let f = id and g = fun y -> f y`. -/
def siblingItem : Item :=
  let use : Expr := .apply (.ident ⟨"f", siblingSpan⟩) (.ident ⟨"y", {}⟩) {}
  .letGroup false [⟨.ident ⟨"f", {}⟩, .ident ⟨"id", {}⟩⟩, ⟨.ident ⟨"g", {}⟩, .lambda (.ident ⟨"y", {}⟩) use {}⟩]

/-- A binding of a plain group does not see the other names of the group, and the body of a group does. -/
theorem siblingItem_scoped :
    (∃ st, inferItem identityEnv siblingItem { next := 1 } = .error (.illTyped ⟨.unboundVariable "f", siblingSpan⟩) st ∧
      ∃ left right, siblingItem.free = left ++ ⟨"f", siblingSpan⟩ :: right ∧
        (∀ id ∈ left, id.name ∈ identityEnv) ∧ "f" ∉ identityEnv) ∧
    ∃ Γ st, inferItem identityEnv shadowItem { next := 1 } = .ok Γ st ∧
      ∀ id ∈ shadowItem.free, id.name ∈ identityEnv := by
  have failure : outcome (inferItem identityEnv siblingItem { next := 1 }) =
      .error (.illTyped ⟨.unboundVariable "f", siblingSpan⟩) := by cbv
  have success : outcome (inferItem identityEnv shadowItem { next := 1 }) =
      .ok (identityEnv.insert "pair" ⟨[3], .func (.var 3) (.tuple (.var 3) (.var 3) [])⟩) := by cbv
  constructor
  · cases run : inferItem identityEnv siblingItem { next := 1 } with
    | ok Γ st => simp [run, outcome] at failure
    | error e st =>
      obtain rfl : e = .illTyped ⟨.unboundVariable "f", siblingSpan⟩ := by simpa [run, outcome] using failure
      exact ⟨st, rfl, (inferItem_scoped _ _ _).2 _ _ st run⟩
  · cases run : inferItem identityEnv shadowItem { next := 1 } with
    | ok Γ st => exact ⟨Γ, st, rfl, (inferItem_scoped _ _ _).1 Γ st run⟩
    | error e st => simp [run, outcome] at success

end LetPoly
