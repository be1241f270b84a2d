import LetPoly.Proofs.Alike
import LetPoly.Proofs.TopLevel

/-!
What an item means depends on the names that are free in it, and on nothing else of a closed environment
(`inferItem_free`). An environment is not only looked up: everything that is solved is put into it, and its
free variables are not quantified. Environments that agree on free identifiers and differ only where
nothing is free (`AgreeOn`) stay so in every scope, and have the same free variables there.
-/
namespace LetPoly

theorem mem_hide {names : List String} {ids : List Ident} {id : Ident} :
    id ∈ hide names ids ↔ id ∈ ids ∧ id.name ∉ names := by
  simp [hide]

theorem hide_append (names : List String) (ids others : List Ident) :
    hide names (ids ++ others) = hide names ids ++ hide names others :=
  List.filter_append ids others

namespace Env
open Typing

/-- If the name has a scheme then a closed one. -/
def ClosedAt (Γ : Env) (name : String) : Prop :=
  ∀ σ : Scheme, Γ[name]? = some σ → σ.Closed

/-- The environments give the same schemes to the identifiers, and where they differ nothing is free in
    either. -/
structure AgreeOn (ids : List Ident) (Γ Δ : Env) : Prop where
  same : ∀ id ∈ ids, Γ[id.name]? = Δ[id.name]?
  rest : ∀ name : String, Γ[name]? = Δ[name]? ∨ Γ.ClosedAt name ∧ Δ.ClosedAt name

section
variable {Γ Δ : Env} {ids others : List Ident} {names : List String} {name : String}

theorem ClosedAt.subst (closed : Γ.ClosedAt name) (s : Subst) : (Γ.subst s).ClosedAt name := by
  intro τ look
  rw [getElem?_subst, Option.map_eq_some_iff] at look
  obtain ⟨σ, look, rfl⟩ := look
  rw [(closed σ look).subst_eq_self]
  exact closed σ look

/-- A name that is added has the same scheme whatever it is added to. -/
theorem getElem?_extend_of_mem {entries : List (String × Scheme)} (member : name ∈ entries.map Prod.fst) :
    (Γ.extend entries)[name]? = (Δ.extend entries)[name]? := by
  induction entries generalizing Γ Δ with
  | nil => cases member
  | cons entry entries ih =>
    obtain ⟨first, σ⟩ := entry
    rw [extend_cons, extend_cons]
    by_cases later : name ∈ entries.map Prod.fst
    · exact ih later
    · have here : name = first := (List.mem_cons.mp member).resolve_right later
      subst here
      rw [getElem?_extend_of_notMem later, getElem?_extend_of_notMem later, getElem?_insert_eq, getElem?_insert_eq,
        if_pos rfl, if_pos rfl]

namespace AgreeOn

theorem of_closed (closed : Γ.Closed) (closed' : Δ.Closed) (same : ∀ id ∈ ids, Γ[id.name]? = Δ[id.name]?) :
    Γ.AgreeOn ids Δ :=
  ⟨same, fun name => .inr ⟨closed name, closed' name⟩⟩

theorem left (agree : Γ.AgreeOn (ids ++ others) Δ) : Γ.AgreeOn ids Δ :=
  ⟨fun id member => agree.same id (List.mem_append_left _ member), agree.rest⟩

theorem right (agree : Γ.AgreeOn (ids ++ others) Δ) : Γ.AgreeOn others Δ :=
  ⟨fun id member => agree.same id (List.mem_append_right _ member), agree.rest⟩

theorem subst (agree : Γ.AgreeOn ids Δ) (s : Subst) : (Γ.subst s).AgreeOn ids (Δ.subst s) where
  same id member := by rw [getElem?_subst, getElem?_subst, agree.same id member]
  rest name := by
    rcases agree.rest name with same | ⟨closed, closed'⟩
    · left
      rw [getElem?_subst, getElem?_subst, same]
    · exact .inr ⟨closed.subst s, closed'.subst s⟩

/-- In the scope of added names these are not free any more. -/
theorem extend {entries : List (String × Scheme)} (agree : Γ.AgreeOn (hide names ids) Δ)
    (added : entries.map Prod.fst = names) : (Γ.extend entries).AgreeOn ids (Δ.extend entries) where
  same id member := by
    by_cases bound : id.name ∈ entries.map Prod.fst
    · exact getElem?_extend_of_mem bound
    · rw [getElem?_extend_of_notMem bound, getElem?_extend_of_notMem bound]
      exact agree.same id (mem_hide.mpr ⟨member, added ▸ bound⟩)
  rest name := by
    by_cases bound : name ∈ entries.map Prod.fst
    · exact .inl (getElem?_extend_of_mem bound)
    · rw [ClosedAt, ClosedAt, getElem?_extend_of_notMem bound, getElem?_extend_of_notMem bound]
      exact agree.rest name

theorem extendMono {named : List (String × Ty)} (agree : Γ.AgreeOn (hide names ids) Δ)
    (added : named.map Prod.fst = names) : (Γ.extendMono named).AgreeOn ids (Δ.extendMono named) := by
  refine agree.extend ?_
  rw [List.map_map]
  exact added

theorem symm (agree : Γ.AgreeOn ids Δ) : Δ.AgreeOn ids Γ :=
  ⟨fun id member => (agree.same id member).symm, fun name => (agree.rest name).imp Eq.symm And.symm⟩

theorem freeVars_subset (agree : Γ.AgreeOn ids Δ) {v : TyVar} (free : v ∈ Γ.freeVars) : v ∈ Δ.freeVars := by
  obtain ⟨name, σ, look, free⟩ := mem_freeVars.mp free
  rcases agree.rest name with same | ⟨closed, _⟩
  · exact mem_freeVars.mpr ⟨name, σ, same ▸ look, free⟩
  · exact absurd free (closed σ look v)

/-- The same variables are quantified in both environments. -/
theorem generalize_eq (agree : Γ.AgreeOn ids Δ) (t : Ty) : Γ.generalize t = Δ.generalize t := by
  have same : Γ.freeVars = Δ.freeVars :=
    Std.ExtTreeSet.ext_mem fun v => ⟨agree.freeVars_subset, agree.symm.freeVars_subset⟩
  rw [generalize, generalize, same]

/-- The names of a group have the same schemes in both environments. -/
theorem schemes_eq (agree : Γ.AgreeOn ids Δ) (named : List (String × Ty)) :
    (named.map fun (name, t) => (name, Γ.generalize t)) = named.map fun (name, t) => (name, Δ.generalize t) :=
  List.map_congr_left fun entry _ => congrArg (Prod.mk entry.1) (agree.generalize_eq entry.2)

theorem bodyEnv {named : List (String × Ty)} (agree : Γ.AgreeOn (hide names ids) Δ)
    (added : named.map Prod.fst = names) : (bodyEnv Γ named).AgreeOn ids (bodyEnv Δ named) := by
  rw [Typing.bodyEnv, Typing.bodyEnv, agree.schemes_eq]
  refine agree.extend ?_
  rw [List.map_map]
  exact added

theorem getElem?_bodyEnv {named : List (String × Ty)} (agree : Γ.AgreeOn ids Δ) (member : name ∈ named.map Prod.fst) :
    (Typing.bodyEnv Γ named)[name]? = (Typing.bodyEnv Δ named)[name]? := by
  rw [Typing.bodyEnv, Typing.bodyEnv, agree.schemes_eq]
  refine getElem?_extend_of_mem ?_
  rw [List.map_map]
  exact member

end AgreeOn

end

end Env

namespace Infer
open Env Typing

section
variable {α β : Type} {Γ Δ : Env} {recursive : Bool} {bindings : List (Binding Expr)}

/-- Steps that go on alike after every outcome of the first one are the same. -/
theorem bind_congr_ok {m : Infer α} {f g : α → Infer β}
    (same : ∀ (a : α) (st st' : State), m st = .ok a st' → f a = g a) : m >>= f = m >>= g := by
  funext st
  show EStateM.bind m f st = EStateM.bind m g st
  unfold EStateM.bind
  cases run : m st with
  | ok a st' => exact congrFun (same a st st' run) st'
  | error e st' => rfl

/-- Steps that are the same but for their results end alike. -/
theorem runs_of_map_eq {γ : Type} {m : Infer α} {m' : Infer β} {f : α → γ} {g : β → γ} {st : State}
    (same : (m >>= fun a => pure (f a)) st = (m' >>= fun b => pure (g b)) st) :
    (∃ e st', m st = .error e st' ∧ m' st = .error e st') ∨
      ∃ a b st', m st = .ok a st' ∧ m' st = .ok b st' ∧ f a = g b := by
  change EStateM.bind _ _ st = EStateM.bind _ _ st at same
  unfold EStateM.bind at same
  cases run : m st <;> cases run' : m' st <;> rw [run, run'] at same
  case ok.ok => exact .inr ⟨_, _, _, rfl, (pure_ok.mp same).2 ▸ rfl, (pure_ok.mp same).1⟩
  case error.error =>
    cases same
    exact .inl ⟨_, _, rfl, rfl⟩
  all_goals cases same

/-! ### Groups -/

/-- The types that a group gives to its names, before they are quantified. -/
def groupTypes (Γ : Env) (recursive : Bool) (bindings : List (Binding Expr)) : Infer (Subst × List (String × Ty)) := do
  checkDistinct (bindings.flatMap fun b => b.pattern.idents)
  if recursive then do
    let (s₁, placeholders, named) ← inferPlaceholders ∅ (bindings.map Binding.pattern)
    let s ← inferValues (Γ.extendMono named) s₁ placeholders bindings
    return (s, named)
  else inferPlain Γ ∅ bindings

theorem inferGroup_eq (Γ : Env) (recursive : Bool) (bindings : List (Binding Expr)) :
    inferGroup Γ recursive bindings = (do
      let (s, named) ← groupTypes Γ recursive bindings
      let Γ' ← generalizeAll (Γ.subst s) (s.applyNamed named)
      return (s, Γ')) := by
  rw [groupTypes, bind_assoc, inferGroup, groupOf]
  cases recursive with
  | false => rfl
  | true =>
    simp only [if_true, bind_assoc]

theorem groupTypes_names {s : Subst} {named : List (String × Ty)} {st st' : State}
    (run : groupTypes Γ recursive bindings st = .ok (s, named) st') :
    (s.applyNamed named).map Prod.fst = groupNames bindings := by
  rw [map_fst_applyNamed]
  obtain ⟨_, st₁, _, run⟩ := bind_ok.mp run
  cases recursive with
  | false => exact inferPlain_names run
  | true =>
    obtain ⟨⟨s₁, placeholders, names⟩, st₂, run₁, run⟩ := bind_ok.mp run
    obtain ⟨s₂, st₃, _, done⟩ := bind_ok.mp run
    cases done
    exact inferPlaceholders_groupNames run₁

/-- A group gives its names the same types if its values are inferred alike. -/
theorem groupTypes_congr (agree : Γ.AgreeOn (Item.free (.letGroup recursive bindings)) Δ)
    (plain : Γ.AgreeOn (Expr.freeValues bindings) Δ → inferPlain Γ ∅ bindings = inferPlain Δ ∅ bindings)
    (values : ∀ {Γ Δ : Env} (s : Subst) (placeholders : List Ty), Γ.AgreeOn (Expr.freeValues bindings) Δ →
      inferValues Γ s placeholders bindings = inferValues Δ s placeholders bindings) :
    groupTypes Γ recursive bindings = groupTypes Δ recursive bindings := by
  rw [groupTypes, groupTypes]
  refine bind_congr fun _ => ?_
  cases recursive with
  | false => exact plain agree
  | true =>
    refine bind_congr_ok fun (s₁, placeholders, named) st st' run => ?_
    dsimp only
    rw [values s₁ placeholders (Env.AgreeOn.extendMono agree (inferPlaceholders_groupNames run))]

/-- The names of a group are quantified alike; what follows sees them in their environments. -/
theorem generalizeAll_congr {ids : List Ident} {named : List (String × Ty)} {f g : Env → Infer β}
    (agree : Γ.AgreeOn ids Δ) (next : f (bodyEnv Γ named) = g (bodyEnv Δ named)) :
    generalizeAll Γ named >>= f = generalizeAll Δ named >>= g := by
  rw [bodyEnv, bodyEnv, agree.schemes_eq] at next
  simp only [generalizeAll, agree.schemes_eq, bind_assoc, pure_bind, next]

/-! ### Expressions -/

theorem free_letIn (recursive : Bool) (bindings : List (Binding Expr)) (body : Expr) (span : Span) :
    (Expr.letIn recursive bindings body span).free =
      Item.free (.letGroup recursive bindings) ++ hide (groupNames bindings) body.free := by
  rw [Expr.free, Item.free]
  cases recursive with
  | false => rfl
  | true => exact hide_append _ _ _

end

mutual

/-- An expression is inferred alike in environments that agree on its free identifiers. -/
theorem inferExpr_congr {Γ Δ : Env} : (e : Expr) → Γ.AgreeOn e.free Δ → inferExpr Γ e = inferExpr Δ e
  | .const _ _, _ => by rw [inferExpr, inferExpr]
  | .ident id, agree => by
    rw [Expr.free] at agree
    rw [inferExpr, inferExpr, agree.same id List.mem_cons_self]
  | .lambda param body _, agree => by
    rw [Expr.free] at agree
    rw [inferExpr, inferExpr]
    -- That the names which are added are those of the pattern is known where the match has succeeded.
    refine bind_congr fun t => bind_congr_ok fun (s₁, named) st st' run => ?_
    dsimp only
    rw [inferExpr_congr body ((agree.subst s₁).extendMono (inferPattern_names run))]
  | .apply func arg _, agree => by
    rw [Expr.free] at agree
    rw [inferExpr, inferExpr, inferExpr_congr func agree.left]
    refine bind_congr fun (s₁, t) => ?_
    dsimp only
    rw [inferExpr_congr arg (agree.right.subst s₁)]
  | .letIn recursive bindings body _, agree => by
    rw [free_letIn] at agree
    have types : groupTypes Γ recursive bindings = groupTypes Δ recursive bindings :=
      groupTypes_congr agree.left (fun values => inferPlain_congr ∅ bindings values)
        (fun s placeholders values => inferValues_congr s placeholders bindings values)
    simp only [inferExpr_letIn, inferGroup_eq, bind_assoc]
    rw [types]
    refine bind_congr_ok fun (s₁, named) st st' run => generalizeAll_congr (agree.right.subst s₁) ?_
    simp only [pure_bind]
    rw [inferExpr_congr body ((agree.right.subst s₁).bodyEnv (groupTypes_names run))]
  | .ifThenElse condition yes no _, agree => by
    rw [Expr.free] at agree
    rw [inferExpr, inferExpr, inferExpr_congr condition agree.left.left]
    refine bind_congr fun (s₁, t) => bind_congr fun s₂ => ?_
    dsimp only
    rw [inferExpr_congr yes (agree.left.right.subst _)]
    refine bind_congr fun (s₃, u) => ?_
    dsimp only
    rw [inferElse_congr no (agree.right.subst _)]
  | .matchWith scrutinee rules _, agree => by
    rw [Expr.free] at agree
    rw [inferExpr, inferExpr, inferExpr_congr scrutinee agree.left]
    refine bind_congr fun (s₁, input) => bind_congr fun result => ?_
    rw [inferRules_congr input result s₁ rules agree.right]
  | .function rules _, agree => by
    rw [Expr.free] at agree
    rw [inferExpr, inferExpr]
    refine bind_congr fun input => bind_congr fun result => ?_
    rw [inferRules_congr input result ∅ rules agree]
  | .tuple elements _, agree => by
    rw [Expr.free] at agree
    rw [inferExpr, inferExpr, inferSequence_congr ∅ elements agree]
  | .list elements _, agree => by
    rw [Expr.free] at agree
    rw [inferExpr, inferExpr]
    refine bind_congr fun elem => ?_
    rw [inferElements_congr elem ∅ elements agree]
  | .cons head tail _, agree => by
    rw [Expr.free] at agree
    rw [inferExpr, inferExpr, inferExpr_congr head agree.left]
    refine bind_congr fun (s₁, t) => ?_
    dsimp only
    rw [inferExpr_congr tail (agree.right.subst s₁)]
  | .some value _, agree => by
    rw [Expr.free] at agree
    rw [inferExpr, inferExpr, inferExpr_congr value agree]
  | .none _, _ => by rw [inferExpr, inferExpr]
  | .typed value _ _, agree => by
    rw [Expr.free] at agree
    rw [inferExpr, inferExpr, inferExpr_congr value agree]

theorem inferElse_congr {Γ Δ : Env} :
    (no : Option Expr) → Γ.AgreeOn (Expr.freeOption no) Δ → inferElse Γ no = inferElse Δ no
  | some e, agree => by
    rw [Expr.freeOption] at agree
    rw [inferElse, inferElse, inferExpr_congr e agree]
  | none, _ => by rw [inferElse, inferElse]

theorem inferGuard_congr {Γ Δ : Env} :
    (guard : Option Expr) → Γ.AgreeOn (Expr.freeOption guard) Δ → inferGuard Γ guard = inferGuard Δ guard
  | some e, agree => by
    rw [Expr.freeOption] at agree
    rw [inferGuard, inferGuard, inferExpr_congr e agree]
  | none, _ => by rw [inferGuard, inferGuard]

theorem inferRules_congr {Γ Δ : Env} (input result : Ty) (s : Subst) :
    (rules : List (Rule Expr)) → Γ.AgreeOn (Expr.freeRules rules) Δ →
      inferRules Γ input result s rules = inferRules Δ input result s rules
  | [], _ => by rw [inferRules, inferRules]
  | ⟨pattern, guard, body⟩ :: rules, agree => by
    rw [Expr.freeRules] at agree
    rw [inferRules, inferRules]
    refine bind_congr_ok fun (s₁, named) st st' run => ?_
    have inner := (agree.left.subst (s₁.after s)).extendMono (inferPattern_names run)
    dsimp only
    rw [inferGuard_congr guard inner.left]
    refine bind_congr fun s₂ => ?_
    rw [inferExpr_congr body (inner.right.subst _)]
    refine bind_congr fun (s₃, t) => bind_congr fun s₄ => ?_
    exact inferRules_congr input result _ rules agree.right

theorem inferElements_congr {Γ Δ : Env} (elem : Ty) (s : Subst) :
    (es : List Expr) → Γ.AgreeOn (Expr.freeList es) Δ → inferElements Γ elem s es = inferElements Δ elem s es
  | [], _ => by rw [inferElements, inferElements]
  | e :: es, agree => by
    rw [Expr.freeList] at agree
    rw [inferElements, inferElements, inferExpr_congr e (agree.left.subst s)]
    exact bind_congr fun (s₁, t) => bind_congr fun s₂ => inferElements_congr elem _ es agree.right

theorem inferSequence_congr {Γ Δ : Env} (s : Subst) :
    (es : List Expr) → Γ.AgreeOn (Expr.freeList es) Δ → inferSequence Γ s es = inferSequence Δ s es
  | [], _ => by rw [inferSequence, inferSequence]
  | e :: es, agree => by
    rw [Expr.freeList] at agree
    rw [inferSequence, inferSequence, inferExpr_congr e (agree.left.subst s)]
    refine bind_congr fun (s₁, t) => ?_
    dsimp only
    rw [inferSequence_congr _ es agree.right]

theorem inferPlain_congr {Γ Δ : Env} (s : Subst) :
    (bindings : List (Binding Expr)) → Γ.AgreeOn (Expr.freeValues bindings) Δ →
      inferPlain Γ s bindings = inferPlain Δ s bindings
  | [], _ => by rw [inferPlain, inferPlain]
  | ⟨pattern, value⟩ :: bindings, agree => by
    rw [Expr.freeValues] at agree
    rw [inferPlain, inferPlain, inferExpr_congr value (agree.left.subst s)]
    refine bind_congr fun (s₁, t) => bind_congr fun (s₂, named) => ?_
    dsimp only
    rw [inferPlain_congr _ bindings agree.right]

theorem inferValues_congr {Γ Δ : Env} (s : Subst) (placeholders : List Ty) :
    (bindings : List (Binding Expr)) → Γ.AgreeOn (Expr.freeValues bindings) Δ →
      inferValues Γ s placeholders bindings = inferValues Δ s placeholders bindings
  | [], _ => by cases placeholders <;> rw [inferValues, inferValues] <;> simp
  | ⟨pattern, value⟩ :: bindings, agree => by
    rw [Expr.freeValues] at agree
    cases placeholders with
    | nil => rw [inferValues, inferValues] <;> simp
    | cons placeholder placeholders =>
      rw [inferValues, inferValues, inferExpr_congr value (agree.left.subst s)]
      exact bind_congr fun (s₁, t) => bind_congr fun s₂ => inferValues_congr _ placeholders bindings agree.right

end

/-! ### Items -/

section
variable {Γ Δ : Env} {item : Item}

/-- An item gives the same schemes to its names in environments that agree on its free identifiers. -/
theorem inferItem_schemes (agree : Γ.AgreeOn item.free Δ) :
    (inferItem Γ item >>= fun Γ' => pure (item.names.map (Γ'[·]?))) =
      inferItem Δ item >>= fun Δ' => pure (item.names.map (Δ'[·]?)) := by
  simp only [inferItem, bind_assoc]
  refine bind_congr fun _ => ?_
  cases item with
  | expr value =>
    simp only [bind_assoc, pure_bind]
    rw [inferExpr_congr value agree]
    exact bind_congr fun (s, t) => rfl
  | letGroup recursive bindings =>
    have types : groupTypes Γ recursive bindings = groupTypes Δ recursive bindings :=
      groupTypes_congr agree (inferPlain_congr ∅ bindings) fun s placeholders =>
        inferValues_congr s placeholders bindings
    simp only [inferGroup_eq, bind_assoc, pure_bind]
    rw [types]
    refine bind_congr_ok fun (s, named) st st' run => generalizeAll_congr (agree.subst s) ?_
    refine congrArg pure (List.map_congr_left fun name member => (agree.subst s).getElem?_bodyEnv ?_)
    rw [groupTypes_names run]
    exact member
  | measure name definition span => simp only [bind_assoc, pure_bind, Item.names, List.map_nil]

end

end Infer

open Infer

/-- An item depends on its free identifiers only: in closed environments that give these the same schemes it
    fails with the same error, or gives its names the same schemes, and leaves the same state. -/
theorem inferItem_free (Γ Δ : Env) (closed : Γ.Closed) (closed' : Δ.Closed) (item : Item)
    (same : ∀ id ∈ item.free, Γ[id.name]? = Δ[id.name]?) (st : State) :
    (∃ e st', inferItem Γ item st = .error e st' ∧ inferItem Δ item st = .error e st') ∨
    ∃ Γ' Δ' st', inferItem Γ item st = .ok Γ' st' ∧ inferItem Δ item st = .ok Δ' st' ∧
      ∀ name ∈ item.names, ∃ σ : Scheme, Γ'[name]? = some σ ∧ Δ'[name]? = some σ := by
  have agree := Env.AgreeOn.of_closed closed closed' same
  refine (runs_of_map_eq (congrFun (inferItem_schemes agree) st)).imp_right ?_
  rintro ⟨Γ', Δ', st', run, run', schemes⟩
  refine ⟨Γ', Δ', st', run, run', fun name member => ?_⟩
  obtain ⟨σ, look, _⟩ := (inferItem_extends closed run).bound name member
  exact ⟨σ, look, (List.map_inj_left.mp schemes name member).symm.trans look⟩

/-- The item `let pair = fun x -> let y = id x in (y, x)`. -/
def shadowItem : Item :=
  let name (id : String) : Ident := ⟨id, {}⟩
  let use : Expr := .apply (.ident (name "id")) (.ident (name "x")) {}
  let pair : Expr := .tuple [.ident (name "y"), .ident (name "x")] {}
  .letGroup false [⟨.ident (name "pair"),
    .lambda (.ident (name "x")) (.letIn false [⟨.ident (name "y"), use⟩] pair {}) {}⟩]

/-- An environment with the identity function and a number. -/
def shadowEnv : Env :=
  identityEnv.insert "y" ⟨[], .int⟩

theorem shadowEnv_closed : shadowEnv.Closed := by
  refine Env.closed_of_freeVars fun v => ?_
  rw [show shadowEnv.freeVars = ∅ by cbv]
  exact Std.ExtTreeSet.not_mem_empty

/-- The item has a `y` of its own, so the one of the environment does not matter. -/
theorem shadowItem_free : ∃ Γ Δ st, inferItem identityEnv shadowItem { next := 1 } = .ok Γ st ∧
    inferItem shadowEnv shadowItem { next := 1 } = .ok Δ st ∧
    Γ["pair"]? = some ⟨[3], .func (.var 3) (.tuple (.var 3) (.var 3) [])⟩ ∧
    Δ["pair"]? = some ⟨[3], .func (.var 3) (.tuple (.var 3) (.var 3) [])⟩ := by
  have run : outcome (inferItem identityEnv shadowItem { next := 1 }) =
      .ok (identityEnv.insert "pair" ⟨[3], .func (.var 3) (.tuple (.var 3) (.var 3) [])⟩) := by cbv
  have same : ∀ id ∈ shadowItem.free, identityEnv[id.name]? = shadowEnv[id.name]? := by
    rw [show shadowItem.free = [⟨"id", {}⟩] by cbv]
    simp [shadowEnv, Env.getElem?_insert_eq]
  rcases inferItem_free identityEnv shadowEnv identityEnv_closed shadowEnv_closed shadowItem same { next := 1 } with
    ⟨e, st, failed, _⟩ | ⟨Γ, Δ, st, done, done', schemes⟩
  · rw [failed] at run
    cases run
  · rw [done] at run
    cases run
    obtain ⟨σ, look, look'⟩ := schemes "pair" (by decide)
    rw [Std.ExtTreeMap.getElem?_insert_self] at look
    cases look
    exact ⟨_, Δ, st, done, done', Std.ExtTreeMap.getElem?_insert_self, look'⟩

end LetPoly
