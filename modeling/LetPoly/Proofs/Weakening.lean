import LetPoly.Proofs.Given

/-!
Names that an expression does not use do not matter (`inferExpr_weaken`), in an environment that need not be
closed: a variable that is free only in the scheme of such a name is not quantified in the larger environment,
but no type that is inferred in the smaller one has it. It follows that a function by rules is a function
whose parameter is matched with the rules (`inferExpr_function`).
-/
namespace LetPoly

namespace Env
open Typing

/-- The environment without the given names. -/
def without (names : List String) (Γ : Env) : Env :=
  Γ.filter fun name _ => !names.contains name

theorem getElem?_without (names : List String) (Γ : Env) (name : String) :
    (Γ.without names)[name]? = if name ∈ names then none else Γ[name]? := by
  rw [without, Std.ExtTreeMap.getElem?_filter']
  split
  · cases Γ[name]? <;> simp_all
  · cases Γ[name]? <;> simp_all

/-- The second environment is part of the first, which mentions variables below `n` only, and has all that
    the first has for the identifiers. -/
structure Spare (n : Nat) (ids : List Ident) (Γ Δ : Env) : Prop where
  below : Γ.Below n
  inside : ∀ (name : String) (σ : Scheme), Δ[name]? = some σ → Γ[name]? = some σ
  same : ∀ id ∈ ids, Γ[id.name]? = Δ[id.name]?

namespace Spare
variable {n m : Nat} {ids others : List Ident} {names : List String} {Γ Δ : Env} {s : Subst} {t : Ty}
  {named : List (String × Ty)}

theorem left (spare : Γ.Spare n (ids ++ others) Δ) : Γ.Spare n ids Δ :=
  ⟨spare.below, spare.inside, fun id member => spare.same id (List.mem_append_left _ member)⟩

theorem right (spare : Γ.Spare n (ids ++ others) Δ) : Γ.Spare n others Δ :=
  ⟨spare.below, spare.inside, fun id member => spare.same id (List.mem_append_right _ member)⟩

theorem later (spare : Γ.Spare n ids Δ) (more : n ≤ m) : Γ.Spare m ids Δ :=
  ⟨spare.below.later more, spare.inside, spare.same⟩

/-- The smaller environment mentions variables below `n` only, too. -/
theorem part_below (spare : Γ.Spare n ids Δ) : Δ.Below n :=
  below_iff.mpr fun name σ look => below_iff.mp spare.below name σ (spare.inside name σ look)

theorem subst (spare : Γ.Spare n ids Δ) (values : s.Below n) : (Γ.subst s).Spare n ids (Δ.subst s) where
  below := spare.below.subst values
  inside name τ look := by
    rw [getElem?_subst, Option.map_eq_some_iff] at look ⊢
    obtain ⟨σ, look, rfl⟩ := look
    exact ⟨σ, spare.inside name σ look, rfl⟩
  same id member := by rw [getElem?_subst, getElem?_subst, spare.same id member]

/-- In the scope of added names these need not have been there. -/
theorem extend {entries : List (String × Scheme)} (spare : Γ.Spare n (hide names ids) Δ)
    (names : entries.map Prod.fst = names) (added : ∀ entry ∈ entries, entry.2.Below n) :
    (Γ.extend entries).Spare n ids (Δ.extend entries) where
  below := spare.below.extend added
  inside name σ look := by
    by_cases bound : name ∈ entries.map Prod.fst
    · exact (getElem?_extend_of_mem bound).trans look
    · rw [getElem?_extend_of_notMem bound] at look ⊢
      exact spare.inside name σ look
  same id member := by
    by_cases bound : id.name ∈ entries.map Prod.fst
    · exact getElem?_extend_of_mem bound
    · rw [getElem?_extend_of_notMem bound, getElem?_extend_of_notMem bound]
      exact spare.same id (mem_hide.mpr ⟨member, names ▸ bound⟩)

theorem extendMono (spare : Γ.Spare n (hide names ids) Δ) (added : named.map Prod.fst = names)
    (known : NamedIn (· < n) named) : (Γ.extendMono named).Spare n ids (Δ.extendMono named) := by
  refine spare.extend ?_ fun entry member => ?_
  · rw [List.map_map]
    exact added
  · obtain ⟨entry, found, rfl⟩ := List.mem_map.mp member
    exact Scheme.below_mono (known entry found)

/-- A variable that is not replaced stays free. -/
theorem free_subst {w : TyVar} (free : w ∈ Δ.freeVars) (kept : w ∉ s) : w ∈ (Δ.subst s).freeVars := by
  obtain ⟨name, σ, look, free⟩ := mem_freeVars.mp free
  obtain ⟨member, unquantified⟩ := Scheme.mem_freeVars.mp free
  refine mem_freeVars.mpr ⟨name, σ.subst s, by rw [getElem?_subst, look]; rfl, ?_⟩
  refine Scheme.mem_freeVars.mpr ⟨Ty.mem_freeVars_bind.mpr ⟨w, member, ?_⟩, unquantified⟩
  simp [Scheme.mem_bound, unquantified, Subst.value_of_notMem kept]

/-- A variable that is inferred in the smaller environment is free in both under what is solved, or in neither.
    A type that comes in at a scheme of the larger one comes in at one of the smaller one too; where a
    quantified variable catches it there, it is free in the smaller one elsewhere. -/
theorem free_iff (spare : Γ.Spare n ids Δ) {n' : Nat} {u : Ty} (form : Infer.SolvedForm Δ n n' s u) {w : TyVar}
    (member : w ∈ u.freeVars) : w ∈ (Γ.subst s).freeVars ↔ w ∈ (Δ.subst s).freeVars := by
  have kept : w ∉ s := fun key => (form.apart w key).1 member
  have old (low : w < n) : w ∈ Δ.freeVars := (form.type w member).resolve_right fun new => Nat.not_le.mpr low new.1
  constructor
  · intro free
    obtain ⟨v, free, stands⟩ := mem_freeVars_subst free
    have low : v < n := spare.below v (mem_mentioned_of_free free)
    by_cases key : v ∈ s
    · have known : v ∈ Δ.freeVars := (form.keys v key).resolve_right fun new => Nat.not_le.mpr low new.1
      obtain ⟨name, σ, look, known⟩ := mem_freeVars.mp known
      obtain ⟨there, unquantified⟩ := Scheme.mem_freeVars.mp known
      by_cases caught : w ∈ σ.vars
      · exact free_subst (old ((below_iff.mp spare.part_below name σ look).vars w caught)) kept
      · refine mem_freeVars.mpr ⟨name, σ.subst s, by rw [getElem?_subst, look]; rfl, ?_⟩
        refine Scheme.mem_freeVars.mpr ⟨Ty.mem_freeVars_bind.mpr ⟨v, there, ?_⟩, caught⟩
        simpa [Scheme.mem_bound, unquantified] using stands
    · rw [Subst.value_of_notMem key, Ty.mem_freeVars_var] at stands
      subst stands
      exact free_subst (old low) kept
  · intro free
    obtain ⟨name, τ, look, free⟩ := mem_freeVars.mp free
    rw [getElem?_subst, Option.map_eq_some_iff] at look
    obtain ⟨σ, look, rfl⟩ := look
    exact mem_freeVars.mpr ⟨name, σ.subst s, by rw [getElem?_subst, spare.inside name σ look]; rfl, free⟩

/-- The same variables are quantified in both environments. -/
theorem generalize_eq (spare : Γ.Spare n ids Δ) {n' : Nat} {u : Ty} (form : Infer.SolvedForm Δ n n' s u) :
    (Γ.subst s).generalize u = (Δ.subst s).generalize u := by
  have same : u.freeVars \ (Γ.subst s).freeVars = u.freeVars \ (Δ.subst s).freeVars := by
    refine Std.ExtTreeSet.ext_mem fun w => ?_
    rw [Std.ExtTreeSet.mem_diff_iff, Std.ExtTreeSet.mem_diff_iff]
    exact and_congr_right fun member => not_congr (spare.free_iff form member)
  rw [generalize, generalize, same]

/-- The names of a group have the same schemes in both environments. -/
theorem schemes_eq (spare : Γ.Spare n ids Δ) {n' : Nat} (forms : ∀ entry ∈ named, Infer.SolvedForm Δ n n' s entry.2) :
    (named.map fun (name, t) => (name, (Γ.subst s).generalize t)) =
      named.map fun (name, t) => (name, (Δ.subst s).generalize t) :=
  List.map_congr_left fun entry member => congrArg (Prod.mk entry.1) (spare.generalize_eq (forms entry member))

theorem bodyEnv (spare : Γ.Spare n (hide names ids) Δ) {n' : Nat} (solved : Infer.SolvedForm Δ n n' s t)
    (forms : ∀ entry ∈ named, Infer.SolvedForm Δ n n' s entry.2) (added : named.map Prod.fst = names) :
    (Typing.bodyEnv (Γ.subst s) named).Spare n' ids (Typing.bodyEnv (Δ.subst s) named) := by
  rw [Typing.bodyEnv, Typing.bodyEnv, spare.schemes_eq forms]
  refine ((spare.later solved.supply).subst (solved.below spare.part_below).1).extend ?_ fun entry member => ?_
  · rw [List.map_map]
    exact added
  · obtain ⟨entry, found, rfl⟩ := List.mem_map.mp member
    exact below_generalize ((forms entry found).below spare.part_below).2

end Spare

end Env

namespace Infer
open Env State Typing

section
variable {α β : Type} {Γ Δ : Env} {st : State} {recursive : Bool} {bindings : List (Binding Expr)}

/-- Steps that do the same in a state, and then go on alike from where they are, do the same. -/
theorem bind_congr_at {m m' : Infer α} {f g : α → Infer β} (first : m st = m' st)
    (next : ∀ a st', m' st = .ok a st' → f a st' = g a st') : (m >>= f) st = (m' >>= g) st := by
  show EStateM.bind m f st = EStateM.bind m' g st
  unfold EStateM.bind
  rw [first]
  cases run : m' st with
  | ok a st' => exact next a st' run
  | error e st' => rfl

/-- A group gives its names the same types if its values are inferred alike. -/
theorem groupTypes_weaken (spare : Γ.Spare st.next (Item.free (.letGroup recursive bindings)) Δ)
    (unnamed : Unnamed (Expr.writtenBindings bindings))
    (plain : Γ.Spare st.next (Expr.freeValues bindings) Δ → inferPlain Γ ∅ bindings st = inferPlain Δ ∅ bindings st)
    (values : ∀ {Γ Δ : Env} {s : Subst} {placeholders : List Ty} {st : State},
      Γ.Spare st.next (Expr.freeValues bindings) Δ →
      s.Below st.next → (∀ t ∈ placeholders, t.In (· < st.next)) →
      inferValues Γ s placeholders bindings st = inferValues Δ s placeholders bindings st) :
    groupTypes Γ recursive bindings st = groupTypes Δ recursive bindings st := by
  refine bind_congr_at rfl fun _ st₁ run => ?_
  obtain ⟨rfl, _⟩ := checkDistinct_ok.mp run
  cases recursive with
  | false => exact plain spare
  | true =>
    refine bind_congr_at rfl fun (s₁, placeholders, named) st₁ run => ?_
    obtain ⟨more, below, fresh, known⟩ := inferPlaceholders_below Subst.below_empty (varNamesIn_patterns unnamed) run
    have inner : (Γ.extendMono named).Spare st₁.next (Expr.freeValues bindings) (Δ.extendMono named) :=
      (spare.later more).extendMono (inferPlaceholders_groupNames run) known
    exact bind_congr_at (values inner below fresh) fun _ _ _ => rfl

/-- The names of a group are quantified alike, and what follows sees the same schemes. -/
theorem generalizeAll_bind (Γ : Env) (named : List (String × Ty)) (f : Env → Infer β) (st : State) :
    (generalizeAll Γ named >>= f) st =
      let schemes := named.map fun (name, t) => (name, Γ.generalize t)
      f (Γ.extend schemes) { st with journal := st.journal ++ schemes.map fun (name, σ) => Event.generalized name σ } :=
  rfl

end

mutual

/-- An expression is inferred alike without names that it does not use. -/
theorem inferExpr_weaken {Γ Δ : Env} {st : State} : (e : Expr) → Unnamed e.written → Γ.Spare st.next e.free Δ →
    inferExpr Γ e st = inferExpr Δ e st
  | .const _ _, _, _ => by rw [inferExpr, inferExpr]
  | .ident id, _, spare => by
    rw [Expr.free] at spare
    rw [inferExpr, inferExpr, spare.same id List.mem_cons_self]
  | .lambda param body _, unnamed, spare => by
    obtain ⟨first, second⟩ := varNamesIn_append.mp unnamed
    rw [Expr.free] at spare
    rw [inferExpr, inferExpr]
    refine bind_congr_at rfl fun t st₁ run₁ => bind_congr_at rfl fun (s₁, named) st₂ run₂ => ?_
    obtain ⟨more₁, inside⟩ := fresh_below run₁
    obtain ⟨more₂, below₁, known⟩ := inferPattern_below inside first run₂
    have inner := ((spare.later (more₁.trans more₂)).subst below₁).extendMono (inferPattern_names run₂) known
    exact bind_congr_at (inferExpr_weaken body second inner) fun _ _ _ => rfl
  | .apply func arg _, unnamed, spare => by
    obtain ⟨first, second⟩ := varNamesIn_append.mp unnamed
    rw [Expr.free] at spare
    rw [inferExpr, inferExpr]
    refine bind_congr_at (inferExpr_weaken func first spare.left) fun (s₁, t) st₁ run₁ => ?_
    obtain ⟨more, below₁, _⟩ := inferExpr_below spare.part_below first run₁
    exact bind_congr_at (inferExpr_weaken arg second ((spare.right.later more).subst below₁)) fun _ _ _ => rfl
  | .letIn recursive bindings body _, unnamed, spare => by
    obtain ⟨first, second⟩ := varNamesIn_append.mp unnamed
    rw [free_letIn] at spare
    have types : groupTypes Γ recursive bindings st = groupTypes Δ recursive bindings st :=
      groupTypes_weaken spare.left first (inferPlain_weaken Subst.below_empty bindings first)
        fun values below fresh => inferValues_weaken below fresh bindings first values
    simp only [inferExpr_letIn, inferGroup_eq, bind_assoc]
    refine bind_congr_at types fun (s₁, named) st₁ run₁ => ?_
    obtain ⟨solved, forms⟩ := groupTypes_given spare.part_below first run₁
    have inner := spare.right.bodyEnv solved forms (groupTypes_names run₁)
    simp only [generalizeAll_bind, spare.right.schemes_eq forms, pure_bind]
    rw [bodyEnv, bodyEnv, spare.right.schemes_eq forms] at inner
    exact bind_congr_at (inferExpr_weaken body second inner) fun _ _ _ => rfl
  | .ifThenElse condition yes no _, unnamed, spare => by
    obtain ⟨firsts, third⟩ := varNamesIn_append.mp unnamed
    obtain ⟨first, second⟩ := varNamesIn_append.mp firsts
    rw [Expr.free] at spare
    rw [inferExpr, inferExpr]
    refine bind_congr_at (inferExpr_weaken condition first spare.left.left) fun (s₁, t) st₁ run₁ => ?_
    refine bind_congr_at rfl fun s₂ st₂ run₂ => ?_
    obtain ⟨more₁, below₁, inside⟩ := inferExpr_below spare.part_below first run₁
    obtain ⟨more₂, below₂⟩ := equate_below (Ty.in_prim .bool) inside run₂
    have more := more₁.trans more₂
    have below := below₂.after (below₁.later more₂)
    have inner := (spare.later more).subst below
    refine bind_congr_at (inferExpr_weaken yes second inner.left.right) fun (s₃, u) st₃ run₃ => ?_
    obtain ⟨more₃, below₃, _⟩ := inferExpr_below inner.part_below second run₃
    have below := below₃.after (below.later more₃)
    have inner := (spare.right.later (more.trans more₃)).subst below
    exact bind_congr_at (inferElse_weaken no third inner) fun _ _ _ => rfl
  | .matchWith scrutinee rules _, unnamed, spare => by
    obtain ⟨first, second⟩ := varNamesIn_append.mp unnamed
    rw [Expr.free] at spare
    rw [inferExpr, inferExpr]
    refine bind_congr_at (inferExpr_weaken scrutinee first spare.left) fun (s₁, input) st₁ run₁ => ?_
    refine bind_congr_at rfl fun result st₂ run₂ => ?_
    obtain ⟨more₁, below₁, inside⟩ := inferExpr_below spare.part_below first run₁
    obtain ⟨more₂, fresh⟩ := fresh_below run₂
    exact bind_congr_at (inferRules_weaken (inside.later more₂) fresh (below₁.later more₂) rules second
      (spare.right.later (more₁.trans more₂))) fun _ _ _ => rfl
  | .function rules _, unnamed, spare => by
    rw [Expr.free] at spare
    rw [inferExpr, inferExpr]
    refine bind_congr_at rfl fun input st₁ run₁ => bind_congr_at rfl fun result st₂ run₂ => ?_
    obtain ⟨more₁, inside⟩ := fresh_below run₁
    obtain ⟨more₂, fresh⟩ := fresh_below run₂
    exact bind_congr_at (inferRules_weaken (inside.later more₂) fresh Subst.below_empty rules unnamed
      (spare.later (more₁.trans more₂))) fun _ _ _ => rfl
  | .tuple elements _, unnamed, spare => by
    rw [Expr.free] at spare
    rw [inferExpr, inferExpr]
    exact bind_congr_at (inferSequence_weaken Subst.below_empty elements unnamed spare) fun _ _ _ => rfl
  | .list elements _, unnamed, spare => by
    rw [Expr.free] at spare
    rw [inferExpr, inferExpr]
    refine bind_congr_at rfl fun elem st₁ run₁ => ?_
    obtain ⟨more, inside⟩ := fresh_below run₁
    exact bind_congr_at (inferElements_weaken inside Subst.below_empty elements unnamed (spare.later more))
      fun _ _ _ => rfl
  | .cons head tail _, unnamed, spare => by
    obtain ⟨first, second⟩ := varNamesIn_append.mp unnamed
    rw [Expr.free] at spare
    rw [inferExpr, inferExpr]
    refine bind_congr_at (inferExpr_weaken head first spare.left) fun (s₁, t) st₁ run₁ => ?_
    obtain ⟨more, below₁, _⟩ := inferExpr_below spare.part_below first run₁
    exact bind_congr_at (inferExpr_weaken tail second ((spare.right.later more).subst below₁)) fun _ _ _ => rfl
  | .some value _, unnamed, spare => by
    rw [Expr.free] at spare
    rw [inferExpr, inferExpr]
    exact bind_congr_at (inferExpr_weaken value unnamed spare) fun _ _ _ => rfl
  | .none _, _, _ => by rw [inferExpr, inferExpr]
  | .typed value _ _, unnamed, spare => by
    rw [Expr.free] at spare
    rw [inferExpr, inferExpr]
    exact bind_congr_at (inferExpr_weaken value (varNamesIn_ascribed.mp unnamed).2 spare) fun _ _ _ => rfl

theorem inferElse_weaken {Γ Δ : Env} {st : State} : (no : Option Expr) → Unnamed (Expr.writtenOption no) →
    Γ.Spare st.next (Expr.freeOption no) Δ → inferElse Γ no st = inferElse Δ no st
  | some e, unnamed, spare => by
    rw [Expr.freeOption] at spare
    rw [inferElse, inferElse, inferExpr_weaken e unnamed spare]
  | none, _, _ => by rw [inferElse, inferElse]

theorem inferGuard_weaken {Γ Δ : Env} {st : State} : (guard : Option Expr) → Unnamed (Expr.writtenOption guard) →
    Γ.Spare st.next (Expr.freeOption guard) Δ → inferGuard Γ guard st = inferGuard Δ guard st
  | some e, unnamed, spare => by
    rw [Expr.freeOption] at spare
    rw [inferGuard, inferGuard]
    exact bind_congr_at (inferExpr_weaken e unnamed spare) fun _ _ _ => rfl
  | none, _, _ => by rw [inferGuard, inferGuard]

theorem inferRules_weaken {Γ Δ : Env} {st : State} {input result : Ty} {s : Subst} (known : input.In (· < st.next))
    (known' : result.In (· < st.next)) (below : s.Below st.next) : (rules : List (Rule Expr)) →
      Unnamed (Expr.writtenRules rules) → Γ.Spare st.next (Expr.freeRules rules) Δ →
      inferRules Γ input result s rules st = inferRules Δ input result s rules st
  | [], _, _ => by rw [inferRules, inferRules]
  | ⟨pattern, guard, body⟩ :: rules, unnamed, spare => by
    obtain ⟨rule, rest⟩ := varNamesIn_append.mp unnamed
    obtain ⟨firsts, third⟩ := varNamesIn_append.mp rule
    obtain ⟨first, second⟩ := varNamesIn_append.mp firsts
    rw [Expr.freeRules] at spare
    rw [inferRules, inferRules]
    refine bind_congr_at rfl fun (s₁, named) st₁ run₁ => ?_
    obtain ⟨more₁, below₁, names⟩ := inferPattern_below (below.apply known) first run₁
    have below := below₁.after (below.later more₁)
    have inner := ((spare.left.later more₁).subst below).extendMono (inferPattern_names run₁) names
    refine bind_congr_at (inferGuard_weaken guard second inner.left) fun s₂ st₂ run₂ => ?_
    obtain ⟨more₂, below₂⟩ := inferGuard_below inner.part_below second run₂
    have below := below₂.after (below.later more₂)
    have inner := (inner.right.later more₂).subst below
    refine bind_congr_at (inferExpr_weaken body third inner) fun (s₃, t) st₃ run₃ => ?_
    obtain ⟨more₃, below₃, inside⟩ := inferExpr_below inner.part_below third run₃
    have below := below₃.after (below.later more₃)
    have more := (more₁.trans more₂).trans more₃
    refine bind_congr_at rfl fun s₄ st₄ run₄ => ?_
    obtain ⟨more₄, below₄⟩ := equate_below (below.apply (known'.later more)) (below.apply inside) run₄
    have more := more.trans more₄
    exact inferRules_weaken (known.later more) (known'.later more) (below₄.after (below.later more₄)) rules rest
      (spare.right.later more)

theorem inferElements_weaken {Γ Δ : Env} {st : State} {elem : Ty} {s : Subst} (known : elem.In (· < st.next))
    (below : s.Below st.next) : (es : List Expr) → Unnamed (Expr.writtenList es) →
      Γ.Spare st.next (Expr.freeList es) Δ → inferElements Γ elem s es st = inferElements Δ elem s es st
  | [], _, _ => by rw [inferElements, inferElements]
  | e :: es, unnamed, spare => by
    obtain ⟨first, rest⟩ := varNamesIn_append.mp unnamed
    rw [Expr.freeList] at spare
    rw [inferElements, inferElements]
    have inner := spare.left.subst below
    refine bind_congr_at (inferExpr_weaken e first inner) fun (s₁, t) st₁ run₁ => ?_
    refine bind_congr_at rfl fun s₂ st₂ run₂ => ?_
    obtain ⟨more₁, below₁, inside⟩ := inferExpr_below inner.part_below first run₁
    have below := below₁.after (below.later more₁)
    obtain ⟨more₂, below₂⟩ := equate_below (below.apply (known.later more₁)) inside run₂
    have more := more₁.trans more₂
    exact inferElements_weaken (known.later more) (below₂.after (below.later more₂)) es rest (spare.right.later more)

theorem inferSequence_weaken {Γ Δ : Env} {st : State} {s : Subst} (below : s.Below st.next) : (es : List Expr) →
    Unnamed (Expr.writtenList es) → Γ.Spare st.next (Expr.freeList es) Δ →
      inferSequence Γ s es st = inferSequence Δ s es st
  | [], _, _ => by rw [inferSequence, inferSequence]
  | e :: es, unnamed, spare => by
    obtain ⟨first, rest⟩ := varNamesIn_append.mp unnamed
    rw [Expr.freeList] at spare
    rw [inferSequence, inferSequence]
    have inner := spare.left.subst below
    refine bind_congr_at (inferExpr_weaken e first inner) fun (s₁, t) st₁ run₁ => ?_
    obtain ⟨more, below₁, _⟩ := inferExpr_below inner.part_below first run₁
    exact bind_congr_at (inferSequence_weaken (below₁.after (below.later more)) es rest (spare.right.later more))
      fun _ _ _ => rfl

theorem inferPlain_weaken {Γ Δ : Env} {st : State} {s : Subst} (below : s.Below st.next) :
    (bindings : List (Binding Expr)) → Unnamed (Expr.writtenBindings bindings) →
      Γ.Spare st.next (Expr.freeValues bindings) Δ → inferPlain Γ s bindings st = inferPlain Δ s bindings st
  | [], _, _ => by rw [inferPlain, inferPlain]
  | ⟨pattern, value⟩ :: bindings, unnamed, spare => by
    obtain ⟨both, rest⟩ := varNamesIn_append.mp unnamed
    obtain ⟨first, second⟩ := varNamesIn_append.mp both
    rw [Expr.freeValues] at spare
    rw [inferPlain, inferPlain]
    have inner := spare.left.subst below
    refine bind_congr_at (inferExpr_weaken value second inner) fun (s₁, t) st₁ run₁ => ?_
    refine bind_congr_at rfl fun (s₂, named) st₂ run₂ => ?_
    obtain ⟨more₁, below₁, inside⟩ := inferExpr_below inner.part_below second run₁
    have below := below₁.after (below.later more₁)
    obtain ⟨more₂, below₂, _⟩ := inferPattern_below inside first run₂
    exact bind_congr_at (inferPlain_weaken (below₂.after (below.later more₂)) bindings rest
      (spare.right.later (more₁.trans more₂))) fun _ _ _ => rfl

theorem inferValues_weaken {Γ Δ : Env} {st : State} {s : Subst} {placeholders : List Ty} (below : s.Below st.next)
    (fresh : ∀ t ∈ placeholders, t.In (· < st.next)) : (bindings : List (Binding Expr)) →
      Unnamed (Expr.writtenBindings bindings) → Γ.Spare st.next (Expr.freeValues bindings) Δ →
      inferValues Γ s placeholders bindings st = inferValues Δ s placeholders bindings st
  | [], _, _ => by cases placeholders <;> rw [inferValues, inferValues] <;> simp
  | ⟨pattern, value⟩ :: bindings, unnamed, spare => by
    obtain ⟨both, rest⟩ := varNamesIn_append.mp unnamed
    rw [Expr.freeValues] at spare
    cases placeholders with
    | nil => rw [inferValues, inferValues] <;> simp
    | cons placeholder placeholders =>
      obtain ⟨known, later⟩ := List.forall_mem_cons.mp fresh
      have second := (varNamesIn_append.mp both).2
      rw [inferValues, inferValues]
      have inner := spare.left.subst below
      refine bind_congr_at (inferExpr_weaken value second inner) fun (s₁, t) st₁ run₁ => ?_
      refine bind_congr_at rfl fun s₂ st₂ run₂ => ?_
      obtain ⟨more₁, below₁, inside⟩ := inferExpr_below inner.part_below second run₁
      have below := below₁.after (below.later more₁)
      obtain ⟨more₂, below₂⟩ := equate_below (below.apply (known.later more₁)) (below.apply inside) run₂
      have more := more₁.trans more₂
      exact inferValues_weaken (below₂.after (below.later more₂)) (fun t member => (later t member).later more)
        bindings rest (spare.right.later more)

end

/-! ### Functions by rules -/

section
variable {Γ : Env} {n : Nat} {ids : List Ident} {names : List String} {named : List (String × Ty)} {x : String}

/-- Names that are not used may be left out. -/
theorem spare_without (below : Γ.Below n) (unused : ∀ id ∈ ids, id.name ∉ names) : Γ.Spare n ids (Γ.without names) where
  below := below
  inside name σ look := by
    rw [getElem?_without] at look
    split at look
    · cases look
    · exact look
  same id member := by rw [getElem?_without, if_neg (unused id member)]

/-- Names that are not used may be added, in the place of others. -/
theorem spare_extendMono (below : Γ.Below n) (unused : ∀ id ∈ ids, id.name ∉ names) (added : named.map Prod.fst = names)
    (known : NamedIn (· < n) named) : (Γ.extendMono named).Spare n ids (Γ.without names) := by
  have entries : (named.map fun entry => (entry.1, Scheme.mono entry.2)).map Prod.fst = names := by
    rw [List.map_map]
    exact added
  have kept {name : String} (other : name ∉ names) : (Γ.extendMono named)[name]? = Γ[name]? :=
    getElem?_extend_of_notMem (entries ▸ other)
  refine ⟨below.extendMono known, fun name σ look => ?_, fun id member => ?_⟩
  · rw [getElem?_without] at look
    split at look
    · cases look
    · rw [kept ‹_›, look]
  · rw [kept (unused id member), getElem?_without, if_neg (unused id member)]

theorem inferPattern_ident (t : Ty) (id : Ident) : inferPattern t (.ident id) = pure (∅, [(id.name, t)]) := by
  rw [inferPattern, matchPattern, Pattern.idents, checkDistinct, duplicate?, if_neg (by simp)]
  rfl

/-- A name whose type is not quantified has that type. -/
theorem inferExpr_extendMono_ident (Γ : Env) (x : String) (t : Ty) (span : Span) :
    inferExpr (Γ.extendMono [(x, t)]) (.ident ⟨x, span⟩) = pure (∅, t) := by
  have look : (Γ.extendMono [(x, t)])[x]? = some (.mono t) := by
    simp [extendMono, extend]
  have renewed : instantiate (.mono t) = pure ((∅ : Subst).apply t) := rfl
  rw [inferExpr_ident look, renewed, Subst.apply_empty, pure_bind]

end

end Infer

open Infer

/-- A function by rules is a function whose parameter is matched with the rules: with a parameter name that the
    rules do not use, both are inferred alike, to the last new variable and event. -/
theorem inferExpr_function (Γ : Env) (st : State) (below : Γ.Below st.next) (rules : List (Rule Expr))
    (unnamed : ∀ w ∈ Expr.writtenRules rules, w.varNames = []) (x : String)
    (unused : ∀ id ∈ Expr.freeRules rules, id.name ≠ x) (span paramSpan useSpan matchSpan lambdaSpan : Span) :
    inferExpr Γ (.function rules span) st =
      inferExpr Γ (.lambda (.ident ⟨x, paramSpan⟩) (.matchWith (.ident ⟨x, useSpan⟩) rules matchSpan) lambdaSpan)
        st := by
  have unnamed : Unnamed (Expr.writtenRules rules) := fun w member name named => by simp [unnamed w member] at named
  have unused : ∀ id ∈ Expr.freeRules rules, id.name ∉ [x] := by simpa using unused
  rw [inferExpr, inferExpr]
  refine bind_congr_at rfl fun input st₁ run₁ => ?_
  have matched : inferExpr (Γ.extendMono [(x, input)]) (.matchWith (.ident ⟨x, useSpan⟩) rules matchSpan) = (do
      let result ← fresh
      let s ← inferRules (Γ.extendMono [(x, input)]) input result ∅ rules
      return (s, s.apply result)) := by
    rw [inferExpr, inferExpr_extendMono_ident, pure_bind]
  simp only [inferPattern_ident, pure_bind, Env.subst_empty, matched, bind_assoc, Subst.after_empty]
  refine bind_congr_at rfl fun result st₂ run₂ => ?_
  obtain ⟨more₁, known⟩ := fresh_below run₁
  obtain ⟨more₂, known'⟩ := fresh_below run₂
  have below := below.later (more₁.trans more₂)
  have known := known.later more₂
  -- Both environments are compared with the one that does not have `x`.
  have plain := spare_without below unused
  have extended : (Γ.extendMono [(x, input)]).Spare st₂.next (Expr.freeRules rules) (Γ.without [x]) :=
    spare_extendMono below unused rfl (by simpa [NamedIn] using known)
  refine bind_congr_at ?_ fun s _ _ => rfl
  rw [inferRules_weaken known known' Subst.below_empty rules unnamed plain,
    inferRules_weaken known known' Subst.below_empty rules unnamed extended]

/-- An environment in which the types of `x` and `y` are open. -/
def pairEnv : Env :=
  ((∅ : Env).insert "x" (.mono (.var 0))).insert "y" (.mono (.var 1))

/-- The rule `(a, b) -> let g = fun z -> (z, a) in (g b, g y)`. -/
def pairRules : List (Rule Expr) :=
  let name (id : String) : Expr := .ident ⟨id, {}⟩
  let pattern (id : String) : Pattern := .ident ⟨id, {}⟩
  let pair : Expr := .lambda (pattern "z") (.tuple [name "z", name "a"] {}) {}
  let body : Expr := .tuple [.apply (name "g") (name "b") {}, .apply (name "g") (name "y") {}] {}
  [⟨.tuple [pattern "a", pattern "b"] {}, none, .letIn false [⟨pattern "g", pair⟩] body {}⟩]

/-- With the parameter in scope, and the outer `x` hidden, `g` is as general as without it. -/
theorem pairRules_function : pairEnv.Below 2 ∧ (∀ w ∈ Expr.writtenRules pairRules, w.varNames = []) ∧
    (∀ id ∈ Expr.freeRules pairRules, id.name ≠ "x") ∧
    ∃ s st, inferExpr pairEnv (.lambda (.ident ⟨"x", {}⟩) (.matchWith (.ident ⟨"x", {}⟩) pairRules {}) {})
        { next := 2 } =
      .ok (s, .func (.tuple (.var 4) (.var 5) [])
        (.tuple (.tuple (.var 5) (.var 4) []) (.tuple (.var 1) (.var 4) []) [])) st := by
  have below : pairEnv.Below 2 := by
    unfold Env.Below
    decide
  have unnamed : ∀ w ∈ Expr.writtenRules pairRules, w.varNames = [] := by decide
  have unused : ∀ id ∈ Expr.freeRules pairRules, id.name ≠ "x" := by decide
  refine ⟨below, unnamed, unused, ?_⟩
  rw [← inferExpr_function pairEnv { next := 2 } below pairRules unnamed "x" unused {}]
  apply Exists.intro
  apply Exists.intro
  cbv

end LetPoly
