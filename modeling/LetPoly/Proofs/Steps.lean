import Mathlib.Logic.Relation
import LetPoly.Proofs.Elementary

/-!
A run of inference is made of elementary steps, which follows the program text (`stepwise_inferExpr`), and
these are made of elementary changes of the state: variables are given out, events are noted, equations are
solved, named variables are read, measures are declared. This holds whatever the outcome is, since an error
can stop a run anywhere (`changes_inferItems`). What every change keeps is then kept by a run: a program that
has no named variable in its annotations reads none (`quiet_inferItems`), and an item that fails takes no
variable back and declares no measure (`inferItem_error`). What does not depend on the item so far in every
step does not in a run (`Stepwise.blind`).
-/
namespace LetPoly

/-- An elementary change of the state, where the named variables in `N` may be read and the measures in
    `D` may be declared. -/
inductive State.Change (N D : String → Prop) (st : State) : State → Prop where
  | supply : Change N D st { st with next := st.next + 1 }
  | note {events : List Event} : (∀ (name : String) (t : Ty), .resolved name t ∉ events) →
    Change N D st { st with journal := st.journal ++ events }
  | solve (s : Subst) : Change N D st { st with solved := s }
  | remember (name : String) (v : TyVar) : Change N D st { st with named := st.named.insert name v }
  | read {name : String} (t : Ty) : N name → Change N D st { st with journal := st.journal ++ [Event.resolved name t] }
  | restart : Change N D st { st with named := ∅, solved := ∅ }
  | declare {name : String} : D name → Change N D st { st with measures := st.measures.insert name }

/-- Variables may have been given out since, and the declared measures are the same. -/
structure State.Later (st st' : State) : Prop where
  next : st.next ≤ st'.next
  measures : st'.measures = st.measures

namespace Infer
open State

/-- The state at the end of a run. -/
def final {α : Type} : EStateM.Result Failure State α → State
  | .ok _ st | .error _ st => st

/-- Whatever its outcome, the step is made of elementary changes. -/
def Changes {α : Type} (N D : String → Prop) (m : Infer α) : Prop :=
  ∀ st : State, Relation.ReflTransGen (Change N D) st (final (m st))

section
variable {N D : String → Prop} {α β : Type}

/-! ### Steps -/

theorem Changes.bind {m : Infer α} {f : α → Infer β} (first : Changes N D m) (next : ∀ a, Changes N D (f a)) :
    Changes N D (m >>= f) := by
  intro st
  have before := first st
  show Relation.ReflTransGen _ st (final (EStateM.bind m f st))
  unfold EStateM.bind
  cases run : m st with
  | ok a st₁ =>
    rw [run] at before
    exact before.trans (next a st₁)
  | error e st₁ =>
    rw [run] at before
    exact before

theorem changes_pure (a : α) : Changes N D (pure a : Infer α) :=
  fun _ => .refl

theorem changes_fail (span : Span) (cause : TypeError.Cause) : Changes N D (fail span cause : Infer α) :=
  fun _ => .refl

theorem changes_record {events : List Event} (unread : ∀ (name : String) (t : Ty), .resolved name t ∉ events) :
    Changes N D (record events) :=
  fun _ => .single (.note unread)

theorem changes_freshVar : Changes N D freshVar := fun st => by
  rw [freshVar_run]
  split
  · exact .single .supply
  · exact .refl

theorem changes_equate (span : Span) (a b : Ty) (note : Option String) :
    Changes N D (equate span a b note) := fun st => by
  have noted : Relation.ReflTransGen (Change N D) st { st with journal := st.journal ++ [Event.equated a b] } :=
    .single (.note (by simp))
  rw [equate_run]
  cases unify a b with
  | ok s => exact noted.tail (.solve _)
  | error e => exact noted

/-- Elementary steps are made of elementary changes. -/
theorem Elementary.changes {m : Infer α} (elementary : Elementary N True m) : Changes N D m := by
  induction elementary with
  | pure a => exact changes_pure a
  | fail _ => exact changes_fail _ _
  | record unread => exact changes_record unread
  | freshVar => exact changes_freshVar
  | equate span a b note _ => exact changes_equate span a b note
  | measure span name place =>
    intro st
    rw [measure_run]
    split <;> exact .refl
  | @read name known =>
    have remember (v : TyVar) : Changes N D (modify fun st => { st with named := st.named.insert name v }) :=
      fun _ => .single (.remember name v)
    have read (t : Ty) : Changes N D (Infer.record [.resolved name t]) :=
      fun _ => .single (.read t known)
    intro st
    rw [resolveVar, get_bind]
    cases st.named[name]? with
    | some v => exact ((read _).bind fun _ => changes_pure _) st
    | none => exact (changes_freshVar.bind fun v => (remember v).bind fun _ => (read _).bind fun _ => changes_pure _) st
  | bind _ _ first next => exact first.bind next

/-! ### The program text -/

/-- The step is made of elementary steps and of failures. -/
inductive Stepwise (N : String → Prop) : {α : Type} → Infer α → Prop where
  | elementary {α : Type} {m : Infer α} : Elementary N True m → Stepwise N m
  | fail {α : Type} (span : Span) (cause : TypeError.Cause) : Stepwise N (fail span cause : Infer α)
  | bind {α β : Type} {m : Infer α} {f : α → Infer β} : Stepwise N m → (∀ a, Stepwise N (f a)) → Stepwise N (m >>= f)

theorem Stepwise.changes {m : Infer α} (stepwise : Stepwise N m) : Changes N D m := by
  induction stepwise with
  | elementary elementary => exact elementary.changes
  | fail span cause => exact changes_fail span cause
  | bind _ _ first next => exact first.bind next

/-- Without named variables, a step does not look at the item so far. -/
theorem Stepwise.blind {m : Infer α} (stepwise : Stepwise (fun _ => False) m) : Blind m := by
  induction stepwise with
  | elementary elementary => exact elementary.blind
  | fail span cause => exact fun _ => rfl
  | bind _ _ first next => exact first.bind next

theorem Elementary.stepwise {m : Infer α} (elementary : Elementary N True m) : Stepwise N m :=
  .elementary elementary

theorem stepwise_pure (a : α) : Stepwise N (pure a : Infer α) :=
  .elementary (.pure a)

theorem stepwise_fresh : Stepwise N fresh :=
  .elementary elementary_fresh

theorem stepwise_equate (span : Span) (a b : Ty) (note : Option String) : Stepwise N (equate span a b note) :=
  .elementary (.equate span a b note trivial)

theorem stepwise_checkDistinct (ids : List Ident) : Stepwise N (checkDistinct ids) := by
  unfold checkDistinct
  split
  · exact .fail _ _
  · exact stepwise_pure _

theorem stepwise_inferPattern (t : Ty) (p : Pattern) (names : VarNamesIn N p.written) : Stepwise N (inferPattern t p) :=
  (stepwise_checkDistinct _).bind fun _ => (elementary_matchPattern t p names).stepwise

theorem stepwise_inferPlaceholders (s : Subst) (ps : List Pattern) (names : VarNamesIn N (Pattern.writtenList ps)) :
    Stepwise N (inferPlaceholders s ps) := by
  induction ps generalizing s with
  | nil => exact stepwise_pure _
  | cons p ps ih =>
    obtain ⟨first, rest⟩ := varNamesIn_append.mp names
    exact stepwise_fresh.bind fun t => (stepwise_inferPattern t p first).bind fun _ =>
      (ih _ rest).bind fun _ => stepwise_pure _

theorem varNamesIn_patterns {bindings : List (Binding Expr)} (names : VarNamesIn N (Expr.writtenBindings bindings)) :
    VarNamesIn N (Pattern.writtenList (bindings.map Binding.pattern)) := by
  induction bindings with
  | nil => exact names
  | cons binding bindings ih =>
    simp only [Expr.writtenBindings, varNamesIn_append] at names
    exact varNamesIn_append.mpr ⟨names.1.1, ih names.2⟩

theorem stepwise_groupOf (Γ : Env) (recursive : Bool) {bindings : List (Binding Expr)}
    {plain : Infer (Subst × List (String × Ty))} {values : Env → Subst → List Ty → Infer Subst}
    (names : VarNamesIn N (Expr.writtenBindings bindings)) (plainSteps : Stepwise N plain)
    (valuesStep : ∀ Γ s placeholders, Stepwise N (values Γ s placeholders)) :
    Stepwise N (groupOf Γ recursive bindings plain values) := by
  refine (stepwise_checkDistinct _).bind fun _ => ?_
  cases recursive with
  | false => exact plainSteps.bind fun _ => (elementary_generalizeAll _ _).stepwise.bind fun _ => stepwise_pure _
  | true =>
    exact (stepwise_inferPlaceholders _ _ (varNamesIn_patterns names)).bind fun _ => (valuesStep _ _ _).bind fun _ =>
      (stepwise_pure _).bind fun _ => (elementary_generalizeAll _ _).stepwise.bind fun _ => stepwise_pure _

mutual

/-- An expression is inferred in elementary steps, and reads the variables that it names. -/
theorem stepwise_inferExpr (Γ : Env) : (e : Expr) → VarNamesIn N e.written → Stepwise N (inferExpr Γ e)
  | .const value span, _ => (elementary_literalType span value).stepwise.bind fun _ => stepwise_pure _
  | .ident id, _ => by
    rw [inferExpr.eq_def]
    simp only
    split
    · exact (elementary_instantiate _).stepwise.bind fun _ => stepwise_pure _
    · exact .fail _ _
  | .lambda param body _, names =>
    have parts := varNamesIn_append.mp names
    stepwise_fresh.bind fun t => (stepwise_inferPattern t param parts.1).bind fun _ =>
      (stepwise_inferExpr _ body parts.2).bind fun _ => stepwise_pure _
  | .apply func arg _, names =>
    have parts := varNamesIn_append.mp names
    (stepwise_inferExpr Γ func parts.1).bind fun _ => (stepwise_inferExpr _ arg parts.2).bind fun _ =>
      stepwise_fresh.bind fun _ => (stepwise_equate _ _ _ _).bind fun _ => stepwise_pure _
  | .letIn recursive bindings body _, names =>
    have parts := varNamesIn_append.mp names
    (stepwise_groupOf Γ recursive parts.1 (stepwise_inferPlain Γ ∅ bindings parts.1)
      fun Γ s placeholders => stepwise_inferValues Γ s placeholders bindings parts.1).bind fun _ =>
      (stepwise_inferExpr _ body parts.2).bind fun _ => stepwise_pure _
  | .ifThenElse condition yes no _, names =>
    have parts := varNamesIn_append.mp names
    have first := varNamesIn_append.mp parts.1
    (stepwise_inferExpr Γ condition first.1).bind fun _ => (stepwise_equate _ _ _ _).bind fun _ =>
      (stepwise_inferExpr _ yes first.2).bind fun _ => (stepwise_inferElse _ no parts.2).bind fun _ =>
      (stepwise_equate _ _ _ _).bind fun _ => stepwise_pure _
  | .matchWith scrutinee rules _, names =>
    have parts := varNamesIn_append.mp names
    (stepwise_inferExpr Γ scrutinee parts.1).bind fun _ => stepwise_fresh.bind fun _ =>
      (stepwise_inferRules Γ _ _ _ rules parts.2).bind fun _ => stepwise_pure _
  | .function rules _, names =>
    stepwise_fresh.bind fun _ => stepwise_fresh.bind fun _ => (stepwise_inferRules Γ _ _ _ rules names).bind fun _ =>
      stepwise_pure _
  | .tuple elements span, names =>
    (stepwise_inferSequence Γ ∅ elements names).bind fun _ =>
      (elementary_tupleType span _).stepwise.bind fun _ => stepwise_pure _
  | .list elements _, names =>
    stepwise_fresh.bind fun _ => (stepwise_inferElements Γ _ ∅ elements names).bind fun _ => stepwise_pure _
  | .cons head tail _, names =>
    have parts := varNamesIn_append.mp names
    (stepwise_inferExpr Γ head parts.1).bind fun _ => (stepwise_inferExpr _ tail parts.2).bind fun _ =>
      (stepwise_equate _ _ _ _).bind fun _ => stepwise_pure _
  | .some value _, names => (stepwise_inferExpr Γ value names).bind fun _ => stepwise_pure _
  | .none _, _ => stepwise_fresh.bind fun _ => stepwise_pure _
  | .typed value ascribed _, names =>
    have parts := varNamesIn_ascribed.mp names
    (stepwise_inferExpr Γ value parts.2).bind fun _ => (elementary_resolve ascribed parts.1).stepwise.bind fun _ =>
      (stepwise_equate _ _ _ _).bind fun _ => stepwise_pure _

theorem stepwise_inferElse (Γ : Env) :
    (no : Option Expr) → VarNamesIn N (Expr.writtenOption no) → Stepwise N (inferElse Γ no)
  | some e, names => stepwise_inferExpr Γ e names
  | none, _ => stepwise_pure _

theorem stepwise_inferGuard (Γ : Env) :
    (guard : Option Expr) → VarNamesIn N (Expr.writtenOption guard) → Stepwise N (inferGuard Γ guard)
  | some e, names =>
    (stepwise_inferExpr Γ e names).bind fun _ => (stepwise_equate _ _ _ _).bind fun _ => stepwise_pure _
  | none, _ => stepwise_pure _

theorem stepwise_inferRules (Γ : Env) (input result : Ty) (s : Subst) :
    (rules : List (Rule Expr)) → VarNamesIn N (Expr.writtenRules rules) → Stepwise N (inferRules Γ input result s rules)
  | [], _ => stepwise_pure _
  | ⟨pattern, guard, body⟩ :: rules, names =>
    have parts := varNamesIn_append.mp names
    have rule := varNamesIn_append.mp parts.1
    have first := varNamesIn_append.mp rule.1
    (stepwise_inferPattern _ pattern first.1).bind fun _ => (stepwise_inferGuard _ guard first.2).bind fun _ =>
      (stepwise_inferExpr _ body rule.2).bind fun _ => (stepwise_equate _ _ _ _).bind fun _ =>
      stepwise_inferRules Γ input result _ rules parts.2

theorem stepwise_inferElements (Γ : Env) (elem : Ty) (s : Subst) :
    (es : List Expr) → VarNamesIn N (Expr.writtenList es) → Stepwise N (inferElements Γ elem s es)
  | [], _ => stepwise_pure _
  | e :: es, names =>
    have parts := varNamesIn_append.mp names
    (stepwise_inferExpr _ e parts.1).bind fun _ => (stepwise_equate _ _ _ _).bind fun _ =>
      stepwise_inferElements Γ elem _ es parts.2

theorem stepwise_inferSequence (Γ : Env) (s : Subst) :
    (es : List Expr) → VarNamesIn N (Expr.writtenList es) → Stepwise N (inferSequence Γ s es)
  | [], _ => stepwise_pure _
  | e :: es, names =>
    have parts := varNamesIn_append.mp names
    (stepwise_inferExpr _ e parts.1).bind fun _ => (stepwise_inferSequence Γ _ es parts.2).bind fun _ => stepwise_pure _

theorem stepwise_inferPlain (Γ : Env) (s : Subst) :
    (bindings : List (Binding Expr)) → VarNamesIn N (Expr.writtenBindings bindings) →
      Stepwise N (inferPlain Γ s bindings)
  | [], _ => stepwise_pure _
  | ⟨pattern, value⟩ :: bindings, names =>
    have parts := varNamesIn_append.mp names
    have first := varNamesIn_append.mp parts.1
    (stepwise_inferExpr _ value first.2).bind fun _ => (stepwise_inferPattern _ pattern first.1).bind fun _ =>
      (stepwise_inferPlain Γ _ bindings parts.2).bind fun _ => stepwise_pure _

theorem stepwise_inferValues (Γ : Env) (s : Subst) (placeholders : List Ty) :
    (bindings : List (Binding Expr)) → VarNamesIn N (Expr.writtenBindings bindings) →
      Stepwise N (inferValues Γ s placeholders bindings)
  | [], _ => by
    cases placeholders <;> exact stepwise_pure _
  | ⟨pattern, value⟩ :: bindings, names => by
    obtain ⟨first, rest⟩ := varNamesIn_append.mp names
    cases placeholders with
    | nil => exact stepwise_pure _
    | cons placeholder placeholders =>
      exact (stepwise_inferExpr _ value (varNamesIn_append.mp first).2).bind fun _ => (stepwise_equate _ _ _ _).bind fun _ =>
        stepwise_inferValues Γ _ placeholders bindings rest

end

theorem stepwise_inferGroup (Γ : Env) (recursive : Bool) {bindings : List (Binding Expr)}
    (names : VarNamesIn N (Expr.writtenBindings bindings)) : Stepwise N (inferGroup Γ recursive bindings) :=
  stepwise_groupOf Γ recursive names (stepwise_inferPlain Γ ∅ bindings names)
    fun Γ s placeholders => stepwise_inferValues Γ s placeholders bindings names

/-! ### Items -/

theorem changes_restart : Changes N D (modify fun st => { st with named := ∅, solved := ∅ }) :=
  fun _ => .single .restart

theorem changes_checkDefinition (span : Span) (definition : Option MeasureExpr) :
    Changes N D (checkDefinition span definition) := by
  cases definition with
  | none => exact changes_pure _
  | some m => exact (elementary_resolveMeasure span m).changes.bind fun _ => changes_pure _

theorem changes_inferItem (Γ : Env) {item : Item} (names : VarNamesIn N item.written)
    (declares : ∀ name ∈ item.declares, D name) :
    Changes N D (inferItem Γ item) := by
  refine changes_restart.bind fun _ => ?_
  cases item with
  | expr value =>
    exact (stepwise_inferExpr Γ value names).changes.bind fun _ => (changes_record (by simp)).bind fun _ => changes_pure _
  | letGroup recursive bindings => exact (stepwise_inferGroup Γ recursive names).changes.bind fun _ => changes_pure _
  | measure name definition span =>
    have declared : D name := declares name (List.mem_singleton_self name)
    have declare : Changes N D (modify fun st => { st with measures := st.measures.insert name }) :=
      fun _ => .single (.declare declared)
    exact (changes_checkDefinition span definition).bind fun _ => (changes_record (by simp)).bind fun _ =>
      declare.bind fun _ => changes_pure _

/-- Items are inferred in elementary changes. -/
theorem changes_inferItems (Γ : Env) {items : List Item} (names : ∀ item ∈ items, VarNamesIn N item.written)
    (declares : ∀ item ∈ items, ∀ name ∈ item.declares, D name) : Changes N D (inferItems Γ items) := by
  induction items generalizing Γ with
  | nil => exact changes_pure _
  | cons item items ih =>
    simp only [List.mem_cons, forall_eq_or_imp] at names declares
    exact (changes_inferItem Γ names.1 declares.1).bind fun Γ' => ih Γ' names.2 declares.2

end

/-! ### What no change takes back -/

section
variable {N D : String → Prop} {Γ Γ' : Env} {st st' : State} {item : Item} {items : List Item}

/-- Where no named variable may be read, none is read. -/
theorem unread_of_changes (changes : Relation.ReflTransGen (Change (fun _ => False) D) st st') : st.Unread st' := by
  induction changes with
  | refl => exact unread_self st
  | tail _ change ih =>
    refine ih.trans ?_
    cases change with
    | note unread => exact unread_append rfl unread
    | read _ known => exact known.elim
    | _ => exact unread_same rfl

/-- A program without named annotation variables is inferred without reading one. -/
theorem quiet_inferItems (Γ : Env) (items : List Item) (unnamed : ∀ item ∈ items, item.NoNamedVars) (st : State)
    (Γ' : Env) (st' : State) (run : inferItems Γ items st = .ok Γ' st') : st.Unread st' := by
  have names (item : Item) (member : item ∈ items) : VarNamesIn (fun _ => False) item.written := by
    intro w written name found
    rw [unnamed item member w written] at found
    cases found
  have changes := changes_inferItems (D := fun _ => True) Γ names (by simp) st
  rw [run] at changes
  exact unread_of_changes changes

/-- Where no measure may be declared, the measures stay as they are, and no variable is taken back. -/
theorem Changes.later {α : Type} {m : Infer α} (changes : Changes N (fun _ => False) m) (st : State) :
    st.Later (final (m st)) := by
  have path := changes st
  generalize final (m st) = st' at path
  induction path with
  | refl => exact ⟨Nat.le_refl _, rfl⟩
  | tail _ change ih =>
    cases change with
    | supply => exact ⟨Nat.le_succ_of_le ih.next, ih.measures⟩
    | declare declared => exact declared.elim
    | _ => exact ⟨ih.next, ih.measures⟩

/-- Items that declare no measure leave the measures as they are. -/
theorem inferItems_later (Γ : Env) (st : State) (plain : ∀ item ∈ items, item.declares = []) :
    st.Later (final (inferItems Γ items st)) := by
  have names (item : Item) (_ : item ∈ items) : VarNamesIn (fun _ => True) item.written := fun _ _ _ _ => trivial
  have declares (item : Item) (member : item ∈ items) (name : String) (found : name ∈ item.declares) : False := by
    rw [plain item member] at found
    cases found
  exact (changes_inferItems Γ names declares).later st

/-- An item that fails has declared no measure. -/
theorem inferItem_error {e : Failure} (run : inferItem Γ item st = .error e st') : st.Later st' := by
  have split : item.declares = [] ∨ ∃ name definition span, item = .measure name definition span := by
    cases item <;> simp [Item.declares]
  rcases split with plain | ⟨name, definition, span, rfl⟩
  · have changes : Changes (fun _ => True) (fun _ => False) (inferItem Γ item) :=
      changes_inferItem Γ (fun _ _ _ _ => trivial) (by simp [plain])
    have later := changes.later st
    rwa [run] at later
  · -- The definition is checked before the measure is declared, and nothing fails after that.
    rcases bind_error.mp run with run | ⟨_, st₁, run₁, run⟩
    · cases run
    rcases bind_error.mp run with run | ⟨_, st₂, _, run⟩
    · have later := (changes_checkDefinition (N := fun _ => True) span definition).later st₁
      rw [run] at later
      cases run₁
      exact ⟨later.next, later.measures⟩
    · cases run

end

end Infer

end LetPoly
