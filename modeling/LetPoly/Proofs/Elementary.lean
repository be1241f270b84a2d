import LetPoly.Proofs.PatternSoundness

/-!
Reading an annotation and matching a pattern are made of elementary steps (`elementary_resolve`,
`elementary_matchPattern`), which follows the program text once. What holds of the elementary steps then
holds of the whole, by induction on how it is made of them: no failure is about the names of values
(`Elementary.not_aboutNames`), and where no named annotation variable is read the outcome does not depend on
the item so far (`Elementary.blind`).
-/
namespace LetPoly

/-- The failure is about the name of a value: the name is not in scope, or bound twice. -/
def Failure.AboutNames : Failure → Prop
  | .illTyped e =>
    match e.cause with
    | .unboundVariable _ | .duplicateVariable _ => True
    | _ => False
  | .outOfVariables => False

/-- The state as at the start of an item. -/
def State.restarted (st : State) : State :=
  { st with named := ∅, solved := ∅ }

namespace Infer
open State

/-- The step is made of new variables, declared measures, entries of the journal, named variables in `N`,
    equations if `E` allows them, and failures that are not about the names of values. -/
inductive Elementary (N : String → Prop) (E : Prop) : {α : Type} → Infer α → Prop where
  | pure {α : Type} (a : α) : Elementary N E (pure a)
  | fail {α : Type} {span : Span} {cause : TypeError.Cause} : ¬ (Failure.illTyped { cause, span }).AboutNames →
    Elementary N E (fail span cause : Infer α)
  | record {events : List Event} : (∀ (name : String) (t : Ty), .resolved name t ∉ events) →
    Elementary N E (record events)
  | freshVar : Elementary N E freshVar
  | measure (span : Span) (name : String) (place : Span) : Elementary N E (resolveMeasure span (.named name place))
  | read {name : String} : N name → Elementary N E (resolveVar name)
  | equate (span : Span) (a b : Ty) (note : Option String) : E → Elementary N E (equate span a b note)
  | bind {α β : Type} {m : Infer α} {f : α → Infer β} : Elementary N E m → (∀ a, Elementary N E (f a)) →
    Elementary N E (m >>= f)

/-- All named variables of the annotations among them are in `N`. -/
def VarNamesIn (N : String → Prop) (written : List Written) : Prop :=
  ∀ w ∈ written, ∀ name ∈ w.varNames, N name

section
variable {N : String → Prop} {E : Prop} {α : Type}

@[simp] theorem varNamesIn_append {written others : List Written} :
    VarNamesIn N (written ++ others) ↔ VarNamesIn N written ∧ VarNamesIn N others := by
  simp [VarNamesIn, or_imp, forall_and]

@[simp] theorem varNamesIn_ascribed {a : TypeExpr} {others : List Written} :
    VarNamesIn N (.ascribed a :: others) ↔ (∀ name ∈ a.varNames, N name) ∧ VarNamesIn N others := by
  simp [VarNamesIn, Written.varNames]

/-! ### Variables, schemes and annotations -/

theorem elementary_fresh : Elementary N E fresh :=
  .bind .freshVar fun v => .pure (Ty.var v)

theorem elementary_freshList (n : Nat) : Elementary N E (freshList n) := by
  induction n with
  | zero => exact .pure []
  | succ n ih => exact .bind elementary_fresh fun t => .bind ih fun ts => .pure (t :: ts)

theorem elementary_renewal (vars : List TyVar) : Elementary N E (renewal vars) := by
  induction vars with
  | nil => exact .pure ∅
  | cons v vars ih => exact .bind elementary_fresh fun t => .bind ih fun s => .pure (Subst.single v t ∪ s)

theorem elementary_instantiate (σ : Scheme) : Elementary N E (instantiate σ) :=
  .bind (elementary_renewal σ.vars) fun _ => .pure _

theorem elementary_generalizeAll (Γ : Env) (named : List (String × Ty)) : Elementary N E (generalizeAll Γ named) := by
  refine .bind (.record ?_) fun _ => .pure _
  simp

theorem elementary_resolveMeasure (span : Span) (m : MeasureExpr) : Elementary N E (resolveMeasure span m) := by
  induction m with
  | one => exact .pure _
  | named name place => exact .measure span name place
  | product left right ihl ihr | quotient left right ihl ihr =>
    exact .bind ihl fun _ => .bind ihr fun _ => .pure _
  | power base exponent ih => exact .bind ih fun _ => .pure _

theorem elementary_literalType (span : Span) (value : Literal) : Elementary N E (literalType span value) := by
  cases value with
  | measured n m => exact .bind (elementary_resolveMeasure span m) fun _ => .pure _
  | _ => exact .pure _

theorem elementary_tupleType (span : Span) (ts : List Ty) : Elementary N E (tupleType span ts) := by
  unfold tupleType
  split
  · exact .pure _
  · exact .fail (by simp [Failure.AboutNames])

theorem elementary_measuredType (span : Span) (t : Ty) (m : MeasureExpr) : Elementary N E (measuredType span t m) := by
  unfold measuredType
  split
  · exact .bind (elementary_resolveMeasure span m) fun _ => .pure _
  · exact .fail (by simp [Failure.AboutNames])

mutual

theorem elementary_resolve : (a : TypeExpr) → (∀ name ∈ a.varNames, N name) → Elementary N E (resolve a)
  | .con name args span, names => by
    rw [resolve_con]
    split
    · exact .fail (by simp [Failure.AboutNames])
    · exact .pure _
    · exact .fail (by simp [Failure.AboutNames])
    · rename_i arg _
      have names : ∀ name ∈ arg.varNames, N name := by
        simpa [TypeExpr.varNames, TypeExpr.varNamesList] using names
      exact .bind (elementary_resolve arg names) fun _ => .pure _
    · exact .fail (by simp [Failure.AboutNames])
  | .var name span, names => .read (names name (by simp [TypeExpr.varNames]))
  | .func param result, names => by
    obtain ⟨first, second⟩ := List.forall_mem_append.mp names
    exact .bind (elementary_resolve param first) fun _ => .bind (elementary_resolve result second) fun _ => .pure _
  | .tuple elements span, names => .bind (elementary_resolveList elements names) fun ts => elementary_tupleType span ts
  | .measured base m span, names => .bind (elementary_resolve base names) fun t => elementary_measuredType span t m

theorem elementary_resolveList :
    (as : List TypeExpr) → (∀ name ∈ TypeExpr.varNamesList as, N name) → Elementary N E (resolveList as)
  | [], _ => .pure []
  | a :: as, names => by
    obtain ⟨first, rest⟩ := List.forall_mem_append.mp names
    exact .bind (elementary_resolve a first) fun _ => .bind (elementary_resolveList as rest) fun _ => .pure _

end

/-! ### Patterns -/

theorem elementary_checkArity (span : Span) (t : Ty) (n : Nat) : Elementary N E (checkArity span t n) := by
  unfold checkArity
  split
  · split
    · exact .pure _
    · exact .fail (by simp [Failure.AboutNames])
  · exact .pure _

theorem elementary_tupleShape (span : Span) (ts : List Ty) : Elementary N E (tupleShape span ts) := by
  unfold tupleShape
  split
  · exact .pure _
  · exact .fail (by simp [Failure.AboutNames])

mutual

/-- Matching a pattern is made of elementary steps, and reads the variables that the pattern names. -/
theorem elementary_matchPattern (t : Ty) : (p : Pattern) → VarNamesIn N p.written → Elementary N True (matchPattern t p)
  | .wild _, _ => .pure _
  | .ident _, _ => .pure _
  | .const value span, _ =>
    .bind (elementary_literalType span value) fun _ => .bind (.equate _ _ _ _ trivial) fun _ => .pure _
  | .tuple elements span, names =>
    .bind (elementary_checkArity _ _ _) fun _ => .bind (elementary_freshList _) fun vars =>
      .bind (elementary_tupleShape span vars) fun _ => .bind (.equate _ _ _ _ trivial) fun s =>
      elementary_matchPatterns s vars elements names
  | .list elements _, names =>
    .bind elementary_fresh fun _ => .bind (.equate _ _ _ _ trivial) fun s => elementary_matchPatterns s _ elements names
  | .cons head tail _, names =>
    have parts := varNamesIn_append.mp names
    .bind elementary_fresh fun _ => .bind (.equate _ _ _ _ trivial) fun _ =>
      .bind (elementary_matchPattern _ head parts.1) fun _ =>
      .bind (elementary_matchPattern _ tail parts.2) fun _ => .pure _
  | .some inner _, names =>
    .bind elementary_fresh fun _ => .bind (.equate _ _ _ _ trivial) fun _ =>
      .bind (elementary_matchPattern _ inner names) fun _ => .pure _
  | .none _, _ => .bind elementary_fresh fun _ => .bind (.equate _ _ _ _ trivial) fun _ => .pure _
  | .typed inner ascribed _, names =>
    have parts := varNamesIn_ascribed.mp names
    .bind (elementary_resolve ascribed parts.1) fun _ => .bind (.equate _ _ _ _ trivial) fun _ =>
      .bind (elementary_matchPattern _ inner parts.2) fun _ => .pure _

theorem elementary_matchPatterns (s : Subst) (ts : List Ty) :
    (ps : List Pattern) → VarNamesIn N (Pattern.writtenList ps) → Elementary N True (matchPatterns s ts ps)
  | [], _ => by
    cases ts <;> exact .pure _
  | p :: ps, names => by
    obtain ⟨first, rest⟩ := varNamesIn_append.mp names
    cases ts with
    | nil => exact .pure _
    | cons t ts =>
      exact .bind (elementary_matchPattern _ p first) fun _ =>
        .bind (elementary_matchPatterns _ ts ps rest) fun _ => .pure _

end

/-! ### Failures -/

theorem measure_run (span : Span) (name : String) (place : Span) (st : State) :
    resolveMeasure span (.named name place) st =
      if st.measures.contains name then .ok (.named name) st
      else .error (.illTyped { cause := .unboundMeasure name, span := place.orElse span }) st := by
  rw [resolveMeasure, get_bind]
  split <;> rfl

theorem checkDistinct_run (ids : List Ident) (st : State) :
    checkDistinct ids st =
      match duplicate? [] ids with
      | some id => .error (.illTyped { cause := .duplicateVariable id.name, span := id.span }) st
      | none => .ok () st := by
  unfold checkDistinct
  cases duplicate? [] ids <;> rfl

theorem resolveVar_error {name : String} {e : Failure} {st st' : State} (run : resolveVar name st = .error e st') :
    e = .outOfVariables := by
  rw [resolveVar, get_bind] at run
  cases known : st.named[name]? with
  | some v =>
    rw [known] at run
    cases run
  | none =>
    rw [known] at run
    rcases bind_error.mp run with run | ⟨v, st₁, _, run⟩
    · rw [freshVar_run] at run
      split at run <;> cases run
      rfl
    · cases run

/-- The errors of an equation are about types. -/
theorem not_aboutNames_ofUnify (span : Span) (e : UnifyError) (note : Option String) :
    ¬ (Failure.illTyped (match note with
      | some note => (TypeError.ofUnify span e).withNote note
      | none => TypeError.ofUnify span e)).AboutNames := by
  cases e <;> cases note <;> exact id

/-- No elementary step fails because of the name of a value. -/
theorem Elementary.not_aboutNames {m : Infer α} (elementary : Elementary N E m) {st st' : State} {e : Failure}
    (run : m st = .error e st') : ¬ e.AboutNames := by
  induction elementary generalizing st with
  | pure a => cases run
  | fail other =>
    cases run
    exact other
  | record _ => cases run
  | freshVar =>
    rw [freshVar_run] at run
    split at run <;> cases run
    exact id
  | equate span a b note _ =>
    rw [equate_run] at run
    cases solution : unify a b with
    | ok s => simp [solution] at run
    | error failure =>
      simp only [solution] at run
      cases run
      exact not_aboutNames_ofUnify span failure note
  | measure span name place =>
    rw [measure_run] at run
    split at run <;> cases run
    exact id
  | read _ =>
    rw [resolveVar_error run]
    exact id
  | bind _ _ first next =>
    rcases bind_error.mp run with run | ⟨a, st₁, _, run⟩
    · exact first run
    · exact next a run

/-! ### Outcomes -/

/-- The outcome, less what the state has of the item so far. -/
def forgetItem : EStateM.Result Failure State α → EStateM.Result Failure State α
  | .ok a st => .ok a st.restarted
  | .error e st => .error e st.restarted

/-- The outcome does not depend on what the state has of the item so far. -/
def Blind (m : Infer α) : Prop :=
  ∀ st : State, forgetItem (m st) = forgetItem (m st.restarted)

theorem Blind.bind {β : Type} {m : Infer α} {f : α → Infer β} (first : Blind m) (next : ∀ a, Blind (f a)) :
    Blind (m >>= f) := by
  intro st
  have same := first st
  show forgetItem (EStateM.bind m f st) = forgetItem (EStateM.bind m f st.restarted)
  unfold EStateM.bind
  cases run : m st <;> cases run' : m st.restarted <;> rw [run, run'] at same
  case ok.ok a st₁ b st₂ =>
    simp only [forgetItem, EStateM.Result.ok.injEq] at same
    obtain ⟨rfl, same⟩ := same
    exact (next a st₁).trans (same ▸ (next a st₂).symm)
  case error.error => simpa [forgetItem] using same
  all_goals cases same

theorem Blind.ok_iff {m : Infer α} (blind : Blind m) {st : State} {a : α} :
    (∃ st', m st = .ok a st') ↔ ∃ st', m st.restarted = .ok a st' := by
  have same := blind st
  cases run : m st <;> cases run' : m st.restarted <;> rw [run, run'] at same <;> simp_all [forgetItem]

theorem Blind.error_iff {m : Infer α} (blind : Blind m) {st : State} {e : Failure} :
    (∃ st', m st = .error e st') ↔ ∃ st', m st.restarted = .error e st' := by
  have same := blind st
  cases run : m st <;> cases run' : m st.restarted <;> rw [run, run'] at same <;> simp_all [forgetItem]

/-- Without named variables, elementary steps do not look at the item so far. -/
theorem Elementary.blind {m : Infer α} (elementary : Elementary (fun _ => False) True m) : Blind m := by
  induction elementary with
  | pure a => exact fun st => rfl
  | fail other => exact fun st => rfl
  | record _ => exact fun st => rfl
  | freshVar =>
    intro st
    rw [freshVar_run, freshVar_run]
    by_cases enough : st.next + 1 < varLimit
    · simp [restarted, enough, forgetItem]
    · simp [restarted, enough, forgetItem]
  | equate span a b note _ =>
    intro st
    rw [equate_run, equate_run]
    cases unify a b <;> rfl
  | measure span name place =>
    intro st
    rw [measure_run, measure_run]
    by_cases declared : st.measures.contains name
    · simp [restarted, declared, forgetItem]
    · simp [restarted, declared, forgetItem]
  | read known => exact known.elim
  | bind _ _ first next => exact first.bind next

end

end Infer

end LetPoly
