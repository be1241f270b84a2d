import LetPoly.Proofs.MeasuredTypes
import LetPoly.Proofs.PreludeNames
import LetPoly.Proofs.Scoping

/-!
Measures stand where they belong (`runInfer_measures`): every measure that a program writes is declared by an
earlier item, and in the types that are found a measure stands on a number type and has declared names.
Types with measures come from literals and annotations and are moved around by unification and
instantiation, none of which puts anything new below a measure. What is said of a step (`Measuring`) is
closed under sequencing, and follows the program text once.
-/
namespace LetPoly

/-- The declared measures and those in what is solved are in `N`. -/
structure State.MeasuredIn (N : String → Prop) (st : State) : Prop where
  declared : ∀ name ∈ st.measures, N name
  solved : st.solved.MeasuredIn N

namespace Infer

/-- The step succeeds only if the measures `names` are declared, with a result that has its measures in `N`,
    and reports as unbound only one among them that is not declared. -/
structure Measuring {α : Type} (N : String → Prop) (names : List String) (P : α → Prop) (m : Infer α) : Prop where
  ok : ∀ {a : α} {st st' : State}, st.MeasuredIn N → m st = .ok a st' →
    st'.MeasuredIn N ∧ st'.measures = st.measures ∧ (∀ name ∈ names, name ∈ st.measures) ∧ P a
  unbound : ∀ {name : String} {span : Span} {st st' : State}, st.MeasuredIn N →
    m st = .error (.illTyped ⟨.unboundMeasure name, span⟩) st' → name ∈ names ∧ name ∉ st.measures

section
variable {α β : Type} {N : String → Prop} {names others : List String} {P : α → Prop} {Q : β → Prop} {m : Infer α}
  {f : α → Infer β}

namespace Measuring

theorem bind (first : Measuring N names P m) (next : ∀ a, P a → Measuring N others Q (f a)) :
    Measuring N (names ++ others) Q (m >>= f) where
  ok start run := by
    obtain ⟨a, st₁, run₁, run₂⟩ := bind_ok.mp run
    obtain ⟨good, same, declared, result⟩ := first.ok start run₁
    obtain ⟨good, same', declared', result⟩ := (next a result).ok good run₂
    exact ⟨good, same'.trans same, List.forall_mem_append.mpr ⟨declared, same ▸ declared'⟩, result⟩
  unbound start run := by
    rcases bind_error.mp run with run | ⟨a, st₁, run₁, run⟩
    · obtain ⟨member, missing⟩ := first.unbound start run
      exact ⟨List.mem_append_left _ member, missing⟩
    · obtain ⟨good, same, _, result⟩ := first.ok start run₁
      obtain ⟨member, missing⟩ := (next a result).unbound good run
      exact ⟨List.mem_append_right _ member, same ▸ missing⟩

/-- A step that names no measure may go before. -/
theorem after (first : Measuring N [] P m) (next : ∀ a, P a → Measuring N names Q (f a)) :
    Measuring N names Q (m >>= f) :=
  first.bind next

/-- A step that names no measure may follow. -/
theorem before (first : Measuring N names P m) (next : ∀ a, P a → Measuring N [] Q (f a)) :
    Measuring N names Q (m >>= f) := by
  simpa using first.bind next

/-- The order in which measures are named does not matter. -/
theorem of_iff (first : Measuring N names P m) (same : ∀ name, name ∈ names ↔ name ∈ others) :
    Measuring N others P m where
  ok start run := by simpa only [same] using first.ok start run
  unbound start run := by simpa only [same] using first.unbound start run

end Measuring

theorem measuring_pure {a : α} (good : P a) : Measuring N [] P (pure a) where
  ok start run := by
    cases run
    exact ⟨start, rfl, by simp, good⟩
  unbound _ run := by cases run

theorem measuring_fail {span : Span} {cause : TypeError.Cause} (other : ∀ name, cause ≠ .unboundMeasure name) :
    Measuring N names P (fail span cause) where
  ok _ run := absurd run fail_ne_ok
  unbound _ run := by
    cases run
    exact absurd rfl (other _)

theorem measuring_record (events : List Event) : Measuring N [] (fun _ => True) (record events) where
  ok start run := by
    cases run
    exact ⟨⟨start.declared, start.solved⟩, rfl, by simp, trivial⟩
  unbound _ run := by cases run

theorem measuring_freshVar : Measuring N [] (fun _ => True) freshVar where
  ok start run := by
    obtain ⟨_, _, rfl⟩ := freshVar_ok run
    exact ⟨⟨start.declared, start.solved⟩, rfl, by simp, trivial⟩
  unbound _ run := by
    rw [freshVar_run] at run
    split at run <;> cases run

theorem measuring_fresh : Measuring N [] (Ty.MeasuredIn N) fresh :=
  measuring_freshVar.after fun v _ => measuring_pure (Ty.measuredIn_var v)

theorem measuring_freshList (n : Nat) :
    Measuring N [] (fun ts => ts.length = n ∧ ∀ t ∈ ts, t.MeasuredIn N) (freshList n) := by
  induction n with
  | zero => exact measuring_pure (by simp)
  | succ n ih => exact measuring_fresh.after fun t first => ih.after fun ts ⟨length, rest⟩ =>
      measuring_pure ⟨congrArg (· + 1) length, List.forall_mem_cons.mpr ⟨first, rest⟩⟩

theorem measuring_renewal (vars : List TyVar) : Measuring N [] (Subst.MeasuredIn N) (renewal vars) := by
  induction vars with
  | nil => exact measuring_pure Subst.measuredIn_empty
  | cons v vars ih =>
    refine measuring_fresh.after fun t first => ih.after fun s rest => measuring_pure ?_
    exact (Subst.measuredIn_single first).union rest

theorem measuring_instantiate {σ : Scheme} (inside : σ.ty.MeasuredIn N) :
    Measuring N [] (Ty.MeasuredIn N) (instantiate σ) :=
  (measuring_renewal σ.vars).after fun _ fresh => measuring_pure (fresh.apply inside)

theorem measuring_equate {a b : Ty} (first : a.MeasuredIn N) (second : b.MeasuredIn N) (span : Span)
    (note : Option String) : Measuring N [] (Subst.MeasuredIn N) (equate span a b note) where
  ok start run := by
    obtain ⟨solution, rfl⟩ := equate_ok run
    have solved := measuredIn_of_unify first second solution
    exact ⟨⟨start.declared, solved.after start.solved⟩, rfl, by simp, solved⟩
  unbound _ run := by
    rw [equate_run] at run
    cases solution : unify a b with
    | ok s => simp [solution] at run
    | error e =>
      simp only [solution] at run
      cases e <;> cases note <;> cases run

theorem measuring_checkDistinct (ids : List Ident) : Measuring N [] (fun _ => True) (checkDistinct ids) := by
  unfold checkDistinct
  split
  · exact measuring_fail (by simp)
  · exact measuring_pure trivial

/-! ### Literals and annotations -/

theorem measuring_resolveMeasure (span : Span) (m : MeasureExpr) :
    Measuring N m.names (fun r => ∀ name ∈ r.names, N name) (resolveMeasure span m) := by
  induction m with
  | one => exact measuring_pure (by simp [Measure.names])
  | named name place =>
    constructor
    · intro r st st' start run
      rw [measure_run] at run
      split at run <;> cases run
      rename_i known
      have known : name ∈ st.measures := Std.ExtTreeSet.contains_iff_mem.mp known
      simpa [MeasureExpr.names, Measure.names, known, start] using start.declared name known
    · intro other span st st' start run
      rw [measure_run] at run
      split at run <;> cases run
      rename_i unknown
      simpa [MeasureExpr.names] using unknown
  | product left right ihl ihr | quotient left right ihl ihr =>
    exact ihl.bind fun _ first => ihr.before fun _ second =>
      measuring_pure (List.forall_mem_append.mpr ⟨first, second⟩)
  | power base exponent ih => exact ih.before fun _ inside => measuring_pure inside

theorem numberType_number (value : Number) : numberType value = .int ∨ numberType value = .float := by
  cases value
  · exact .inl rfl
  · exact .inr rfl

theorem measuring_literalType (span : Span) (value : Literal) :
    Measuring N value.measureNames (Ty.MeasuredIn N) (literalType span value) := by
  cases value with
  | measured value m =>
    exact (measuring_resolveMeasure span m).before fun _ names =>
      measuring_pure (Ty.measuredIn_withMeasure (numberType_number value) names)
  | number value => cases value <;> exact measuring_pure (Ty.measuredIn_prim _)
  | _ => exact measuring_pure (Ty.measuredIn_prim _)

theorem measuring_tupleType (span : Span) {ts : List Ty} (inside : ∀ t ∈ ts, t.MeasuredIn N) :
    Measuring N [] (Ty.MeasuredIn N) (tupleType span ts) := by
  unfold tupleType
  split
  · exact measuring_pure (Ty.measuredIn_of_tupleOf? ‹_› inside)
  · exact measuring_fail (by simp)

theorem measuring_measuredType (span : Span) (t : Ty) (m : MeasureExpr) :
    Measuring N m.names (Ty.MeasuredIn N) (measuredType span t m) := by
  unfold measuredType
  split
  · exact (measuring_resolveMeasure span m).before fun _ names =>
      measuring_pure (Ty.measuredIn_withMeasure ‹_› names)
  · exact measuring_fail (by simp)

/-- A named variable stands for a part of what is solved. -/
theorem measuring_resolveVar (name : String) : Measuring N [] (Ty.MeasuredIn N) (resolveVar name) where
  ok start run := by
    rcases resolveVar_ok run with ⟨v, known, rfl, rfl⟩ | ⟨unknown, rfl, rfl⟩
    · exact ⟨⟨start.declared, start.solved⟩, rfl, by simp, start.solved v⟩
    · exact ⟨⟨start.declared, start.solved⟩, rfl, by simp, Ty.measuredIn_var _⟩
  unbound _ run := by cases resolveVar_error run

mutual

theorem measuring_resolve : (a : TypeExpr) → Measuring N a.measureNames (Ty.MeasuredIn N) (resolve a)
  | .con name args span => by
    rw [resolve_con]
    split
    · exact measuring_fail (by simp)
    · rw [TypeExpr.measureNames, TypeExpr.measureNamesList]
      exact measuring_pure (Ty.measuredIn_prim _)
    · exact measuring_fail (by simp)
    · rename_i w arg known
      rw [TypeExpr.measureNames, TypeExpr.measureNamesList, TypeExpr.measureNamesList, List.append_nil]
      refine (measuring_resolve arg).before fun t inside => measuring_pure ?_
      rcases typeName?_wrapper.mp known with ⟨_, rfl⟩ | ⟨_, rfl⟩
      · exact Ty.measuredIn_list.mpr inside
      · exact Ty.measuredIn_option.mpr inside
    · exact measuring_fail (by simp)
  | .var name span => by
    rw [TypeExpr.measureNames, resolve]
    exact measuring_resolveVar name
  | .func param result => by
    rw [TypeExpr.measureNames, resolve]
    exact (measuring_resolve param).bind fun _ first => (measuring_resolve result).before fun _ second =>
      measuring_pure (Ty.measuredIn_func.mpr ⟨first, second⟩)
  | .tuple elements span => by
    rw [TypeExpr.measureNames, resolve]
    exact (measuring_resolveList elements).before fun _ inside => measuring_tupleType span inside
  | .measured base m span => by
    rw [TypeExpr.measureNames, resolve]
    exact (measuring_resolve base).bind fun t _ => measuring_measuredType span t m

theorem measuring_resolveList : (as : List TypeExpr) →
    Measuring N (TypeExpr.measureNamesList as) (fun ts => ∀ t ∈ ts, t.MeasuredIn N) (resolveList as)
  | [] => by
    rw [TypeExpr.measureNamesList, resolveList]
    exact measuring_pure (by simp)
  | a :: as => by
    rw [TypeExpr.measureNamesList, resolveList]
    exact (measuring_resolve a).bind fun _ first => (measuring_resolveList as).before fun _ rest =>
      measuring_pure (List.forall_mem_cons.mpr ⟨first, rest⟩)

end

/-! ### Patterns -/

/-- The measures that literals and annotations name. -/
abbrev writtenMeasures (written : List Written) : List String :=
  written.flatMap Written.measureNames

theorem measuring_checkArity (span : Span) (t : Ty) (n : Nat) :
    Measuring N [] (fun _ => True) (checkArity span t n) := by
  unfold checkArity
  split
  · split
    · exact measuring_pure trivial
    · exact measuring_fail (by simp)
  · exact measuring_pure trivial

theorem measuring_tupleShape (span : Span) {ts : List Ty} (inside : ∀ t ∈ ts, t.MeasuredIn N) :
    Measuring N [] (Ty.MeasuredIn N) (tupleShape span ts) := by
  unfold tupleShape
  split
  · exact measuring_pure (Ty.measuredIn_of_tupleOf? ‹_› inside)
  · exact measuring_fail (by simp)

/-- What is solved and the types of names have their measures in `N`. -/
abbrev MatchMeasured (N : String → Prop) (result : Subst × List (String × Ty)) : Prop :=
  result.1.MeasuredIn N ∧ NamedMeasuredIn N result.2

mutual

theorem measuring_matchPattern {t : Ty} (inside : t.MeasuredIn N) : (p : Pattern) →
    Measuring N (writtenMeasures p.written) (MatchMeasured N) (matchPattern t p)
  | .wild _ => by
    rw [Pattern.written, matchPattern]
    exact measuring_pure ⟨Subst.measuredIn_empty, by simp [NamedMeasuredIn]⟩
  | .ident _ => by
    rw [Pattern.written, matchPattern]
    exact measuring_pure ⟨Subst.measuredIn_empty, by simp [NamedMeasuredIn, inside]⟩
  | .const value span => by
    rw [Pattern.written, matchPattern]
    simp only [writtenMeasures, List.flatMap_cons, List.flatMap_nil, List.append_nil, Written.measureNames]
    refine (measuring_literalType span value).before fun found good => ?_
    exact (measuring_equate inside good span _).after fun s solved => measuring_pure ⟨solved, by simp [NamedMeasuredIn]⟩
  | .tuple elements span => by
    rw [Pattern.written, matchPattern]
    refine (measuring_checkArity span t _).after fun _ _ => (measuring_freshList _).after fun vars fresh => ?_
    refine (measuring_tupleShape span fresh.2).after fun shape good => ?_
    exact (measuring_equate inside good span _).after fun s solved =>
      measuring_matchPatterns solved fresh.2 elements fresh.1
  | .list elements span => by
    rw [Pattern.written, matchPattern]
    refine measuring_fresh.after fun elem fresh => ?_
    refine (measuring_equate inside (Ty.measuredIn_list.mpr fresh) span _).after fun s solved => ?_
    exact measuring_matchPatterns solved (by simp [fresh]) elements (List.length_map _)
  | .cons head tail span => by
    rw [Pattern.written, matchPattern, writtenMeasures, List.flatMap_append]
    refine measuring_fresh.after fun elem fresh => ?_
    refine (measuring_equate inside (Ty.measuredIn_list.mpr fresh) span _).after fun s₁ solved₁ => ?_
    refine (measuring_matchPattern (solved₁.apply fresh) head).bind fun (s₂, heads) ⟨solved₂, headsGood⟩ => ?_
    have solved := solved₂.after solved₁
    refine (measuring_matchPattern (solved.apply (Ty.measuredIn_list.mpr fresh)) tail).before
      fun (s₃, tails) ⟨solved₃, tailsGood⟩ => measuring_pure ?_
    have solved := solved₃.after solved
    exact ⟨solved, solved.applyNamed (namedMeasuredIn_append.mpr ⟨headsGood, tailsGood⟩)⟩
  | .some inner span => by
    rw [Pattern.written, matchPattern]
    refine measuring_fresh.after fun elem fresh => ?_
    refine (measuring_equate inside (Ty.measuredIn_option.mpr fresh) span _).after fun s₁ solved₁ => ?_
    refine (measuring_matchPattern (solved₁.apply fresh) inner).before fun (s₂, named) ⟨solved₂, good⟩ => ?_
    have solved := solved₂.after solved₁
    exact measuring_pure ⟨solved, solved.applyNamed good⟩
  | .none span => by
    rw [Pattern.written, matchPattern]
    refine measuring_fresh.after fun elem fresh => ?_
    exact (measuring_equate inside (Ty.measuredIn_option.mpr fresh) span _).after fun s solved =>
      measuring_pure ⟨solved, by simp [NamedMeasuredIn]⟩
  | .typed inner ascribed span => by
    rw [Pattern.written, matchPattern, writtenMeasures, List.flatMap_cons]
    refine (measuring_resolve ascribed).bind fun annotated good => ?_
    refine (measuring_equate inside good span _).after fun s₁ solved₁ => ?_
    refine (measuring_matchPattern (solved₁.apply good) inner).before fun (s₂, named) ⟨solved₂, names⟩ => ?_
    have solved := solved₂.after solved₁
    exact measuring_pure ⟨solved, solved.applyNamed names⟩

theorem measuring_matchPatterns {s : Subst} {ts : List Ty} (solved : s.MeasuredIn N)
    (inside : ∀ t ∈ ts, t.MeasuredIn N) :
    (ps : List Pattern) → ts.length = ps.length →
      Measuring N (writtenMeasures (Pattern.writtenList ps)) (MatchMeasured N) (matchPatterns s ts ps)
  | [], length => by
    rw [List.length_eq_zero_iff.mp length, Pattern.writtenList, matchPatterns]
    · exact measuring_pure ⟨solved, by simp [NamedMeasuredIn]⟩
    · simp
  | p :: ps, length => by
    match ts with
    | t :: ts =>
      obtain ⟨first, rest⟩ := List.forall_mem_cons.mp inside
      rw [Pattern.writtenList, matchPatterns, writtenMeasures, List.flatMap_append]
      refine (measuring_matchPattern (solved.apply first) p).bind fun (s₁, named) ⟨solved₁, good⟩ => ?_
      refine (measuring_matchPatterns (solved₁.after solved) rest ps (Nat.succ.inj length)).before
        fun (s₂, others) ⟨solved₂, goods⟩ => measuring_pure ?_
      exact ⟨solved₂, namedMeasuredIn_append.mpr ⟨solved₂.applyNamed good, goods⟩⟩

end

theorem measuring_inferPattern {t : Ty} (inside : t.MeasuredIn N) (p : Pattern) :
    Measuring N (writtenMeasures p.written) (MatchMeasured N) (inferPattern t p) :=
  (measuring_checkDistinct _).after fun _ _ => measuring_matchPattern inside p

/-! ### Groups -/

/-- What is solved, the placeholders and the types of names have their measures in `N`. -/
abbrev PlaceholdersMeasured (N : String → Prop) (result : Subst × List Ty × List (String × Ty)) : Prop :=
  result.1.MeasuredIn N ∧ (∀ t ∈ result.2.1, t.MeasuredIn N) ∧ NamedMeasuredIn N result.2.2

theorem measuring_inferPlaceholders {s : Subst} (solved : s.MeasuredIn N) (ps : List Pattern) :
    Measuring N (writtenMeasures (ps.flatMap Pattern.written))
      (fun result => PlaceholdersMeasured N result ∧ result.2.1.length = ps.length) (inferPlaceholders s ps) := by
  induction ps generalizing s with
  | nil => exact measuring_pure ⟨⟨solved, by simp, by simp [NamedMeasuredIn]⟩, rfl⟩
  | cons p ps ih =>
    rw [List.flatMap_cons, inferPlaceholders, writtenMeasures, List.flatMap_append]
    refine measuring_fresh.after fun t fresh => ?_
    refine (measuring_inferPattern fresh p).bind fun first found => ?_
    refine (ih (found.1.after solved)).before fun rest others => measuring_pure ?_
    obtain ⟨⟨solved₂, later, goods⟩, length⟩ := others
    exact ⟨⟨solved₂, List.forall_mem_cons.mpr ⟨fresh, later⟩, namedMeasuredIn_append.mpr ⟨found.2, goods⟩⟩,
      congrArg (· + 1) length⟩

theorem mem_writtenBindings {w : Written} {bindings : List (Binding Expr)} :
    w ∈ Expr.writtenBindings bindings ↔ ∃ b ∈ bindings, w ∈ b.pattern.written ∨ w ∈ b.value.written := by
  induction bindings with
  | nil => simp [Expr.writtenBindings]
  | cons b bindings ih =>
    obtain ⟨pattern, value⟩ := b
    simp [Expr.writtenBindings, ih, or_assoc]

/-- What is solved and the environment have their measures in `N`. -/
abbrev GroupMeasured (N : String → Prop) (result : Subst × Env) : Prop :=
  result.1.MeasuredIn N ∧ result.2.MeasuredIn N

theorem measuring_inferGroup {Γ : Env} {recursive : Bool} {bindings : List (Binding Expr)} (inside : Γ.MeasuredIn N)
    (plain : Measuring N (writtenMeasures (Expr.writtenBindings bindings)) (MatchMeasured N) (inferPlain Γ ∅ bindings))
    (values : ∀ {Δ : Env} {s : Subst} {placeholders : List Ty}, Δ.MeasuredIn N → s.MeasuredIn N →
      (∀ t ∈ placeholders, t.MeasuredIn N) → placeholders.length = bindings.length →
      Measuring N (writtenMeasures (bindings.flatMap fun b => b.value.written)) (Subst.MeasuredIn N)
        (inferValues Δ s placeholders bindings)) :
    Measuring N (writtenMeasures (Expr.writtenBindings bindings)) (GroupMeasured N)
      (inferGroup Γ recursive bindings) := by
  have types : Measuring N (writtenMeasures (Expr.writtenBindings bindings)) (MatchMeasured N)
      (groupTypes Γ recursive bindings) := by
    refine (measuring_checkDistinct _).after fun _ _ => ?_
    cases recursive with
    | false => exact plain
    | true =>
      -- All patterns are inferred before all values.
      refine Measuring.of_iff (?_ : Measuring N (writtenMeasures ((bindings.map Binding.pattern).flatMap Pattern.written) ++
        writtenMeasures (bindings.flatMap fun b => b.value.written)) _ _) fun name => ?_
      · refine (measuring_inferPlaceholders Subst.measuredIn_empty _).bind
          fun (s₁, placeholders, named) ⟨⟨solved₁, fresh, good⟩, length⟩ => ?_
        refine (values (inside.extendMono good) solved₁ fresh (by simpa using length)).before
          fun s solved => measuring_pure ⟨solved, good⟩
      · simp only [List.mem_append, List.mem_flatMap, mem_writtenBindings, List.mem_map]
        grind
  rw [inferGroup_eq]
  refine types.before fun (s, named) ⟨solved, good⟩ => ?_
  refine Measuring.after (P := Env.MeasuredIn N) ?_ fun Γ' inside' => measuring_pure ⟨solved, inside'⟩
  refine (measuring_record _).after fun _ _ => measuring_pure ?_
  exact (inside.subst solved).bodyEnv (solved.applyNamed good)

/-! ### Expressions -/

/-- What is solved and the type have their measures in `N`. -/
abbrev ExprMeasured (N : String → Prop) (result : Subst × Ty) : Prop :=
  result.1.MeasuredIn N ∧ result.2.MeasuredIn N

mutual

/-- An expression names the measures of its literals and annotations, and nothing else brings measures into
    the types that are found. -/
theorem measuring_inferExpr {Γ : Env} (inside : Γ.MeasuredIn N) :
    (e : Expr) → Measuring N (writtenMeasures e.written) (ExprMeasured N) (inferExpr Γ e)
  | .const value span => by
    rw [Expr.written, inferExpr]
    simp only [writtenMeasures, List.flatMap_cons, List.flatMap_nil, List.append_nil, Written.measureNames]
    exact (measuring_literalType span value).before fun _ good => measuring_pure ⟨Subst.measuredIn_empty, good⟩
  | .ident id => by
    rw [Expr.written]
    cases look : Γ[id.name]? with
    | some σ =>
      rw [inferExpr_ident look]
      exact (measuring_instantiate (inside _ σ look)).after fun _ good => measuring_pure ⟨Subst.measuredIn_empty, good⟩
    | none =>
      rw [inferExpr.eq_def]
      simp only [look]
      exact measuring_fail (by simp)
  | .lambda param body _ => by
    rw [Expr.written, inferExpr, writtenMeasures, List.flatMap_append]
    refine measuring_fresh.after fun t fresh => ?_
    refine (measuring_inferPattern fresh param).bind fun (s₁, named) ⟨solved₁, good⟩ => ?_
    refine (measuring_inferExpr ((inside.subst solved₁).extendMono good) body).before
      fun (s₂, result) ⟨solved₂, result⟩ => ?_
    have solved := solved₂.after solved₁
    exact measuring_pure ⟨solved, Ty.measuredIn_func.mpr ⟨solved.apply fresh, result⟩⟩
  | .apply func arg span => by
    rw [Expr.written, inferExpr, writtenMeasures, List.flatMap_append]
    refine (measuring_inferExpr inside func).bind fun (s₁, funcType) ⟨solved₁, funcGood⟩ => ?_
    refine (measuring_inferExpr (inside.subst solved₁) arg).before fun (s₂, argType) ⟨solved₂, argGood⟩ => ?_
    refine measuring_fresh.after fun result fresh => ?_
    refine (measuring_equate (solved₂.apply funcGood) (Ty.measuredIn_func.mpr ⟨argGood, fresh⟩) span _).after
      fun s₃ solved₃ => ?_
    have solved := (solved₃.after solved₂).after solved₁
    exact measuring_pure ⟨solved, solved.apply fresh⟩
  | .letIn recursive bindings body _ => by
    rw [Expr.written, inferExpr_letIn, writtenMeasures, List.flatMap_append]
    have group : Measuring N (writtenMeasures (Expr.writtenBindings bindings)) (GroupMeasured N)
        (inferGroup Γ recursive bindings) :=
      measuring_inferGroup inside (measuring_inferPlain inside Subst.measuredIn_empty bindings)
        fun inside solved fresh => measuring_inferValues inside solved fresh bindings
    refine group.bind fun (s₁, Γ') ⟨solved₁, inside'⟩ => ?_
    exact (measuring_inferExpr inside' body).before fun (s₂, t) ⟨solved₂, good⟩ =>
      measuring_pure ⟨solved₂.after solved₁, good⟩
  | .ifThenElse condition yes no span => by
    rw [Expr.written, inferExpr, writtenMeasures, List.flatMap_append, List.flatMap_append, List.append_assoc]
    refine (measuring_inferExpr inside condition).bind fun (s₁, _) ⟨solved₁, good⟩ => ?_
    refine (measuring_equate (Ty.measuredIn_prim _) good _ _).after fun s₂ solved₂ => ?_
    have solved := solved₂.after solved₁
    refine (measuring_inferExpr (inside.subst solved) yes).bind fun (s₃, _) ⟨solved₃, yesGood⟩ => ?_
    have solved := solved₃.after solved
    refine (measuring_inferElse (inside.subst solved) no).before fun (s₄, _) ⟨solved₄, noGood⟩ => ?_
    have solved := solved₄.after solved
    refine (measuring_equate (solved.apply yesGood) (solved.apply noGood) _ _).after fun s₅ solved₅ => ?_
    have solved := solved₅.after solved
    exact measuring_pure ⟨solved, solved.apply yesGood⟩
  | .matchWith scrutinee rules _ => by
    rw [Expr.written, inferExpr, writtenMeasures, List.flatMap_append]
    refine (measuring_inferExpr inside scrutinee).bind fun (s₁, input) ⟨solved₁, good⟩ => ?_
    refine measuring_fresh.after fun result fresh => ?_
    exact (measuring_inferRules inside good fresh solved₁ rules).before fun _ solved =>
      measuring_pure ⟨solved, solved.apply fresh⟩
  | .function rules _ => by
    rw [Expr.written, inferExpr]
    refine measuring_fresh.after fun input fresh => measuring_fresh.after fun result fresh' => ?_
    exact (measuring_inferRules inside fresh fresh' Subst.measuredIn_empty rules).before fun _ solved =>
      measuring_pure ⟨solved, Ty.measuredIn_func.mpr ⟨solved.apply fresh, solved.apply fresh'⟩⟩
  | .tuple elements span => by
    rw [Expr.written, inferExpr]
    refine (measuring_inferSequence inside Subst.measuredIn_empty elements).before fun (s, ts) ⟨solved, goods⟩ => ?_
    exact (measuring_tupleType span goods).after fun _ good => measuring_pure ⟨solved, good⟩
  | .list elements _ => by
    rw [Expr.written, inferExpr]
    refine measuring_fresh.after fun elem fresh => ?_
    exact (measuring_inferElements inside fresh Subst.measuredIn_empty elements).before fun _ solved =>
      measuring_pure ⟨solved, Ty.measuredIn_list.mpr (solved.apply fresh)⟩
  | .cons head tail span => by
    rw [Expr.written, inferExpr, writtenMeasures, List.flatMap_append]
    refine (measuring_inferExpr inside head).bind fun (s₁, headType) ⟨solved₁, headGood⟩ => ?_
    refine (measuring_inferExpr (inside.subst solved₁) tail).before fun (s₂, tailType) ⟨solved₂, tailGood⟩ => ?_
    have expected := Ty.measuredIn_list.mpr (solved₂.apply headGood)
    refine (measuring_equate expected tailGood span _).after fun s₃ solved₃ => ?_
    have solved := (solved₃.after solved₂).after solved₁
    exact measuring_pure ⟨solved, solved.apply expected⟩
  | .some value _ => by
    rw [Expr.written, inferExpr]
    exact (measuring_inferExpr inside value).before fun (s, t) ⟨solved, good⟩ =>
      measuring_pure ⟨solved, Ty.measuredIn_option.mpr good⟩
  | .none _ => by
    rw [Expr.written, inferExpr]
    exact measuring_fresh.after fun _ fresh => measuring_pure ⟨Subst.measuredIn_empty, Ty.measuredIn_option.mpr fresh⟩
  | .typed value ascribed span => by
    -- The annotation is read after the value.
    rw [Expr.written, inferExpr, writtenMeasures, List.flatMap_cons]
    refine Measuring.of_iff (?_ : Measuring N (writtenMeasures value.written ++ ascribed.measureNames) _ _)
      fun name => by simp only [List.mem_append, Written.measureNames, or_comm]
    refine (measuring_inferExpr inside value).bind fun (s₁, t) ⟨solved₁, good⟩ => ?_
    refine (measuring_resolve ascribed).before fun annotated known => ?_
    refine (measuring_equate known good span _).after fun s₂ solved₂ => ?_
    have solved := solved₂.after solved₁
    exact measuring_pure ⟨solved, solved.apply known⟩

theorem measuring_inferElse {Γ : Env} (inside : Γ.MeasuredIn N) : (no : Option Expr) →
    Measuring N (writtenMeasures (Expr.writtenOption no)) (ExprMeasured N) (inferElse Γ no)
  | some e => by
    rw [Expr.writtenOption, inferElse]
    exact measuring_inferExpr inside e
  | none => by
    rw [Expr.writtenOption, inferElse]
    exact measuring_pure ⟨Subst.measuredIn_empty, Ty.measuredIn_prim _⟩

theorem measuring_inferGuard {Γ : Env} (inside : Γ.MeasuredIn N) : (guard : Option Expr) →
    Measuring N (writtenMeasures (Expr.writtenOption guard)) (Subst.MeasuredIn N) (inferGuard Γ guard)
  | some e => by
    rw [Expr.writtenOption, inferGuard]
    refine (measuring_inferExpr inside e).before fun (s₁, t) ⟨solved₁, good⟩ => ?_
    exact (measuring_equate (Ty.measuredIn_prim _) good _ _).after
      fun s₂ solved₂ => measuring_pure (solved₂.after solved₁)
  | none => by
    rw [Expr.writtenOption, inferGuard]
    exact measuring_pure Subst.measuredIn_empty

theorem measuring_inferRules {Γ : Env} {input result : Ty} {s : Subst} (inside : Γ.MeasuredIn N)
    (inputGood : input.MeasuredIn N) (resultGood : result.MeasuredIn N) (solved : s.MeasuredIn N) :
    (rules : List (Rule Expr)) →
      Measuring N (writtenMeasures (Expr.writtenRules rules)) (Subst.MeasuredIn N) (inferRules Γ input result s rules)
  | [] => by
    rw [Expr.writtenRules, inferRules]
    exact measuring_pure solved
  | ⟨pattern, guard, body⟩ :: rules => by
    rw [Expr.writtenRules, inferRules]
    simp only [writtenMeasures, List.flatMap_append, List.append_assoc]
    refine (measuring_inferPattern (solved.apply inputGood) pattern).bind fun (s₁, named) ⟨solved₁, good⟩ => ?_
    have solved := solved₁.after solved
    have inside' := (inside.subst solved).extendMono good
    refine (measuring_inferGuard inside' guard).bind fun s₂ solved₂ => ?_
    have solved := solved₂.after solved
    refine (measuring_inferExpr (inside'.subst solved) body).bind fun (s₃, t) ⟨solved₃, bodyGood⟩ => ?_
    have solved := solved₃.after solved
    refine (measuring_equate (solved.apply resultGood) (solved.apply bodyGood) _ _).after fun s₄ solved₄ => ?_
    exact measuring_inferRules inside inputGood resultGood (solved₄.after solved) rules

theorem measuring_inferElements {Γ : Env} {elem : Ty} {s : Subst} (inside : Γ.MeasuredIn N)
    (elemGood : elem.MeasuredIn N) (solved : s.MeasuredIn N) : (es : List Expr) →
      Measuring N (writtenMeasures (Expr.writtenList es)) (Subst.MeasuredIn N) (inferElements Γ elem s es)
  | [] => by
    rw [Expr.writtenList, inferElements]
    exact measuring_pure solved
  | e :: es => by
    rw [Expr.writtenList, inferElements, writtenMeasures, List.flatMap_append]
    refine (measuring_inferExpr (inside.subst solved) e).bind fun (s₁, t) ⟨solved₁, good⟩ => ?_
    have solved := solved₁.after solved
    refine (measuring_equate (solved.apply elemGood) good _ _).after fun s₂ solved₂ => ?_
    exact measuring_inferElements inside elemGood (solved₂.after solved) es

theorem measuring_inferSequence {Γ : Env} {s : Subst} (inside : Γ.MeasuredIn N) (solved : s.MeasuredIn N) :
    (es : List Expr) → Measuring N (writtenMeasures (Expr.writtenList es))
      (fun result => result.1.MeasuredIn N ∧ ∀ t ∈ result.2, t.MeasuredIn N) (inferSequence Γ s es)
  | [] => by
    rw [Expr.writtenList, inferSequence]
    exact measuring_pure ⟨solved, by simp⟩
  | e :: es => by
    rw [Expr.writtenList, inferSequence, writtenMeasures, List.flatMap_append]
    refine (measuring_inferExpr (inside.subst solved) e).bind fun (s₁, t) ⟨solved₁, good⟩ => ?_
    exact (measuring_inferSequence inside (solved₁.after solved) es).before fun (s₂, ts) ⟨solved₂, goods⟩ =>
      measuring_pure ⟨solved₂, List.forall_mem_cons.mpr ⟨solved₂.apply good, goods⟩⟩

theorem measuring_inferPlain {Γ : Env} {s : Subst} (inside : Γ.MeasuredIn N) (solved : s.MeasuredIn N) :
    (bindings : List (Binding Expr)) →
      Measuring N (writtenMeasures (Expr.writtenBindings bindings)) (MatchMeasured N) (inferPlain Γ s bindings)
  | [] => by
    rw [Expr.writtenBindings, inferPlain]
    exact measuring_pure ⟨solved, by simp [NamedMeasuredIn]⟩
  | ⟨pattern, value⟩ :: bindings => by
    -- The pattern is inferred after the value.
    rw [Expr.writtenBindings, inferPlain]
    refine Measuring.of_iff (?_ : Measuring N (writtenMeasures value.written ++ (writtenMeasures pattern.written ++
      writtenMeasures (Expr.writtenBindings bindings))) _ _) fun name => ?_
    · refine (measuring_inferExpr (inside.subst solved) value).bind fun (s₁, t) ⟨solved₁, good⟩ => ?_
      have solved := solved₁.after solved
      refine (measuring_inferPattern good pattern).bind fun (s₂, named) ⟨solved₂, names⟩ => ?_
      exact (measuring_inferPlain inside (solved₂.after solved) bindings).before fun (s₃, others) ⟨solved₃, rest⟩ =>
        measuring_pure ⟨solved₃, namedMeasuredIn_append.mpr ⟨names, rest⟩⟩
    · simp only [writtenMeasures, List.flatMap_append, List.mem_append]
      tauto

theorem measuring_inferValues {Γ : Env} {s : Subst} {placeholders : List Ty} (inside : Γ.MeasuredIn N)
    (solved : s.MeasuredIn N) (fresh : ∀ t ∈ placeholders, t.MeasuredIn N) : (bindings : List (Binding Expr)) →
      placeholders.length = bindings.length →
      Measuring N (writtenMeasures (bindings.flatMap fun b => b.value.written)) (Subst.MeasuredIn N)
        (inferValues Γ s placeholders bindings)
  | [], length => by
    rw [List.length_eq_zero_iff.mp length, List.flatMap_nil, inferValues]
    · exact measuring_pure solved
    · simp
  | ⟨pattern, value⟩ :: bindings, length => by
    match placeholders with
    | placeholder :: placeholders =>
      obtain ⟨first, rest⟩ := List.forall_mem_cons.mp fresh
      rw [List.flatMap_cons, inferValues, writtenMeasures, List.flatMap_append]
      refine (measuring_inferExpr (inside.subst solved) value).bind fun (s₁, t) ⟨solved₁, good⟩ => ?_
      have solved := solved₁.after solved
      refine (measuring_equate (solved.apply first) (solved.apply good) _ _).after fun s₂ solved₂ => ?_
      exact measuring_inferValues inside (solved₂.after solved) rest bindings (Nat.succ.inj length)

end

/-! ### Items and programs -/

theorem measuring_checkDefinition (span : Span) (definition : Option MeasureExpr) :
    Measuring N (definition.elim [] MeasureExpr.names) (fun _ => True) (checkDefinition span definition) := by
  cases definition with
  | none => exact measuring_pure trivial
  | some m => exact (measuring_resolveMeasure span m).before fun _ _ => measuring_pure trivial

variable {Γ Γ' : Env} {item : Item} {items : List Item} {st st' : State}

theorem measuredIn_restarted (declared : ∀ name ∈ st.measures, N name) : st.restarted.MeasuredIn N :=
  ⟨declared, Subst.measuredIn_empty⟩

theorem measuring_exprItem (inside : Γ.MeasuredIn N) (value : Expr) :
    Measuring N (writtenMeasures value.written) (Env.MeasuredIn N) (do
      let (s, t) ← inferExpr Γ value
      record [.typed t]
      return Γ.subst s) :=
  (measuring_inferExpr inside value).before fun (_, _) ⟨solved, _⟩ =>
    (measuring_record _).after fun _ _ => measuring_pure (inside.subst solved)

theorem measuring_groupItem (inside : Γ.MeasuredIn N) (recursive : Bool) (bindings : List (Binding Expr)) :
    Measuring N (writtenMeasures (Expr.writtenBindings bindings)) (Env.MeasuredIn N) (do
      let (_, Γ') ← inferGroup Γ recursive bindings
      return Γ') := by
  have group : Measuring N (writtenMeasures (Expr.writtenBindings bindings)) (GroupMeasured N)
      (inferGroup Γ recursive bindings) :=
    measuring_inferGroup inside (measuring_inferPlain inside Subst.measuredIn_empty bindings)
      fun inside solved fresh => measuring_inferValues inside solved fresh bindings
  exact group.before fun (_, _) ⟨_, inside'⟩ => measuring_pure inside'

/-- An item is inferred only if the measures that it names are declared, and its own measure is declared
    after it. -/
theorem inferItem_measures (inside : Γ.MeasuredIn N) (declared : ∀ name ∈ st.measures, N name)
    (run : inferItem Γ item st = .ok Γ' st') :
    Γ'.MeasuredIn N ∧ (∀ name, name ∈ st'.measures ↔ name ∈ st.measures ∨ name ∈ item.declares) ∧
      ∀ name ∈ item.measureNames, name ∈ st.measures := by
  have start := measuredIn_restarted declared
  cases item with
  | expr value =>
    obtain ⟨_, same, known, inside'⟩ := (measuring_exprItem inside value).ok start run
    exact ⟨inside', by simp [same, Item.declares, State.restarted], known⟩
  | letGroup recursive bindings =>
    obtain ⟨_, same, known, inside'⟩ := (measuring_groupItem inside recursive bindings).ok start run
    exact ⟨inside', by simp [same, Item.declares, State.restarted], known⟩
  | measure name definition span =>
    obtain ⟨_, _, restart, run⟩ := bind_ok.mp run
    cases restart
    obtain ⟨_, st₁, run₁, run⟩ := bind_ok.mp run
    obtain ⟨_, same, known, _⟩ := (measuring_checkDefinition span definition).ok start run₁
    cases run
    refine ⟨inside, fun other => ?_, known⟩
    simp [same, Item.declares, State.restarted, eq_comm (a := name), or_comm]

theorem inferItem_unboundMeasure {name : String} {span : Span} (inside : Γ.MeasuredIn N)
    (declared : ∀ name ∈ st.measures, N name)
    (run : inferItem Γ item st = .error (.illTyped ⟨.unboundMeasure name, span⟩) st') :
    name ∈ item.measureNames ∧ name ∉ st.measures := by
  have start := measuredIn_restarted declared
  show name ∈ item.measureNames ∧ name ∉ st.restarted.measures
  cases item with
  | expr value => exact (measuring_exprItem inside value).unbound start run
  | letGroup recursive bindings => exact (measuring_groupItem inside recursive bindings).unbound start run
  | measure _ definition place =>
    rcases bind_error.mp run with restart | ⟨_, _, restart, run⟩
    · cases restart
    cases restart
    rcases bind_error.mp run with run | ⟨_, _, _, run⟩
    · exact (measuring_checkDefinition (N := N) place definition).unbound start run
    · cases run

/-- Along a program, what is declared grows by what the items declare. -/
theorem inferItems_measures (inside : Γ.MeasuredIn N) (declared : ∀ name ∈ st.measures, N name)
    (own : ∀ item ∈ items, ∀ name ∈ item.declares, N name) (run : inferItems Γ items st = .ok Γ' st') :
    Γ'.MeasuredIn N ∧ ∀ before item after, items = before ++ item :: after → ∀ name ∈ item.measureNames,
      name ∈ st.measures ∨ ∃ earlier ∈ before, name ∈ earlier.declares := by
  induction items generalizing Γ st with
  | nil =>
    cases run
    exact ⟨inside, by simp⟩
  | cons item items ih =>
    obtain ⟨Γ₁, st₁, run₁, run⟩ := bind_ok.mp run
    obtain ⟨first, rest⟩ := List.forall_mem_cons.mp own
    obtain ⟨inside₁, grown, known⟩ := inferItem_measures inside declared run₁
    have declared₁ : ∀ name ∈ st₁.measures, N name := fun name member =>
      ((grown name).mp member).elim (declared name) (first name)
    obtain ⟨inside', later⟩ := ih inside₁ declared₁ rest run
    refine ⟨inside', fun before other after split name named => ?_⟩
    rcases List.cons_eq_append_iff.mp split with ⟨rfl, here⟩ | ⟨before, rfl, split⟩
    · cases here
      exact .inl (known name named)
    · rcases later before other after (List.cons.inj split).2 name named with member | ⟨earlier, member, declares⟩
      · exact ((grown name).mp member).imp_right fun declares => ⟨item, List.mem_cons_self, declares⟩
      · exact .inr ⟨earlier, List.mem_cons_of_mem _ member, declares⟩

theorem inferItems_unboundMeasure {name : String} {span : Span} (inside : Γ.MeasuredIn N)
    (declared : ∀ name ∈ st.measures, N name) (own : ∀ item ∈ items, ∀ name ∈ item.declares, N name)
    (run : inferItems Γ items st = .error (.illTyped ⟨.unboundMeasure name, span⟩) st') :
    ∃ before item after Δ st₁, items = before ++ item :: after ∧ inferItems Γ before st = .ok Δ st₁ ∧
      inferItem Δ item st₁ = .error (.illTyped ⟨.unboundMeasure name, span⟩) st' ∧
      name ∈ item.measureNames ∧ name ∉ st.measures ∧ ∀ earlier ∈ before, name ∉ earlier.declares := by
  induction items generalizing Γ st with
  | nil => cases run
  | cons item items ih =>
    rcases bind_error.mp run with run | ⟨Γ₁, st₁, run₁, run⟩
    · obtain ⟨named, unknown⟩ := inferItem_unboundMeasure inside declared run
      exact ⟨[], item, items, Γ, st, rfl, rfl, run, named, unknown, by simp⟩
    · obtain ⟨first, rest⟩ := List.forall_mem_cons.mp own
      obtain ⟨inside₁, grown, _⟩ := inferItem_measures inside declared run₁
      have declared₁ : ∀ name ∈ st₁.measures, N name := fun name member =>
        ((grown name).mp member).elim (declared name) (first name)
      obtain ⟨before, other, after, Δ, st₂, rfl, part, failed, named, unknown, earlier⟩ := ih inside₁ declared₁ rest run
      have missing := not_or.mp ((grown name).not.mp unknown)
      refine ⟨item :: before, other, after, Δ, st₂, rfl, bind_ok.mpr ⟨Γ₁, st₁, run₁, part⟩, failed, named,
        missing.1, ?_⟩
      exact List.forall_mem_cons.mpr ⟨missing.2, earlier⟩

end

end Infer

open Infer

/-- Where measures stand: every measure that an item writes is declared by an earlier item; in the schemes of a
    program a measure stands on a number type, is not the dimensionless one, and has names from the
    environment that the program starts in or from its items. A measure that is reported as unbound is
    written in the item that fails, and no earlier item declares it. -/
theorem runInfer_measures (Γ : Env) (items : List Item)
    (numeric : ∀ (name : String) (σ : Scheme), Γ[name]? = some σ → σ.ty.WellMeasured) :
    (∀ Γ', runInfer Γ items = .ok Γ' →
      (∀ before item after, items = before ++ item :: after → ∀ name ∈ item.measureNames,
        ∃ earlier ∈ before, name ∈ earlier.declares) ∧
      ∀ (x : String) (σ : Scheme), Γ'[x]? = some σ → σ.ty.WellMeasured ∧ ∀ name ∈ σ.ty.measureNames,
        (∃ (y : String) (τ : Scheme), Γ[y]? = some τ ∧ name ∈ τ.ty.measureNames) ∨
          ∃ item ∈ items, name ∈ item.declares) ∧
    ∀ name span, runInfer Γ items = .error (.illTyped ⟨.unboundMeasure name, span⟩) →
      ∃ before item after Δ st st', items = before ++ item :: after ∧
        inferItems Γ before (startState Γ items) = .ok Δ st ∧
        inferItem Δ item st = .error (.illTyped ⟨.unboundMeasure name, span⟩) st' ∧
        name ∈ item.measureNames ∧ ∀ earlier ∈ before, name ∉ earlier.declares := by
  let N (name : String) : Prop :=
    (∃ (y : String) (τ : Scheme), Γ[y]? = some τ ∧ name ∈ τ.ty.measureNames) ∨ ∃ item ∈ items, name ∈ item.declares
  have inside : Γ.MeasuredIn N := fun y τ look =>
    ⟨numeric y τ look, fun name member => .inl ⟨y, τ, look, member⟩⟩
  have none : ∀ name ∈ (startState Γ items).measures, N name := by simp [startState]
  have own : ∀ item ∈ items, ∀ name ∈ item.declares, N name := fun item member name declares =>
    .inr ⟨item, member, declares⟩
  constructor
  · intro Γ' result
    obtain ⟨_, st, run⟩ := runInfer_ok.mp result
    obtain ⟨inside', declared⟩ := inferItems_measures inside none own run
    refine ⟨fun before item after split name named => ?_, fun x σ look => ⟨(inside' x σ look).well, (inside' x σ look).names⟩⟩
    exact (declared before item after split name named).resolve_left (by simp [startState])
  · intro name span result
    have run : runInfer Γ items = outcome (inferItems Γ items (startState Γ items)) := runInfer_run (by simp [result])
    rw [result] at run
    cases failed : inferItems Γ items (startState Γ items) with
    | ok Γ' st =>
      rw [failed] at run
      cases run
    | error e st' =>
      rw [failed] at run
      cases run
      obtain ⟨before, item, after, Δ, st, split, part, failed, named, _, earlier⟩ :=
        inferItems_unboundMeasure inside none own failed
      exact ⟨before, item, after, Δ, st, st', split, part, failed, named, earlier⟩

/-- An environment with a length in metres. -/
def lengthEnv : Env :=
  (∅ : Env).insert "length" ⟨[], .measured .int (.named "m")⟩

/-- The program `[<Measure>] type kg`, `let load = fun (x : int<kg>) -> (x, length)`. -/
def weightItems : List Item :=
  let name (id : String) : Expr := .ident ⟨id, {}⟩
  let weight : TypeExpr := .measured (.con "int" [] {}) (.named "kg" {}) {}
  [.measure "kg" none {},
    .letGroup false [⟨.ident ⟨"load", {}⟩,
      .lambda (.typed (.ident ⟨"x", {}⟩) weight {}) (.tuple [name "x", name "length"] {}) {}⟩]]

/-- The expression `1<m>`. -/
def metreItem : Item :=
  .expr (.const (.measured (.int 1) (.named "m" {})) {})

/-- The type of `load` has a measure that the program declares and one that the environment brings; the latter
    is not declared and may not be written. -/
theorem weightItems_measures :
    (∀ (name : String) (σ : Scheme), lengthEnv[name]? = some σ → σ.ty.WellMeasured) ∧
    (∃ Γ', runInfer lengthEnv weightItems = .ok Γ' ∧
      ∀ (x : String) (σ : Scheme), Γ'[x]? = some σ → σ.ty.WellMeasured ∧ ∀ name ∈ σ.ty.measureNames,
        (∃ (y : String) (τ : Scheme), lengthEnv[y]? = some τ ∧ name ∈ τ.ty.measureNames) ∨
          ∃ item ∈ weightItems, name ∈ item.declares) ∧
    ∃ before item after, weightItems ++ [metreItem] = before ++ item :: after ∧ "m" ∈ item.measureNames ∧
      ∀ earlier ∈ before, "m" ∉ earlier.declares := by
  have numeric (name : String) (σ : Scheme) (look : lengthEnv[name]? = some σ) : σ.ty.WellMeasured := by
    rw [lengthEnv, Env.getElem?_insert_eq] at look
    split at look
    · cases look
      exact .measured (.inl rfl) (by simp)
    · simp at look
  have success : runInfer lengthEnv weightItems = .ok (lengthEnv.insert "load" ⟨[], .func (.measured .int (.named "kg"))
      (.tuple (.measured .int (.named "kg")) (.measured .int (.named "m")) [])⟩) := by cbv
  have failure (place : Span) :
      runInfer lengthEnv (weightItems ++ [.expr (.const (.measured (.int 1) (.named "m" place)) {})]) =
        .error (.illTyped ⟨.unboundMeasure "m", place.orElse {}⟩) := by cbv
  obtain ⟨before, item, after, _, _, _, split, _, _, named, earlier⟩ :=
    (runInfer_measures lengthEnv (weightItems ++ [metreItem]) numeric).2 "m" _ (failure {})
  exact ⟨numeric, ⟨_, success, ((runInfer_measures lengthEnv weightItems numeric).1 _ success).2⟩,
    before, item, after, split, named, earlier⟩

end LetPoly
