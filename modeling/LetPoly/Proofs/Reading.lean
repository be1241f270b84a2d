import LetPoly.Proofs.Runs
import LetPoly.Proofs.TypingSubstitution

/-!
Literals and annotations are read as they are meant: a literal has the type that the rules give it
(`literalType_ok`), and an annotation without named variables is read as the type that it means
(`resolve_of_means`, `means_of_resolve`). Reading solves nothing (`resolve_reach`).
-/
namespace LetPoly.Infer
open State Typing

theorem declared_product {M : Measures} {left right : MeasureExpr} :
    Declared M (.product left right) ↔ Declared M left ∧ Declared M right := by
  simp [Declared, MeasureExpr.names, or_imp, forall_and]

theorem declared_quotient {M : Measures} {numerator denominator : MeasureExpr} :
    Declared M (.quotient numerator denominator) ↔ Declared M numerator ∧ Declared M denominator := by
  simp [Declared, MeasureExpr.names, or_imp, forall_and]

/-- A measure is read as it is written, if all its names are declared. -/
theorem resolveMeasure_ok {span : Span} {m : MeasureExpr} {x : Measure} {st st' : State} :
    resolveMeasure span m st = .ok x st' ↔ st' = st ∧ x = measureOf m ∧ Declared st.measures m := by
  induction m generalizing x st st' with
  | one =>
    rw [resolveMeasure, pure_ok]
    simp [measureOf, Declared, MeasureExpr.names, eq_comm, and_comm]
  | named name place =>
    have run : resolveMeasure span (.named name place) st =
        if st.measures.contains name then .ok (.named name) st
        else .error (.illTyped { cause := .unboundMeasure name, span := place.orElse span }) st := by
      rw [resolveMeasure]
      show (if st.measures.contains name then _ else _ : Infer Measure) st = _
      split <;> rfl
    rw [run]
    simp only [measureOf, Declared, MeasureExpr.names, List.mem_singleton, forall_eq, ← Std.ExtTreeSet.contains_iff_mem]
    split
    · rename_i declared
      simp [declared, eq_comm, and_comm]
    · rename_i undeclared
      simp [undeclared]
  | product left right ihl ihr =>
    simp only [resolveMeasure, bind_ok, pure_ok, ihl, ihr, measureOf, declared_product]
    constructor
    · rintro ⟨_, _, ⟨rfl, rfl, first⟩, _, _, ⟨rfl, rfl, second⟩, rfl, rfl⟩
      exact ⟨rfl, rfl, first, second⟩
    · rintro ⟨rfl, rfl, first, second⟩
      exact ⟨_, _, ⟨rfl, rfl, first⟩, _, _, ⟨rfl, rfl, second⟩, rfl, rfl⟩
  | quotient numerator denominator ihn ihd =>
    simp only [resolveMeasure, bind_ok, pure_ok, ihn, ihd, measureOf, declared_quotient]
    constructor
    · rintro ⟨_, _, ⟨rfl, rfl, first⟩, _, _, ⟨rfl, rfl, second⟩, rfl, rfl⟩
      exact ⟨rfl, rfl, first, second⟩
    · rintro ⟨rfl, rfl, first, second⟩
      exact ⟨_, _, ⟨rfl, rfl, first⟩, _, _, ⟨rfl, rfl, second⟩, rfl, rfl⟩
  | power base exponent ih =>
    simp only [resolveMeasure, bind_ok, pure_ok, ih, measureOf]
    constructor
    · rintro ⟨_, _, ⟨rfl, rfl, declared⟩, rfl, rfl⟩
      exact ⟨rfl, rfl, declared⟩
    · rintro ⟨rfl, rfl, declared⟩
      exact ⟨_, _, ⟨rfl, rfl, declared⟩, rfl, rfl⟩

theorem checkDefinition_ok {span : Span} {definition : Option MeasureExpr} {st st' : State} :
    checkDefinition span definition st = .ok () st' ↔ st' = st ∧ ∀ m ∈ definition, Declared st.measures m := by
  cases definition with
  | none => simp [checkDefinition, pure_ok, eq_comm]
  | some m =>
    have run : checkDefinition span (some m) = (do let _ ← resolveMeasure span m; pure ()) := rfl
    simp only [run, bind_ok, pure_ok, resolveMeasure_ok, Option.mem_def, Option.some.injEq, forall_eq']
    grind

theorem numberType_eq_iff {n : Number} {t : Ty} : numberType n = t ↔ NumberType n t := by
  constructor
  · rintro rfl
    cases n <;> constructor
  · intro typed
    cases typed <;> rfl

/-- A literal is given exactly the type that the rules give it. -/
theorem literalType_ok {span : Span} {value : Literal} {t : Ty} {st st' : State} :
    literalType span value st = .ok t st' ↔ st' = st ∧ LiteralType st.measures value t := by
  constructor
  · intro run
    cases value with
    | number n =>
      obtain ⟨rfl, rfl⟩ := pure_ok.mp run
      exact ⟨rfl, .number (numberType_eq_iff.mp rfl)⟩
    | bool b => obtain ⟨rfl, rfl⟩ := pure_ok.mp run; exact ⟨rfl, .bool b⟩
    | char c => obtain ⟨rfl, rfl⟩ := pure_ok.mp run; exact ⟨rfl, .char c⟩
    | string s => obtain ⟨rfl, rfl⟩ := pure_ok.mp run; exact ⟨rfl, .string s⟩
    | unit => obtain ⟨rfl, rfl⟩ := pure_ok.mp run; exact ⟨rfl, .unit⟩
    | measured n m =>
      obtain ⟨x, st₁, run, done⟩ := bind_ok.mp run
      obtain ⟨rfl, rfl, declared⟩ := resolveMeasure_ok.mp run
      obtain ⟨rfl, rfl⟩ := pure_ok.mp done
      exact ⟨rfl, .measured (numberType_eq_iff.mp rfl) declared⟩
  · rintro ⟨rfl, typed⟩
    cases typed with
    | number typed => exact pure_ok.mpr ⟨numberType_eq_iff.mpr typed, rfl⟩
    | bool b | char c | string s | unit => rfl
    | measured typed declared =>
      refine bind_ok.mpr ⟨_, _, resolveMeasure_ok.mpr ⟨rfl, rfl, declared⟩, ?_⟩
      rw [numberType_eq_iff.mpr typed]
      rfl

/-- The names of types are those that annotations can mean. -/
theorem typeName?_prim {name : String} {p : Prim} : typeName? name = some (.prim p) ↔ name = p.text := by
  constructor
  · intro found
    unfold typeName? at found
    split at found <;> cases found <;> rfl
  · rintro rfl
    cases p <;> rfl

theorem typeName?_wrapper {name : String} {w : Wrapper} :
    typeName? name = some (.wrapper w) ↔ name = "list" ∧ w = .list ∨ name = "option" ∧ w = .option := by
  constructor
  · intro found
    unfold typeName? at found
    split at found <;> cases found <;> simp
  · rintro (⟨rfl, rfl⟩ | ⟨rfl, rfl⟩) <;> rfl

theorem resolve_con (name : String) (args : List TypeExpr) (span : Span) : resolve (.con name args span) =
    match typeName? name, args with
    | none, _ => fail span (.unboundType name)
    | some (.prim p), [] => return .prim p
    | some (.prim _), args => fail span (.constructorArity name 0 args.length)
    | some (.wrapper w), [arg] => return .wrap w (← resolve arg)
    | some (.wrapper _), args => fail span (.constructorArity name 1 args.length) :=
  (resolve.eq_def _).trans rfl

theorem resolve_prim (p : Prim) (span : Span) : resolve (.con p.text [] span) = return .prim p := by
  rw [resolve_con, typeName?_prim.mpr rfl]

mutual

/-- An annotation is read as the type that it means. -/
theorem resolve_of_means {st : State} {a : TypeExpr} {t : Ty} : Means st.measures a t → resolve a st = .ok t st
  | .prim p span => by
    rw [resolve_prim]
    rfl
  | .list span arg => bind_ok.mpr ⟨_, _, resolve_of_means arg, rfl⟩
  | .option span arg => bind_ok.mpr ⟨_, _, resolve_of_means arg, rfl⟩
  | .func param result =>
    bind_ok.mpr ⟨_, _, resolve_of_means param, bind_ok.mpr ⟨_, _, resolve_of_means result, rfl⟩⟩
  | .tuple span elements => bind_ok.mpr ⟨_, _, resolveList_of_means elements, rfl⟩
  | .measured span base number declared => by
    refine bind_ok.mpr ⟨_, _, resolve_of_means base, ?_⟩
    rw [measuredType, if_pos number]
    exact bind_ok.mpr ⟨_, _, resolveMeasure_ok.mpr ⟨rfl, rfl, declared⟩, rfl⟩

theorem resolveList_of_means {st : State} {as : List TypeExpr} {ts : List Ty} :
    MeansAll st.measures as ts → resolveList as st = .ok ts st
  | .nil => rfl
  | .cons first rest =>
    bind_ok.mpr ⟨_, _, resolve_of_means first, bind_ok.mpr ⟨_, _, resolveList_of_means rest, rfl⟩⟩

end

theorem tupleOf?_eq_some {ts : List Ty} {t : Ty} :
    Ty.tupleOf? ts = some t ↔ ∃ a b rest, ts = a :: b :: rest ∧ t = .tuple a b rest := by
  constructor
  · intro found
    unfold Ty.tupleOf? at found
    split at found
    · cases found
      exact ⟨_, _, _, rfl, rfl⟩
    · cases found
  · rintro ⟨a, b, rest, rfl, rfl⟩
    rfl

theorem tupleType_ok {span : Span} {ts : List Ty} {t : Ty} {st st' : State} (run : tupleType span ts st = .ok t st') :
    st' = st ∧ ∃ a b rest, ts = a :: b :: rest ∧ t = .tuple a b rest := by
  unfold tupleType at run
  cases found : Ty.tupleOf? ts with
  | none =>
    rw [found] at run
    exact absurd run fail_ne_ok
  | some u =>
    rw [found] at run
    obtain ⟨rfl, rfl⟩ := pure_ok.mp run
    exact ⟨rfl, tupleOf?_eq_some.mp found⟩

theorem measuredType_ok {span : Span} {base t : Ty} {m : MeasureExpr} {st st' : State}
    (run : measuredType span base m st = .ok t st') :
    st' = st ∧ (base = .int ∨ base = .float) ∧ Declared st.measures m ∧ t = base.withMeasure (measureOf m) := by
  unfold measuredType at run
  split at run
  · rename_i number
    obtain ⟨x, st₁, run, done⟩ := bind_ok.mp run
    obtain ⟨rfl, rfl, declared⟩ := resolveMeasure_ok.mp run
    obtain ⟨rfl, rfl⟩ := pure_ok.mp done
    exact ⟨rfl, number, declared, rfl⟩
  · exact absurd run fail_ne_ok

theorem in_withMeasure {P : TyVar → Prop} {t : Ty} (inside : t.In P) (m : Measure) : (t.withMeasure m).In P := by
  cases m <;> exact inside

theorem resolveVar_ok {name : String} {t : Ty} {st st' : State} (run : resolveVar name st = .ok t st') :
    (∃ v, st.named[name]? = some v ∧ t = st.solved.value v ∧
      st' = { st with journal := st.journal ++ [Event.resolved name t] }) ∨
    st.named[name]? = none ∧ t = .var st.next ∧
      st' = { st with next := st.next + 1, named := st.named.insert name st.next,
                      journal := st.journal ++ [Event.resolved name t] } := by
  unfold resolveVar at run
  obtain ⟨_, _, got, run⟩ := bind_ok.mp run
  cases got
  cases known : st.named[name]? with
  | some v =>
    simp only [known] at run
    obtain ⟨_, st₁, run, done⟩ := bind_ok.mp run
    cases record_ok.mp run
    obtain ⟨rfl, rfl⟩ := pure_ok.mp done
    exact .inl ⟨v, rfl, rfl, rfl⟩
  | none =>
    simp only [known] at run
    obtain ⟨v, st₁, run₁, run⟩ := bind_ok.mp run
    obtain ⟨rfl, rfl⟩ := freshVar_ok run₁
    obtain ⟨_, st₂, run₂, run⟩ := bind_ok.mp run
    cases run₂
    obtain ⟨_, st₃, run₃, done⟩ := bind_ok.mp run
    cases record_ok.mp run₃
    obtain ⟨rfl, rfl⟩ := pure_ok.mp done
    exact .inr ⟨rfl, rfl, rfl⟩

/-- What is known of a variable speaks of live ones only. -/
theorem live_value {st : State} {v : TyVar} (consistent : st.Consistent) (given : v < st.next) :
    (st.solved.value v).In st.Live := by
  cases found : st.solved[v]? with
  | none =>
    have missing : v ∉ st.solved := by simpa using found
    rw [Subst.value_of_notMem missing, Ty.in_var]
    exact ⟨given, missing⟩
  | some t =>
    rw [Subst.value, found]
    exact consistent.values v t found

theorem live_next {st : State} (consistent : st.Consistent) : st.next ∉ st.solved :=
  fun key => Nat.lt_irrefl _ (consistent.keys _ key)

/-- A named variable is read as a live type: as a new variable, or as what is known of it. -/
theorem resolveVar_reach {K : TyVar → Prop} {name : String} {t : Ty} {st st' : State} (consistent : st.Consistent)
    (run : resolveVar name st = .ok t st') :
    Reach K st ∅ st' ∧ t.In (Fits K st st') ∧ ¬ st.Silent st' := by
  have read : Event.resolved name t ∈ st.news st' := by
    have journal : st'.journal = st.journal ++ [Event.resolved name t] := by
      rcases resolveVar_ok run with ⟨v, known, same, rfl⟩ | ⟨unknown, same, rfl⟩ <;> rfl
    rw [news_append journal]
    exact List.mem_singleton_self _
  refine and_assoc.mp ⟨?_, fun silent => silent name t read⟩
  rcases resolveVar_ok run with ⟨v, known, rfl, rfl⟩ | ⟨unknown, rfl, rfl⟩
  · have live := live_value consistent (consistent.named name v known)
    refine ⟨?_, fun w member => ⟨live w member, .inr (.inr ⟨_, read, member⟩)⟩⟩
    exact {
      next := Nat.le_refl _
      measures := rfl
      journal := before_append rfl
      solved := (Subst.empty_after _).symm
      news := by rw [news_append rfl, solvedBy_eq_empty (by simp [Event.solution])]
      consistent := ⟨consistent.keys, consistent.values, consistent.named⟩
      keys := fun k key => absurd key Std.ExtTreeMap.not_mem_empty
      values := fun k u found => by simp at found
      path := .tail .refl consistent (.reread known) }
  · have more := reach_next (K := K) consistent (Nat.le_succ _)
    refine ⟨?_, Ty.in_var.mpr ⟨⟨Nat.lt_succ_self _, live_next consistent⟩, .inr (.inl (Nat.le_refl _))⟩⟩
    refine {
      next := more.next
      measures := rfl
      journal := before_append rfl
      solved := more.solved
      news := by rw [news_append rfl, solvedBy_eq_empty (by simp [Event.solution])]
      consistent := ⟨more.consistent.keys, more.consistent.values, ?_⟩
      keys := fun k key => absurd key Std.ExtTreeMap.not_mem_empty
      values := fun k u found => by simp at found
      path := .tail .refl consistent (.read unknown) }
    intro other v found
    rw [Std.ExtTreeMap.getElem?_insert] at found
    split at found
    · cases found
      exact Nat.lt_succ_self _
    · exact more.consistent.named other v found

mutual

/-- Reading an annotation solves nothing, and gives the type that it means if it has no named
    variables. -/
theorem resolve_reach {K : TyVar → Prop} {st st' : State} {t : Ty} (consistent : st.Consistent) :
    (a : TypeExpr) → resolve a st = .ok t st' →
      Reach K st ∅ st' ∧ t.In (Fits K st st') ∧ (st.Silent st' → Means st.measures a t)
  | .con name args span, run => by
    rw [resolve_con] at run
    split at run
    · exact absurd run fail_ne_ok
    · rename_i p found
      obtain ⟨rfl, rfl⟩ := pure_ok.mp run
      rw [typeName?_prim] at found
      subst found
      exact ⟨.refl consistent, Ty.in_prim p, fun _ => .prim p span⟩
    · exact absurd run fail_ne_ok
    · rename_i w arg found
      obtain ⟨u, st₁, run₁, done⟩ := bind_ok.mp run
      obtain ⟨rfl, rfl⟩ := pure_ok.mp done
      obtain ⟨reach, inside, means⟩ := resolve_reach consistent arg run₁
      refine ⟨reach, Ty.in_wrap.mpr inside, fun silent => ?_⟩
      rcases typeName?_wrapper.mp found with ⟨rfl, rfl⟩ | ⟨rfl, rfl⟩
      · exact .list span (means silent)
      · exact .option span (means silent)
    · exact absurd run fail_ne_ok
  | .var name span, run => by
    obtain ⟨reach, inside, read⟩ := resolveVar_reach consistent run
    exact ⟨reach, inside, fun silent => absurd silent read⟩
  | .func param result, run => by
    obtain ⟨a, st₁, run₁, run⟩ := bind_ok.mp run
    obtain ⟨b, st₂, run₂, done⟩ := bind_ok.mp run
    obtain ⟨rfl, rfl⟩ := pure_ok.mp done
    obtain ⟨reach₁, inside₁, means₁⟩ := resolve_reach (K := K) consistent param run₁
    obtain ⟨reach₂, inside₂, means₂⟩ := resolve_reach (K := Fits K st st₁) reach₁.consistent result run₂
    refine ⟨reach₁.trans_empty reach₂, Ty.in_func.mpr ⟨reach₁.carry_empty reach₂ inside₁, reach₁.gain reach₂ inside₂⟩,
      fun silent => ?_⟩
    rw [reach₁.measures] at means₂
    exact .func (means₁ (silent.left reach₁.journal reach₂.journal)) (means₂ (silent.right reach₁.journal reach₂.journal))
  | .tuple elements span, run => by
    obtain ⟨ts, st₁, run₁, done⟩ := bind_ok.mp run
    obtain ⟨rfl, a, b, rest, rfl, rfl⟩ := tupleType_ok done
    obtain ⟨reach, inside, means⟩ := resolveList_reach consistent elements run₁
    simp only [List.mem_cons, forall_eq_or_imp] at inside
    exact ⟨reach, Ty.in_tuple.mpr inside, fun silent => .tuple span (means silent)⟩
  | .measured base measure span, run => by
    obtain ⟨u, st₁, run₁, done⟩ := bind_ok.mp run
    obtain ⟨rfl, number, declared, rfl⟩ := measuredType_ok done
    obtain ⟨reach, inside, means⟩ := resolve_reach consistent base run₁
    exact ⟨reach, in_withMeasure inside _,
      fun silent => .measured span (means silent) number (reach.measures ▸ declared)⟩

theorem resolveList_reach {K : TyVar → Prop} {st st' : State} {ts : List Ty} (consistent : st.Consistent) :
    (as : List TypeExpr) → resolveList as st = .ok ts st' →
      Reach K st ∅ st' ∧ (∀ t ∈ ts, t.In (Fits K st st')) ∧ (st.Silent st' → MeansAll st.measures as ts)
  | [], run => by
    obtain ⟨rfl, rfl⟩ := pure_ok.mp run
    exact ⟨.refl consistent, (fun t member => nomatch member), fun _ => .nil⟩
  | a :: as, run => by
    obtain ⟨t, st₁, run₁, run⟩ := bind_ok.mp run
    obtain ⟨ts, st₂, run₂, done⟩ := bind_ok.mp run
    obtain ⟨rfl, rfl⟩ := pure_ok.mp done
    obtain ⟨reach₁, inside₁, means₁⟩ := resolve_reach (K := K) consistent a run₁
    obtain ⟨reach₂, inside₂, means₂⟩ := resolveList_reach (K := Fits K st st₁) reach₁.consistent as run₂
    refine ⟨reach₁.trans_empty reach₂, ?_, fun silent => ?_⟩
    · simp only [List.mem_cons, forall_eq_or_imp]
      exact ⟨reach₁.carry_empty reach₂ inside₁, fun u member => reach₁.gain reach₂ (inside₂ u member)⟩
    · rw [reach₁.measures] at means₂
      exact .cons (means₁ (silent.left reach₁.journal reach₂.journal))
        (means₂ (silent.right reach₁.journal reach₂.journal))

end

end LetPoly.Infer
