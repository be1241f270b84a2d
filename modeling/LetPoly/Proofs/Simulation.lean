import LetPoly.Proofs.PatternSoundness
import LetPoly.Proofs.Pairing

/-!
Inference runs in parallel in corresponding environments, for every lawful comparison of schemes:
reading annotations (`parallel_resolve`), matching patterns (`parallel_matchPattern`), inferring
expressions (`parallel_inferExpr`) and items (`parallel_inferItems`). The proofs follow the program
text; what is the same before a step is the same after it, as the pairing only grows.
-/
namespace LetPoly.Comparison
open Infer

variable {C : Comparison} {P : Pairing}

/-! ### Elementary steps -/

theorem parallel_record (events others : List Event) :
    C.Parallel P (fun _ _ _ => True) (record events) (record others) :=
  fun keeps _ _ same =>
    .ok (.refl P) keeps ⟨same.left, same.right, same.measures, same.named, same.shared, same.solved⟩ trivial

/-- The same equations are solved in the same way. -/
theorem parallel_equate {a b c d : Ty} (left : P.Same a c) (right : P.Same b d) (span : Span) (note : Option String) :
    C.Parallel P Pairing.SameSubst (equate span a b note) (equate span c d note) := by
  intro keeps st st' same
  obtain ⟨inside, rfl⟩ := left
  obtain ⟨inside', rfl⟩ := right
  have renamed := unify_rename P.injective a b
  rw [equate_run, equate_run]
  cases solution : unify a b with
  | ok s =>
    rw [solution] at renamed
    obtain ⟨r, other, renames⟩ := renamed
    rw [other]
    have solved := Pairing.sameSubst_unify inside inside' solution other renames
    exact .ok (.refl P) keeps
      ⟨same.left, same.right, same.measures, same.named, same.shared, solved.after same.solved⟩ solved
  | error e =>
    rw [solution] at renamed
    simp only at renamed
    rw [renamed]
    have noted : P.SameState { st with journal := st.journal ++ [Event.equated a b] }
        { st' with journal := st'.journal ++ [Event.equated (a.rename P.name) (b.rename P.name)] } :=
      ⟨same.left, same.right, same.measures, same.named, same.shared, same.solved⟩
    cases note with
    | none =>
      simp only [TypeError.ofUnify_rename]
      exact .illTyped (.refl P) keeps noted
    | some note =>
      simp only [TypeError.ofUnify_rename, TypeError.withNote_rename]
      exact .illTyped (.refl P) keeps noted

theorem parallel_fresh (lawful : C.Lawful) (P : Pairing) : C.Parallel P Pairing.Same fresh fresh := by
  refine (lawful.freshVar P).bind fun Q v w _ _ related => parallel_pure ?_
  obtain ⟨shared, rfl⟩ := related
  exact Pairing.same_var shared

theorem parallel_freshList (lawful : C.Lawful) (P : Pairing) (n : Nat) :
    C.Parallel P Pairing.SameList (freshList n) (freshList n) := by
  induction n generalizing P with
  | zero => exact parallel_pure (Pairing.sameList_nil P)
  | succ n ih =>
    refine (parallel_fresh lawful P).bind fun Q t u _ _ first => ?_
    exact (ih Q).bind fun R ts us grows _ rest => parallel_pure (.cons (first.extend grows) rest)

/-! ### Annotations -/

theorem parallel_resolveMeasure (span : Span) (m : MeasureExpr) :
    C.Parallel P (fun _ x y => y = x) (resolveMeasure span m) (resolveMeasure span m) := by
  induction m generalizing P with
  | one => exact parallel_pure rfl
  | named name place =>
    intro keeps st st' same
    rw [resolveMeasure, get_bind, get_bind, same.measures]
    split
    · exact parallel_pure rfl keeps st st' same
    · exact parallel_fail rfl keeps st st' same
  | product left right ihl ihr | quotient left right ihl ihr =>
    refine ihl.bind fun Q x y _ _ first => ?_
    exact ihr.bind fun R x' y' _ _ second => parallel_pure (by rw [first, second])
  | power base exponent ih => exact ih.bind fun Q x y _ _ same => parallel_pure (by rw [same])

theorem parallel_literalType (span : Span) (value : Literal) :
    C.Parallel P Pairing.Same (literalType span value) (literalType span value) := by
  have number (Q : Pairing) (n : Number) : Q.Same (numberType n) (numberType n) := by
    cases n <;> exact Pairing.same_prim Q _
  cases value with
  | number n => exact parallel_pure (number P n)
  | bool b | char c | string s | unit => exact parallel_pure (Pairing.same_prim P _)
  | measured n m =>
    refine (parallel_resolveMeasure span m).bind fun Q x y _ _ same => parallel_pure ?_
    subst same
    exact (number Q n).withMeasure y

theorem parallel_tupleType {ts us : List Ty} (same : P.SameList ts us) (span : Span) :
    C.Parallel P Pairing.Same (tupleType span ts) (tupleType span us) := by
  obtain ⟨inside, rfl⟩ := same
  match ts, inside with
  | [], _ | [_], _ => exact parallel_fail rfl
  | a :: b :: rest, inside => exact parallel_pure (Pairing.same_tuple ⟨inside, rfl⟩)

theorem rename_eq_prim {ρ : TyVar → TyVar} {t : Ty} {p : Prim} : t.rename ρ = .prim p ↔ t = .prim p := by
  cases t <;> simp [Ty.rename, Ty.bind]

theorem parallel_measuredType {t u : Ty} (same : P.Same t u) (span : Span) (m : MeasureExpr) :
    C.Parallel P Pairing.Same (measuredType span t m) (measuredType span u m) := by
  obtain ⟨inside, rfl⟩ := same
  simp only [measuredType, rename_eq_prim]
  split
  · refine (parallel_resolveMeasure span m).bind fun Q x y grows _ equal => parallel_pure ?_
    subst equal
    exact (Pairing.Same.extend ⟨inside, rfl⟩ grows).withMeasure y
  · exact parallel_fail rfl

/-- A named variable is read as the same type, for the first time or again. -/
theorem parallel_resolveVar (lawful : C.Lawful) (P : Pairing) (name : String) :
    C.Parallel P Pairing.Same (resolveVar name) (resolveVar name) := by
  have remember {Q : Pairing} {v : TyVar} (shared : Q.shared v) : C.Parallel Q (fun _ _ _ => True)
      (modify fun st => { st with named := st.named.insert name v })
      (modify fun st => { st with named := st.named.insert name (Q.name v) }) := by
    intro keeps st st' same
    refine .ok (.refl Q) keeps ⟨same.left, same.right, same.measures, fun other => ?_, fun other w found => ?_,
      same.solved⟩ trivial
    · rw [Std.ExtTreeMap.getElem?_insert, Std.ExtTreeMap.getElem?_insert, same.named]
      split <;> rfl
    · rw [Std.ExtTreeMap.getElem?_insert] at found
      split at found
      · cases found
        exact shared
      · exact same.shared other w found
  intro keeps st st' same
  rw [resolveVar, get_bind, get_bind, same.named]
  cases known : st.named[name]? with
  | some v =>
    have value := same.solved.values v (same.shared name v known)
    refine (parallel_record _ _).bind (fun Q _ _ grows _ _ => ?_) keeps st st' same
    exact parallel_pure (value.extend grows)
  | none =>
    refine (lawful.freshVar P).bind (fun Q v w _ _ related => ?_) keeps st st' same
    obtain ⟨shared, rfl⟩ := related
    refine (remember shared).bind fun R _ _ grows _ _ => ?_
    refine (parallel_record _ _).bind fun S _ _ grows' _ _ => parallel_pure ?_
    exact (Pairing.same_var shared).extend (grows.trans grows')

mutual

/-- An annotation is read as the same type. -/
theorem parallel_resolve (lawful : C.Lawful) (P : Pairing) :
    (a : TypeExpr) → C.Parallel P Pairing.Same (resolve a) (resolve a)
  | .con name args span => by
    rw [resolve_con]
    split
    · exact parallel_fail rfl
    · exact parallel_pure (Pairing.same_prim P _)
    · exact parallel_fail rfl
    · rename_i w arg _
      exact (parallel_resolve lawful P arg).bind fun Q t u _ _ same => parallel_pure (same.wrap w)
    · exact parallel_fail rfl
  | .var name _ => parallel_resolveVar lawful P name
  | .func param result =>
    (parallel_resolve lawful P param).bind fun Q _ _ _ _ first =>
      (parallel_resolve lawful Q result).bind fun _ _ _ grows _ second =>
      parallel_pure ((first.extend grows).func second)
  | .tuple elements span =>
    (parallel_resolveList lawful P elements).bind fun _ _ _ _ _ same => parallel_tupleType same span
  | .measured base m span =>
    (parallel_resolve lawful P base).bind fun _ _ _ _ _ same => parallel_measuredType same span m

theorem parallel_resolveList (lawful : C.Lawful) (P : Pairing) :
    (as : List TypeExpr) → C.Parallel P Pairing.SameList (resolveList as) (resolveList as)
  | [] => parallel_pure (Pairing.sameList_nil P)
  | a :: as =>
    (parallel_resolve lawful P a).bind fun Q _ _ _ _ first =>
      (parallel_resolveList lawful Q as).bind fun _ _ _ grows _ rest => parallel_pure (.cons (first.extend grows) rest)

end

/-! ### Patterns -/

theorem parallel_checkDistinct (ids : List Ident) :
    C.Parallel P (fun _ _ _ => True) (checkDistinct ids) (checkDistinct ids) := by
  unfold checkDistinct
  split
  · exact parallel_fail rfl
  · exact parallel_pure trivial

theorem parallel_checkArity {t u : Ty} (same : P.Same t u) (span : Span) (n : Nat) :
    C.Parallel P (fun _ _ _ => True) (checkArity span t n) (checkArity span u n) := by
  obtain ⟨_, rfl⟩ := same
  cases t with
  | tuple a b ts =>
    simp only [Ty.rename_tuple, checkArity, Ty.components?, List.length_cons, List.length_map]
    split
    · exact parallel_pure trivial
    · exact parallel_fail rfl
  | _ => exact parallel_pure trivial

theorem parallel_tupleShape {ts us : List Ty} (same : P.SameList ts us) (span : Span) :
    C.Parallel P Pairing.Same (tupleShape span ts) (tupleShape span us) := by
  obtain ⟨inside, rfl⟩ := same
  match ts, inside with
  | [], _ | [_], _ => exact parallel_fail rfl
  | a :: b :: rest, inside => exact parallel_pure (Pairing.same_tuple ⟨inside, rfl⟩)

mutual

/-- A pattern is matched with the same types in the same way. -/
theorem parallel_matchPattern (lawful : C.Lawful) {P : Pairing} {t u : Ty} (same : P.Same t u) :
    (p : Pattern) → C.Parallel P (Pairing.SameWith Pairing.SameNamed) (matchPattern t p) (matchPattern u p)
  | .wild _ => parallel_pure ⟨Pairing.sameSubst_empty P, Pairing.sameNamed_nil P⟩
  | .ident id => parallel_pure ⟨Pairing.sameSubst_empty P, Pairing.sameNamed_single id.name same⟩
  | .const value span =>
    (parallel_literalType span value).bind fun _ _ _ grows _ found =>
      (parallel_equate (same.extend grows) found span _).bind fun R _ _ _ _ solved =>
      parallel_pure ⟨solved, Pairing.sameNamed_nil R⟩
  | .tuple elements span =>
    (parallel_checkArity same span _).bind fun Q _ _ grows₁ _ _ =>
      (parallel_freshList lawful Q _).bind fun _ _ _ grows₂ _ vars =>
      (parallel_tupleShape vars span).bind fun _ _ _ grows₃ _ shape =>
      (parallel_equate (same.extend (grows₁.trans (grows₂.trans grows₃))) shape span _).bind
        fun _ _ _ grows₄ _ solved =>
      parallel_matchPatterns lawful solved (vars.extend (grows₃.trans grows₄)) elements
  | .list elements span =>
    (parallel_fresh lawful P).bind fun _ _ _ grows _ elem =>
      (parallel_equate (same.extend grows) (elem.wrap _) span _).bind fun _ _ _ grows' _ solved =>
      parallel_matchPatterns lawful solved (Pairing.sameList_map elements (elem.extend grows')) elements
  | .cons head tail span =>
    (parallel_fresh lawful P).bind fun _ _ _ grows₁ _ elem =>
      (parallel_equate (same.extend grows₁) (elem.wrap _) span _).bind fun _ _ _ grows₂ _ solved =>
      have elem := elem.extend grows₂
      (parallel_matchPattern lawful (solved.apply elem) head).bind fun _ _ _ grows₃ _ heads =>
      have solved := heads.1.after (solved.extend grows₃)
      (parallel_matchPattern lawful (solved.apply ((elem.extend grows₃).wrap _)) tail).bind fun _ _ _ grows₄ _ tails =>
      have solved := tails.1.after (solved.extend grows₄)
      parallel_pure ⟨solved, solved.applyNamed ((heads.2.extend grows₄).append tails.2)⟩
  | .some inner span =>
    (parallel_fresh lawful P).bind fun _ _ _ grows₁ _ elem =>
      (parallel_equate (same.extend grows₁) (elem.wrap _) span _).bind fun _ _ _ grows₂ _ solved =>
      (parallel_matchPattern lawful (solved.apply (elem.extend grows₂)) inner).bind fun _ _ _ grows₃ _ names =>
      have solved := names.1.after (solved.extend grows₃)
      parallel_pure ⟨solved, solved.applyNamed names.2⟩
  | .none span =>
    (parallel_fresh lawful P).bind fun _ _ _ grows _ elem =>
      (parallel_equate (same.extend grows) (elem.wrap _) span _).bind fun R _ _ _ _ solved =>
      parallel_pure ⟨solved, Pairing.sameNamed_nil R⟩
  | .typed inner ascribed span =>
    (parallel_resolve lawful P ascribed).bind fun _ _ _ grows₁ _ annotated =>
      (parallel_equate (same.extend grows₁) annotated span _).bind fun _ _ _ grows₂ _ solved =>
      (parallel_matchPattern lawful (solved.apply (annotated.extend grows₂)) inner).bind fun _ _ _ grows₃ _ names =>
      have solved := names.1.after (solved.extend grows₃)
      parallel_pure ⟨solved, solved.applyNamed names.2⟩

theorem parallel_matchPatterns (lawful : C.Lawful) {P : Pairing} {s r : Subst} {ts us : List Ty}
    (solved : P.SameSubst s r) (same : P.SameList ts us) :
    (ps : List Pattern) → C.Parallel P (Pairing.SameWith Pairing.SameNamed) (matchPatterns s ts ps) (matchPatterns r us ps)
  | [] => by
    obtain ⟨_, rfl⟩ := same
    cases ts <;> exact parallel_pure ⟨solved, Pairing.sameNamed_nil P⟩
  | p :: ps => by
    obtain ⟨inside, rfl⟩ := same
    cases ts with
    | nil => exact parallel_pure ⟨solved, Pairing.sameNamed_nil P⟩
    | cons t ts =>
      simp only [List.mem_cons, forall_eq_or_imp] at inside
      refine (parallel_matchPattern lawful (solved.apply ⟨inside.1, rfl⟩) p).bind fun _ _ _ grows _ names => ?_
      have rest := Pairing.SameList.extend ⟨inside.2, rfl⟩ grows
      refine (parallel_matchPatterns lawful (names.1.after (solved.extend grows)) rest ps).bind
        fun _ _ _ grows' _ others => parallel_pure ⟨others.1, ?_⟩
      exact (others.1.applyNamed (names.2.extend grows')).append others.2

end

theorem parallel_inferPattern (lawful : C.Lawful) {t u : Ty} (same : P.Same t u) (p : Pattern) :
    C.Parallel P (Pairing.SameWith Pairing.SameNamed) (inferPattern t p) (inferPattern u p) :=
  (parallel_checkDistinct _).bind fun _ _ _ grows _ _ => parallel_matchPattern lawful (same.extend grows) p

/-! ### Groups -/

theorem parallel_inferPlaceholders (lawful : C.Lawful) {s r : Subst} (solved : P.SameSubst s r) (ps : List Pattern) :
    C.Parallel P (Pairing.SameWith fun Q x y => Q.SameList x.1 y.1 ∧ Q.SameNamed x.2 y.2) (inferPlaceholders s ps)
      (inferPlaceholders r ps) := by
  induction ps generalizing P s r with
  | nil => exact parallel_pure ⟨solved, Pairing.sameList_nil P, Pairing.sameNamed_nil P⟩
  | cons p ps ih =>
    refine (parallel_fresh lawful P).bind fun _ _ _ grows₁ _ placeholder => ?_
    refine (parallel_inferPattern lawful placeholder p).bind fun _ _ _ grows₂ _ names => ?_
    refine (ih (names.1.after (solved.extend (grows₁.trans grows₂)))).bind fun _ _ _ grows₃ _ others => ?_
    exact parallel_pure ⟨others.1, .cons (placeholder.extend (grows₂.trans grows₃)) others.2.1,
      (names.2.extend grows₃).append others.2.2⟩

theorem parallel_generalizeAll (lawful : C.Lawful) {Γ Δ : Env} {named others : List (String × Ty)}
    (same : C.SameEnv P Γ Δ) (names : P.SameNamed named others) :
    C.Parallel P C.SameEnv (generalizeAll Γ named) (generalizeAll Δ others) :=
  (parallel_record _ _).bind fun _ _ _ grows keeps _ =>
    parallel_pure ((same.extend lawful grows).bodyEnv lawful keeps (names.extend grows))

/-- A group is inferred in parallel if its values are. -/
theorem parallel_groupOf (lawful : C.Lawful) {Γ Δ : Env} (same : C.SameEnv P Γ Δ) (recursive : Bool)
    (bindings : List (Binding Expr)) {plain plain' : Infer (Subst × List (String × Ty))}
    {values values' : Env → Subst → List Ty → Infer Subst}
    (plainParallel : ∀ Q, P.Grows Q → C.Parallel Q (Pairing.SameWith Pairing.SameNamed) plain plain')
    (valuesParallel : ∀ {Q : Pairing} {Γ Δ : Env} {s r : Subst} {ts us : List Ty}, C.SameEnv Q Γ Δ → Q.SameSubst s r →
      Q.SameList ts us → C.Parallel Q Pairing.SameSubst (values Γ s ts) (values' Δ r us)) :
    C.Parallel P (Pairing.SameWith C.SameEnv) (groupOf Γ recursive bindings plain values)
      (groupOf Δ recursive bindings plain' values') := by
  have quantify {Q : Pairing} {x y : Subst × List (String × Ty)} (grows : P.Grows Q) (keeps : C.keeps Q)
      (found : Q.SameWith Pairing.SameNamed x y) : C.Parallel Q (Pairing.SameWith C.SameEnv)
        (do let Γ' ← generalizeAll (Γ.subst x.1) (x.1.applyNamed x.2); pure (x.1, Γ'))
        (do let Δ' ← generalizeAll (Δ.subst y.1) (y.1.applyNamed y.2); pure (y.1, Δ')) := by
    have outer := (same.extend lawful grows).subst lawful keeps found.1
    exact (parallel_generalizeAll lawful outer (found.1.applyNamed found.2)).bind fun _ _ _ grows' _ extended =>
      parallel_pure ⟨found.1.extend grows', extended⟩
  refine (parallel_checkDistinct _).bind fun Q _ _ grows₁ _ _ => ?_
  cases recursive with
  | false => exact (plainParallel Q grows₁).bind fun _ _ _ grows₂ keeps => quantify (grows₁.trans grows₂) keeps
  | true =>
    refine (parallel_inferPlaceholders lawful (Pairing.sameSubst_empty Q) _).bind fun _ _ _ grows₂ _ started => ?_
    have inner := (same.extend lawful (grows₁.trans grows₂)).extendMono lawful started.2.2
    refine (valuesParallel inner started.1 started.2.1).bind fun _ s r grows₃ keeps solved => ?_
    exact quantify (x := (s, _)) (y := (r, _)) (grows₁.trans (grows₂.trans grows₃)) keeps
      ⟨solved, started.2.2.extend grows₃⟩

/-! ### Expressions -/

mutual

/-- An expression is inferred in parallel in corresponding environments. -/
theorem parallel_inferExpr (lawful : C.Lawful) {P : Pairing} {Γ Δ : Env} (same : C.SameEnv P Γ Δ) :
    (e : Expr) → C.Parallel P (Pairing.SameWith Pairing.Same) (inferExpr Γ e) (inferExpr Δ e)
  | .const value span =>
    (parallel_literalType span value).bind fun Q _ _ _ _ found => parallel_pure ⟨Pairing.sameSubst_empty Q, found⟩
  | .ident id => by
    have here := same id.name
    rw [inferExpr.eq_def, inferExpr.eq_def]
    simp only
    cases left : Γ[id.name]? <;> cases right : Δ[id.name]? <;> rw [left, right] at here
    · exact parallel_fail rfl
    · exact here.elim
    · exact here.elim
    · exact (lawful.instantiate here).bind fun Q _ _ _ _ found => parallel_pure ⟨Pairing.sameSubst_empty Q, found⟩
  | .lambda param body _ =>
    (parallel_fresh lawful P).bind fun _ _ _ grows₁ _ input =>
      (parallel_inferPattern lawful input param).bind fun _ _ _ grows₂ keeps names =>
      have inner := ((same.extend lawful (grows₁.trans grows₂)).subst lawful keeps names.1).extendMono lawful names.2
      (parallel_inferExpr lawful inner body).bind fun _ _ _ grows₃ _ result =>
      have solved := result.1.after (names.1.extend grows₃)
      parallel_pure ⟨solved, (solved.apply (input.extend (grows₂.trans grows₃))).func result.2⟩
  | .apply func arg span =>
    (parallel_inferExpr lawful same func).bind fun _ _ _ grows₁ keeps func =>
      (parallel_inferExpr lawful ((same.extend lawful grows₁).subst lawful keeps func.1) arg).bind
        fun Q _ _ grows₂ _ arg =>
      (parallel_fresh lawful Q).bind fun _ _ _ grows₃ _ result =>
      have upto := grows₂.trans grows₃
      have expected := (arg.1.extend grows₃).apply (func.2.extend upto)
      (parallel_equate expected ((arg.2.extend grows₃).func result) span _).bind fun _ _ _ grows₄ _ solved =>
      have solved := (solved.after (arg.1.extend (grows₃.trans grows₄))).after (func.1.extend (upto.trans grows₄))
      parallel_pure ⟨solved, solved.apply (result.extend grows₄)⟩
  | .letIn recursive bindings body _ =>
    (parallel_groupOf lawful same recursive bindings
      (fun Q grows => parallel_inferPlain lawful (same.extend lawful grows) (Pairing.sameSubst_empty Q) bindings)
      fun same solved types => parallel_inferValues lawful same solved types bindings).bind fun _ _ _ _ _ group =>
      (parallel_inferExpr lawful group.2 body).bind fun _ _ _ grows _ result =>
      parallel_pure ⟨result.1.after (group.1.extend grows), result.2⟩
  | .ifThenElse condition yes no span =>
    (parallel_inferExpr lawful same condition).bind fun Q₁ _ _ grows₁ _ condition =>
      (parallel_equate (Pairing.same_prim Q₁ _) condition.2 _ _).bind fun _ _ _ grows₂ keeps solved =>
      have solved := solved.after (condition.1.extend grows₂)
      have here := same.extend lawful (grows₁.trans grows₂)
      (parallel_inferExpr lawful (here.subst lawful keeps solved) yes).bind fun _ _ _ grows₃ keeps yes =>
      have solved := yes.1.after (solved.extend grows₃)
      have here := here.extend lawful grows₃
      (parallel_inferElse lawful (here.subst lawful keeps solved) no).bind fun _ _ _ grows₄ _ no =>
      have solved := no.1.after (solved.extend grows₄)
      (parallel_equate (solved.apply (yes.2.extend grows₄)) (solved.apply no.2) span _).bind
        fun _ _ _ grows₅ _ last =>
      have solved := last.after (solved.extend grows₅)
      parallel_pure ⟨solved, solved.apply (yes.2.extend (grows₄.trans grows₅))⟩
  | .matchWith scrutinee rules _ =>
    (parallel_inferExpr lawful same scrutinee).bind fun Q _ _ grows₁ _ input =>
      (parallel_fresh lawful Q).bind fun _ _ _ grows₂ _ result =>
      (parallel_inferRules lawful (same.extend lawful (grows₁.trans grows₂)) (input.2.extend grows₂) result
        (input.1.extend grows₂) rules).bind fun _ _ _ grows₃ _ solved =>
      parallel_pure ⟨solved, solved.apply (result.extend grows₃)⟩
  | .function rules _ =>
    (parallel_fresh lawful P).bind fun Q _ _ grows₁ _ input =>
      (parallel_fresh lawful Q).bind fun R _ _ grows₂ _ result =>
      (parallel_inferRules lawful (same.extend lawful (grows₁.trans grows₂)) (input.extend grows₂) result
        (Pairing.sameSubst_empty R) rules).bind fun _ _ _ grows₃ _ solved =>
      parallel_pure ⟨solved, (solved.apply (input.extend (grows₂.trans grows₃))).func
        (solved.apply (result.extend grows₃))⟩
  | .tuple elements span =>
    (parallel_inferSequence lawful same (Pairing.sameSubst_empty P) elements).bind fun _ _ _ _ _ found =>
      (parallel_tupleType found.2 span).bind fun _ _ _ grows _ result =>
      parallel_pure ⟨found.1.extend grows, result⟩
  | .list elements _ =>
    (parallel_fresh lawful P).bind fun Q _ _ grows _ elem =>
      (parallel_inferElements lawful (same.extend lawful grows) elem (Pairing.sameSubst_empty Q) elements).bind
        fun _ _ _ grows' _ solved =>
      parallel_pure ⟨solved, (solved.apply (elem.extend grows')).wrap _⟩
  | .cons head tail span =>
    (parallel_inferExpr lawful same head).bind fun _ _ _ grows₁ keeps head =>
      (parallel_inferExpr lawful ((same.extend lawful grows₁).subst lawful keeps head.1) tail).bind
        fun _ _ _ grows₂ _ tail =>
      have expected := (tail.1.apply (head.2.extend grows₂)).wrap .list
      (parallel_equate expected tail.2 span _).bind fun _ _ _ grows₃ _ solved =>
      have solved := (solved.after (tail.1.extend grows₃)).after (head.1.extend (grows₂.trans grows₃))
      parallel_pure ⟨solved, solved.apply (expected.extend grows₃)⟩
  | .some value _ =>
    (parallel_inferExpr lawful same value).bind fun _ _ _ _ _ found => parallel_pure ⟨found.1, found.2.wrap _⟩
  | .none _ =>
    (parallel_fresh lawful P).bind fun Q _ _ _ _ elem => parallel_pure ⟨Pairing.sameSubst_empty Q, elem.wrap _⟩
  | .typed value ascribed span =>
    (parallel_inferExpr lawful same value).bind fun Q _ _ _ _ found =>
      (parallel_resolve lawful Q ascribed).bind fun _ _ _ grows₂ _ annotated =>
      (parallel_equate annotated (found.2.extend grows₂) span _).bind fun _ _ _ grows₃ _ solved =>
      have solved := solved.after (found.1.extend (grows₂.trans grows₃))
      parallel_pure ⟨solved, solved.apply (annotated.extend grows₃)⟩

theorem parallel_inferElse (lawful : C.Lawful) {P : Pairing} {Γ Δ : Env} (same : C.SameEnv P Γ Δ) :
    (no : Option Expr) → C.Parallel P (Pairing.SameWith Pairing.Same) (inferElse Γ no) (inferElse Δ no)
  | some e => parallel_inferExpr lawful same e
  | none => parallel_pure ⟨Pairing.sameSubst_empty P, Pairing.same_prim P _⟩

theorem parallel_inferGuard (lawful : C.Lawful) {P : Pairing} {Γ Δ : Env} (same : C.SameEnv P Γ Δ) :
    (guard : Option Expr) → C.Parallel P Pairing.SameSubst (inferGuard Γ guard) (inferGuard Δ guard)
  | some e =>
    (parallel_inferExpr lawful same e).bind fun Q _ _ _ _ found =>
      (parallel_equate (Pairing.same_prim Q _) found.2 _ _).bind fun _ _ _ grows _ solved =>
      parallel_pure (solved.after (found.1.extend grows))
  | none => parallel_pure (Pairing.sameSubst_empty P)

theorem parallel_inferRules (lawful : C.Lawful) {P : Pairing} {Γ Δ : Env} {input input' result result' : Ty}
    {s r : Subst} (same : C.SameEnv P Γ Δ) (inputs : P.Same input input') (results : P.Same result result')
    (solved : P.SameSubst s r) : (rules : List (Rule Expr)) →
      C.Parallel P Pairing.SameSubst (inferRules Γ input result s rules) (inferRules Δ input' result' r rules)
  | [] => parallel_pure solved
  | ⟨pattern, guard, body⟩ :: rules =>
    (parallel_inferPattern lawful (solved.apply inputs) pattern).bind fun _ _ _ grows₁ keeps names =>
      have solved := names.1.after (solved.extend grows₁)
      have inner := ((same.extend lawful grows₁).subst lawful keeps solved).extendMono lawful names.2
      (parallel_inferGuard lawful inner guard).bind fun _ _ _ grows₂ keeps guarded =>
      have solved := guarded.after (solved.extend grows₂)
      (parallel_inferExpr lawful ((inner.extend lawful grows₂).subst lawful keeps solved) body).bind
        fun _ _ _ grows₃ _ found =>
      have solved := found.1.after (solved.extend grows₃)
      have upto := grows₁.trans (grows₂.trans grows₃)
      (parallel_equate (solved.apply (results.extend upto)) (solved.apply found.2) _ _).bind fun _ _ _ grows₄ _ last =>
      have all := upto.trans grows₄
      parallel_inferRules lawful (same.extend lawful all) (inputs.extend all) (results.extend all)
        (last.after (solved.extend grows₄)) rules

theorem parallel_inferElements (lawful : C.Lawful) {P : Pairing} {Γ Δ : Env} {elem elem' : Ty} {s r : Subst}
    (same : C.SameEnv P Γ Δ) (elems : P.Same elem elem') (solved : P.SameSubst s r) : (es : List Expr) →
      C.Parallel P Pairing.SameSubst (inferElements Γ elem s es) (inferElements Δ elem' r es)
  | [] => parallel_pure solved
  | e :: es => fun keeps =>
    ((parallel_inferExpr lawful (same.subst lawful keeps solved) e).bind fun _ _ _ grows₁ _ found =>
      have solved := found.1.after (solved.extend grows₁)
      (parallel_equate (solved.apply (elems.extend grows₁)) found.2 _ _).bind fun _ _ _ grows₂ _ last =>
      have all := grows₁.trans grows₂
      parallel_inferElements lawful (same.extend lawful all) (elems.extend all) (last.after (solved.extend grows₂)) es)
      keeps

theorem parallel_inferSequence (lawful : C.Lawful) {P : Pairing} {Γ Δ : Env} {s r : Subst} (same : C.SameEnv P Γ Δ)
    (solved : P.SameSubst s r) : (es : List Expr) →
      C.Parallel P (Pairing.SameWith Pairing.SameList) (inferSequence Γ s es) (inferSequence Δ r es)
  | [] => parallel_pure ⟨solved, Pairing.sameList_nil P⟩
  | e :: es => fun keeps =>
    ((parallel_inferExpr lawful (same.subst lawful keeps solved) e).bind fun _ _ _ grows₁ _ found =>
      have solved := found.1.after (solved.extend grows₁)
      (parallel_inferSequence lawful (same.extend lawful grows₁) solved es).bind fun _ _ _ grows₂ _ rest =>
      parallel_pure ⟨rest.1, .cons (rest.1.apply (found.2.extend grows₂)) rest.2⟩) keeps

theorem parallel_inferPlain (lawful : C.Lawful) {P : Pairing} {Γ Δ : Env} {s r : Subst} (same : C.SameEnv P Γ Δ)
    (solved : P.SameSubst s r) : (bindings : List (Binding Expr)) →
      C.Parallel P (Pairing.SameWith Pairing.SameNamed) (inferPlain Γ s bindings) (inferPlain Δ r bindings)
  | [] => parallel_pure ⟨solved, Pairing.sameNamed_nil P⟩
  | ⟨pattern, value⟩ :: bindings => fun keeps =>
    ((parallel_inferExpr lawful (same.subst lawful keeps solved) value).bind fun _ _ _ grows₁ _ found =>
      have solved := found.1.after (solved.extend grows₁)
      (parallel_inferPattern lawful found.2 pattern).bind fun _ _ _ grows₂ _ names =>
      have solved := names.1.after (solved.extend grows₂)
      (parallel_inferPlain lawful (same.extend lawful (grows₁.trans grows₂)) solved bindings).bind
        fun _ _ _ grows₃ _ others =>
      parallel_pure ⟨others.1, (names.2.extend grows₃).append others.2⟩) keeps

theorem parallel_inferValues (lawful : C.Lawful) {P : Pairing} {Γ Δ : Env} {s r : Subst} {ts us : List Ty}
    (same : C.SameEnv P Γ Δ) (solved : P.SameSubst s r) (types : P.SameList ts us) : (bindings : List (Binding Expr)) →
      C.Parallel P Pairing.SameSubst (inferValues Γ s ts bindings) (inferValues Δ r us bindings)
  | [] => by
    obtain ⟨_, rfl⟩ := types
    cases ts <;> exact parallel_pure solved
  | ⟨pattern, value⟩ :: bindings => by
    obtain ⟨inside, rfl⟩ := types
    cases ts with
    | nil => exact parallel_pure solved
    | cons t ts =>
      simp only [List.mem_cons, forall_eq_or_imp] at inside
      intro keeps
      refine ((parallel_inferExpr lawful (same.subst lawful keeps solved) value).bind fun _ _ _ grows₁ _ found => ?_)
        keeps
      have solved := found.1.after (solved.extend grows₁)
      have placeholder := Pairing.Same.extend ⟨inside.1, rfl⟩ grows₁
      refine (parallel_equate (solved.apply placeholder) (solved.apply found.2) _ _).bind fun _ _ _ grows₂ _ last => ?_
      have all := grows₁.trans grows₂
      exact parallel_inferValues lawful (same.extend lawful all) (last.after (solved.extend grows₂))
        (Pairing.SameList.extend ⟨inside.2, rfl⟩ all) bindings

end

/-! ### Programs -/

section
variable {Γ Δ : Env}

theorem parallel_inferGroup (lawful : C.Lawful) (same : C.SameEnv P Γ Δ) (recursive : Bool)
    (bindings : List (Binding Expr)) :
    C.Parallel P (Pairing.SameWith C.SameEnv) (inferGroup Γ recursive bindings) (inferGroup Δ recursive bindings) :=
  parallel_groupOf lawful same recursive bindings
    (fun Q grows => parallel_inferPlain lawful (same.extend lawful grows) (Pairing.sameSubst_empty Q) bindings)
    fun same solved types => parallel_inferValues lawful same solved types bindings

theorem parallel_checkDefinition (span : Span) (definition : Option MeasureExpr) :
    C.Parallel P (fun _ _ _ => True) (checkDefinition span definition) (checkDefinition span definition) := by
  cases definition with
  | none => exact parallel_pure trivial
  | some m =>
    have run : checkDefinition span (some m) = (do let _ ← resolveMeasure span m; pure ()) := rfl
    rw [run]
    exact (parallel_resolveMeasure span m).bind fun _ _ _ _ _ _ => parallel_pure trivial

/-- An item is inferred in parallel in corresponding environments. -/
theorem parallel_inferItem (lawful : C.Lawful) (same : C.SameEnv P Γ Δ) (item : Item) :
    C.Parallel P C.SameEnv (inferItem Γ item) (inferItem Δ item) := by
  have reset : C.Parallel P (fun _ _ _ => True) (modify fun st => { st with named := ∅, solved := ∅ })
      (modify fun st => { st with named := ∅, solved := ∅ }) :=
    fun keeps _ _ same => .ok (.refl P) keeps
      ⟨same.left, same.right, same.measures, by simp, by simp, Pairing.sameSubst_empty P⟩ trivial
  refine reset.bind fun _ _ _ grows₁ _ _ => ?_
  have same := same.extend lawful grows₁
  cases item with
  | expr value =>
    refine (parallel_inferExpr lawful same value).bind fun _ _ _ grows₂ _ found => ?_
    refine (parallel_record _ _).bind fun _ _ _ grows₃ keeps _ => parallel_pure ?_
    exact (same.extend lawful (grows₂.trans grows₃)).subst lawful keeps (found.1.extend grows₃)
  | letGroup recursive bindings =>
    exact (parallel_inferGroup lawful same recursive bindings).bind fun _ _ _ _ _ group => parallel_pure group.2
  | measure name definition span =>
    have declare {Q : Pairing} : C.Parallel Q (fun _ _ _ => True)
        (modify fun st => { st with measures := st.measures.insert name })
        (modify fun st => { st with measures := st.measures.insert name }) :=
      fun keeps _ _ same => .ok (.refl Q) keeps
        ⟨same.left, same.right, congrArg (·.insert name) same.measures, same.named, same.shared, same.solved⟩ trivial
    refine (parallel_checkDefinition span definition).bind fun _ _ _ grows₂ _ _ => ?_
    refine (parallel_record _ _).bind fun _ _ _ grows₃ _ _ => declare.bind fun _ _ _ grows₄ _ _ => parallel_pure ?_
    exact same.extend lawful (grows₂.trans (grows₃.trans grows₄))

/-- Items are inferred in parallel in corresponding environments, one after the other. -/
theorem parallel_inferItems (lawful : C.Lawful) (same : C.SameEnv P Γ Δ) (items : List Item) :
    C.Parallel P C.SameEnv (inferItems Γ items) (inferItems Δ items) := by
  induction items generalizing P Γ Δ with
  | nil => exact parallel_pure same
  | cons item items ih => exact (parallel_inferItem lawful same item).bind fun _ _ _ _ _ same => ih same

end

end LetPoly.Comparison
