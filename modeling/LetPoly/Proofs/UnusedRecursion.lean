import LetPoly.Proofs.Shift
import LetPoly.Proofs.Weakening

/-!
A group whose values do not use its names is inferred in the same way whether it is recursive or not
(`inferGroup_recursive_of_unused`). The recursive run gives out a variable for every value beforehand, and makes
it equal to the type of the value as soon as that is inferred. So it is ahead of the other run by the number of
values. The variables in between correspond to none of the other run (`Pairing.Unmatched`), and what is put for
them does not count.
-/
namespace LetPoly

/-- A variable that does not occur in a type stands for it, and nothing else is solved. -/
theorem unify_var {v : TyVar} {t : Ty} (apart : v ∉ t.freeVars) : unify (.var v) t = .ok (.single v t) := by
  have other : t ≠ .var v := by
    rintro rfl
    exact apart (Ty.mem_freeVars_var.mpr rfl)
  have bound : Unify.move (.var v) t = .ok (.bind v t) := by
    rw [Unify.move, if_neg other, Unify.bindVar, if_neg (mt Ty.mem_freeVars_iff.mpr apart)]
  rw [unify_eq_solve, Unify.solve_bind bound, Unify.apply, List.map_nil, Unify.solve, Except.map, Subst.empty_after]

/-! ### Variables of the second run only -/

namespace Pairing
variable {P Q : Pairing} {s r : Subst} {w : TyVar} {t u : Ty}

/-- A variable that the second run has given out and that corresponds to none of the first. -/
structure Unmatched (P : Pairing) (w : TyVar) : Prop where
  below : w < P.right
  apart : ∀ v, P.shared v → P.name v ≠ w

theorem Unmatched.extend (lone : P.Unmatched w) (grows : P.Grows Q) : Q.Unmatched w where
  below := Nat.lt_of_lt_of_le lone.below grows.right
  apart v shared := by
    rcases grows.new v shared with shared | ⟨_, above⟩
    · rw [(grows.keep v shared).2]
      exact lone.apart v shared
    · exact Nat.ne_of_gt (Nat.lt_of_lt_of_le lone.below above)

theorem Unmatched.notMem (lone : P.Unmatched w) (same : P.Same t u) : w ∉ u.freeVars := by
  obtain ⟨inside, rfl⟩ := same
  intro member
  obtain ⟨v, found, stands⟩ := Ty.mem_freeVars_rename.mp member
  exact lone.apart v (inside v found) stands

/-- What is put for it makes no difference. -/
theorem SameSubst.settle (solved : P.SameSubst s r) (lone : P.Unmatched w) (t : Ty) :
    P.SameSubst s ((Subst.single w t).after r) := by
  have settled : P.SameSubst ∅ (.single w t) :=
    { values := fun v shared => by
        rw [Subst.value_empty, Subst.value_single, if_neg (Ne.symm (lone.apart v shared))]
        exact same_var shared
      left := fun v key => absurd key Std.ExtTreeMap.not_mem_empty
      right := fun v key => Subst.mem_single.mp key ▸ lone.below }
  exact Subst.empty_after s ▸ settled.after solved

end Pairing

/-- The variables that the run that is ahead has in between. -/
theorem unmatched_shift {n k w : Nat} (from_n : n ≤ w) (below : w < n + k) : (shiftPairing n k n).Unmatched w where
  below := below
  apart v shared := by
    show TyVar.shift n k v ≠ w
    rw [TyVar.shift_of_lt shared]
    exact Nat.ne_of_lt (Nat.lt_of_lt_of_le shared from_n)

namespace Infer

/-- Infers one value of a recursive group, which has the type of its placeholder. -/
def inferPlace (Γ : Env) (s : Subst) (placeholder : Ty) (value : Expr) : Infer Subst := do
  let (s₁, t) ← inferExpr (Γ.subst s) value
  let s := s₁.after s
  let s₂ ← equate value.span (s.apply placeholder) (s.apply t)
  return s₂.after s

theorem inferValues_nil (Γ : Env) (s : Subst) : inferValues Γ s [] [] = pure s := by
  simp only [inferValues]

theorem inferValues_cons (Γ : Env) (s : Subst) (placeholder : Ty) (placeholders : List Ty) (pattern : Pattern)
    (value : Expr) (bindings : List (Binding Expr)) :
    inferValues Γ s (placeholder :: placeholders) (⟨pattern, value⟩ :: bindings) =
      inferPlace Γ s placeholder value >>= fun s => inferValues Γ s placeholders bindings := by
  simp only [inferValues, inferPlace, bind_assoc, pure_bind]

end Infer

namespace Comparison
open Infer

section
variable {C : Comparison} {P : Pairing} {α β γ : Type} {A : Pairing → α → β → Prop} {B : Pairing → α → γ → Prop}

/-- What holds of all results of the second run holds of those that are related, too. -/
theorem Parallel.also {F : β → Prop} {m : Infer α} {m' : Infer β} (both : C.Parallel P A m m')
    (results : ∀ b st st', st.next = P.right → m' st = .ok b st' → F b) :
    C.Parallel P (fun Q a b => A Q a b ∧ F b) m m' := by
  intro keeps st st' same
  have agree := both keeps st st' same
  generalize m st = x at agree ⊢
  generalize run : m' st' = y at agree ⊢
  cases agree with
  | ok grows keeps states related => exact .ok grows keeps states ⟨related, results _ _ _ same.right run⟩
  | illTyped grows keeps states => exact .illTyped grows keeps states
  | outLeft may => exact .outLeft may
  | outRight => exact .outRight

/-- A variable that only the second run has becomes equal to a type without the first run taking notice. -/
theorem Parallel.settle {w : TyVar} {t : Ty} {m : Infer α} {f : Subst → Infer γ} {span : Span} {note : Option String}
    (lone : P.Unmatched w) (apart : w ∉ t.freeVars) (next : C.Parallel P B m (f (.single w t))) :
    C.Parallel P B m (equate span (.var w) t note >>= f) := by
  intro keeps st st' same
  show C.Agree P B (m st) (EStateM.bind _ _ st')
  rw [EStateM.bind, equate_run, unify_var apart]
  exact next keeps st _
    ⟨same.left, same.right, same.measures, same.named, same.shared, same.solved.settle lone t⟩

end

section
variable {n k : Nat} {P : Pairing} {Γ Δ : Env} {s r : Subst} {w : TyVar}

/-- The environment of the second run mentions variables that this run has given out. -/
theorem SameEnv.below (same : (shifted n k).SameEnv P Γ Δ) : Δ.Below P.right := by
  rw [Env.below_iff]
  intro name τ look
  obtain ⟨σ, _, made, _⟩ := Env.Related.right same look
  refine ⟨fun v member => ?_, made.right⟩
  obtain ⟨inside, equal⟩ := made.type
  obtain ⟨u, found, rfl⟩ := Ty.mem_freeVars_rename.mp (equal ▸ member)
  exact P.right_below u (inside u found)

/-- A variable that only the second run has is not replaced by what is inferred. -/
theorem SameEnv.notMem {e : Expr} {u : Ty} {st st' : State} (same : (shifted n k).SameEnv P Γ Δ) (lone : P.Unmatched w)
    (unnamed : Unnamed e.written) (next : st.next = P.right) (run : inferExpr Δ e st = .ok (r, u) st') : w ∉ r := by
  intro key
  have form := inferExpr_given (next ▸ same.below) unnamed run
  rcases form.keys w key with free | ⟨new, _⟩
  · have alike : Env.Related P.Alike Γ Δ := Env.Related.imp same fun _ _ _ _ _ here => here.1.alike
    obtain ⟨v, free, stands⟩ := alike.mem_freeVars.mp free
    exact lone.apart v (alike.shared free) stands
  · exact Nat.not_le_of_lt lone.below (next ▸ new)

/-- A value is inferred in parallel with one that has a placeholder, which has the type of the value then. -/
theorem parallel_place {value : Expr} {named others : List (String × Ty)} (name : String)
    (unnamed : Unnamed value.written) (lone : P.Unmatched w) (new : w ∉ r) (same : (shifted n k).SameEnv P Γ Δ)
    (solved : P.SameSubst s r) (before : P.SameNamed (s.applyNamed named) (r.applyNamed others)) :
    (shifted n k).Parallel P
      (fun Q x r' => Q.SameSubst (x.1.after s) r' ∧ (∀ v ∈ r', v ∈ r ∨ v = w ∨ ¬ P.Unmatched v) ∧
        Q.SameNamed ((x.1.after s).applyNamed (named ++ [(name, x.2)])) (r'.applyNamed (others ++ [(name, .var w)])))
      (inferExpr (Γ.subst s) value) (inferPlace Δ r (.var w) value) := by
  intro keeps
  have inner := same.subst (lawful_shifted n k) keeps solved
  have found : (shifted n k).Parallel P (fun Q x y => Q.SameWith Pairing.Same x y ∧ ∀ v, P.Unmatched v → v ∉ y.1)
      (inferExpr (Γ.subst s) value) (inferExpr (Δ.subst r) value) :=
    (parallel_inferExpr (lawful_shifted n k) inner value).also
      fun _ _ _ next run _ alone => inner.notMem alone unnamed next run
  rw [← bind_pure (inferExpr _ _)]
  refine found.bind (fun Q (s₁, t) (r₁, u) grows _ ⟨⟨solved₁, type⟩, kept⟩ => ?_) keeps
  have still : (r₁.after r).apply (.var w) = .var w :=
    Subst.apply_eq_self fun v member key => by
      obtain rfl := Ty.mem_freeVars_var.mp member
      exact (Subst.mem_after.mp key).elim new (kept v lone)
  have lone := lone.extend grows
  have both : Q.SameSubst (s₁.after s) (r₁.after r) := solved₁.after (solved.extend grows)
  have typed := both.apply type
  dsimp only
  rw [still]
  refine Parallel.settle lone (lone.notMem typed) (parallel_pure ?_)
  -- The type of the value is put for the placeholder, and nothing is put in the other run.
  generalize settled : Subst.single w ((r₁.after r).apply u) = r₂
  refine ⟨settled ▸ both.settle lone _, fun v key => ?_, ?_⟩
  · rcases Subst.mem_after.mp key with key | key
    · exact (Subst.mem_after.mp key).imp_right fun key => .inr fun alone => kept v alone key
    · exact .inr (.inl (Subst.mem_single.mp (settled ▸ key)))
  · have place : (r₂.after (r₁.after r)).apply (.var w) = (r₁.after r).apply u := by
      rw [Subst.apply_after, still, Subst.apply_eq_bind, ← settled]
      exact (Subst.value_single w w _).trans (if_pos rfl)
    have earlier : Q.SameNamed ((s₁.after s).applyNamed named) ((r₂.after (r₁.after r)).applyNamed others) := by
      rw [← Subst.after_assoc, Subst.applyNamed_after, Subst.applyNamed_after, ← settled]
      exact (solved₁.settle lone _).applyNamed (before.extend grows)
    rw [Subst.applyNamed_append, Subst.applyNamed_append]
    exact earlier.append (Pairing.sameNamed_single name (place ▸ typed))

/-- The values of a group that is not recursive are inferred in parallel with those of a recursive one, whose
    placeholders are `places`. At the end these have the types of the values. -/
theorem parallel_values {bindings : List (Binding Expr)} {places : List TyVar} {named others : List (String × Ty)}
    (identifiers : ∀ b ∈ bindings, ∃ id, b.pattern = .ident id) (unnamed : Unnamed (Expr.writtenBindings bindings))
    (length : places.length = bindings.length) (distinct : places.Nodup)
    (lone : ∀ w ∈ places, P.Unmatched w ∧ w ∉ r) (same : (shifted n k).SameEnv P Γ Δ) (solved : P.SameSubst s r)
    (before : P.SameNamed (s.applyNamed named) (r.applyNamed others)) :
    (shifted n k).Parallel P
      (fun Q x r => Q.SameSubst x.1 r ∧ Q.SameNamed (x.1.applyNamed (named ++ x.2))
        (r.applyNamed (others ++ (groupNames bindings).zip (places.map .var))))
      (inferPlain Γ s bindings) (inferValues Δ r (places.map .var) bindings) := by
  induction bindings generalizing P s r places named others with
  | nil =>
    obtain rfl := List.eq_nil_of_length_eq_zero length
    exact parallel_pure ⟨solved, by simpa [groupNames] using before⟩
  | cons binding bindings ih =>
    obtain ⟨pattern, value⟩ := binding
    obtain ⟨⟨id, ident⟩, remaining⟩ := List.forall_mem_cons.mp identifiers
    obtain rfl : pattern = .ident id := ident
    obtain ⟨w, places, rfl⟩ := List.exists_cons_of_length_eq_add_one length
    obtain ⟨⟨alone, new⟩, lone⟩ := List.forall_mem_cons.mp lone
    obtain ⟨notMem, distinct⟩ := List.nodup_cons.mp distinct
    obtain ⟨both, rest⟩ := varNamesIn_append.mp unnamed
    rw [List.map_cons, inferPlain, inferValues_cons]
    refine (parallel_place id.name (varNamesIn_append.mp both).2 alone new same solved before).bind
      fun Q x r' grows _ found => ?_
    obtain ⟨s₁, t⟩ := x
    obtain ⟨solved, keys, before⟩ := found
    have lone : ∀ v ∈ places, Q.Unmatched v ∧ v ∉ r' := by
      intro v member
      obtain ⟨alone, new⟩ := lone v member
      refine ⟨alone.extend grows, fun key => ?_⟩
      rcases keys v key with key | rfl | other
      · exact new key
      · exact notMem member
      · exact other alone
    have later := ih remaining rest (Nat.succ.inj length) distinct lone (same.extend (lawful_shifted n k) grows)
      solved before
    dsimp only
    rw [inferPattern_ident, pure_bind, Subst.empty_after, ← bind_pure (inferValues _ _ _ _)]
    refine later.bind fun R x r₃ _ _ found => parallel_pure ?_
    simpa [groupNames, Pattern.names, Pattern.idents] using found

end

end Comparison

/-! ### Groups -/

namespace Infer
open Comparison

section
variable {Γ : Env} {bindings : List (Binding Expr)} {st : State}

theorem Blind.outcome_eq {α : Type} {m : Infer α} (blind : Blind m) (st : State) :
    outcome (m st) = outcome (m st.restarted) := by
  have same := blind st
  cases run : m st <;> cases run' : m st.restarted <;> rw [run, run'] at same <;> simp_all [forgetItem, outcome]

/-- Identifiers as patterns get new variables as their types, if there are enough. -/
theorem inferPlaceholders_identifiers {patterns : List Pattern} (identifiers : ∀ p ∈ patterns, ∃ id, p = .ident id)
    (s : Subst) (st : State) :
    (∃ st', inferPlaceholders s patterns st = .error .outOfVariables st') ∨
      inferPlaceholders s patterns st =
        .ok (s, (List.range' st.next patterns.length).map .var,
          (patterns.flatMap Pattern.names).zip ((List.range' st.next patterns.length).map .var))
          { st with next := st.next + patterns.length } := by
  induction patterns generalizing st with
  | nil => exact .inr rfl
  | cons p ps ih =>
    obtain ⟨⟨id, rfl⟩, remaining⟩ := List.forall_mem_cons.mp identifiers
    simp only [inferPlaceholders, inferPattern_ident, pure_bind, Subst.empty_after]
    have start := fresh_run st
    by_cases enough : st.next + 1 < varLimit
    · rw [if_pos enough] at start
      rcases ih remaining { st with next := st.next + 1 } with ⟨st', run⟩ | run
      · exact .inl ⟨st', bind_error.mpr (.inr ⟨_, _, start, bind_error.mpr (.inl run)⟩)⟩
      · refine .inr (bind_ok.mpr ⟨_, _, start, bind_ok.mpr ⟨_, _, run, pure_ok.mpr ⟨?_, ?_⟩⟩⟩)
        · simp [List.range'_succ, Pattern.names, Pattern.idents]
        · rw [List.length_cons, Nat.add_right_comm, Nat.add_assoc]
    · rw [if_neg enough] at start
      exact .inl ⟨st, bind_error.mpr (.inl start)⟩

/-- A group that need not be recursive: it binds different identifiers, and its values do not use them. -/
structure PlainGroup (bindings : List (Binding Expr)) : Prop where
  identifiers : ∀ b ∈ bindings, ∃ id, b.pattern = .ident id
  unnamed : Unnamed (Expr.writtenBindings bindings)
  unused : ∀ id ∈ Expr.freeValues bindings, id.name ∉ groupNames bindings
  distinct : duplicate? [] (bindings.flatMap fun b => b.pattern.idents) = none

theorem PlainGroup.check (group : PlainGroup bindings) (st : State) :
    checkDistinct (bindings.flatMap fun b => b.pattern.idents) st = .ok () st := by
  rw [checkDistinct_run, group.distinct]

/-- If it is not recursive, its values do not see its names. -/
theorem groupTypes_plain (group : PlainGroup bindings) (below : Γ.Below st.next) :
    groupTypes Γ false bindings st = inferPlain (Γ.without (groupNames bindings)) ∅ bindings st := by
  show EStateM.bind _ _ st = _
  rw [EStateM.bind, group.check]
  exact inferPlain_weaken Subst.below_empty bindings group.unnamed (spare_without below group.unused)

/-- If it is recursive, its values need not see its names. -/
theorem groupTypes_recursive (group : PlainGroup bindings) (below : Γ.Below st.next) :
    let places := (List.range' st.next bindings.length).map Ty.var
    (∃ st', groupTypes Γ true bindings st = .error .outOfVariables st') ∨
      groupTypes Γ true bindings st =
        (inferValues (Γ.without (groupNames bindings)) ∅ places bindings >>= fun s =>
          pure (s, (groupNames bindings).zip places)) { st with next := st.next + bindings.length } := by
  intro places
  have patterns : ∀ p ∈ bindings.map Binding.pattern, ∃ id, p = .ident id := by simpa using group.identifiers
  rcases inferPlaceholders_identifiers patterns ∅ st with ⟨st', run⟩ | run
  · exact .inl ⟨st', bind_error.mpr (.inr ⟨_, _, group.check st, bind_error.mpr (.inl run)⟩)⟩
  · refine .inr ?_
    rw [List.length_map, List.flatMap_map] at run
    have more : st.next ≤ st.next + bindings.length := Nat.le_add_right _ _
    have fresh : ∀ t ∈ places, t.In (· < st.next + bindings.length) := by
      intro t member
      obtain ⟨w, found, rfl⟩ := List.mem_map.mp member
      exact Ty.in_var.mpr (List.mem_range'_1.mp found).2
    have names : ((groupNames bindings).zip places).map Prod.fst = groupNames bindings :=
      inferPlaceholders_groupNames run
    have known : NamedIn (· < st.next + bindings.length) ((groupNames bindings).zip places) :=
      fun entry member => fresh entry.2 (List.of_mem_zip member).2
    have inner := spare_extendMono (below.later more) group.unused names known
    show EStateM.bind _ (fun _ => EStateM.bind _ _) st = _
    rw [EStateM.bind, group.check]
    show EStateM.bind _ _ st = _
    rw [EStateM.bind, run]
    exact bind_congr_at (inferValues_weaken Subst.below_empty fresh bindings group.unnamed inner) fun _ _ _ => rfl

/-- At the start of an item its names get the same types in both runs. -/
theorem agree_groupTypes (group : PlainGroup bindings) (below : Γ.Below st.next) (unnamed : st.named = ∅)
    (unsolved : st.solved = ∅) :
    (shifted st.next bindings.length).Agree (shiftPairing st.next bindings.length st.next)
      (fun Q x y => Q.SameSubst x.1 y.1 ∧ Q.SameNamed (x.1.applyNamed x.2) (y.1.applyNamed y.2))
      (groupTypes Γ false bindings st) (groupTypes Γ true bindings st) := by
  rw [groupTypes_plain group below]
  rcases groupTypes_recursive group below with ⟨st', run⟩ | run
  · rw [run]
    exact .outRight
  · rw [run]
    generalize start : shiftPairing st.next bindings.length st.next = P
    have same : (shifted st.next bindings.length).SameEnv P _ _ :=
      start ▸ sameEnv_self bindings.length (spare_without below group.unused).part_below
    have lone : ∀ w ∈ List.range' st.next bindings.length, P.Unmatched w ∧ w ∉ (∅ : Subst) := by
      intro w member
      obtain ⟨from_n, upto⟩ := List.mem_range'_1.mp member
      exact ⟨start ▸ unmatched_shift from_n upto, Std.ExtTreeMap.not_mem_empty⟩
    have none : P.SameNamed (Subst.applyNamed ∅ []) (Subst.applyNamed ∅ []) := Pairing.sameNamed_nil P
    have values := parallel_values group.identifiers group.unnamed List.length_range' List.nodup_range' lone same
      (Pairing.sameSubst_empty P) none
    rw [← bind_pure (inferPlain _ _ _)]
    refine (values.bind fun Q x r _ _ found => parallel_pure found) ⟨st.next, Nat.le_refl _, start.symm⟩ _ _ ?_
    subst start
    exact ⟨rfl, rfl, rfl, by simp [unnamed], by simp [unnamed], by simpa [unsolved] using Pairing.sameSubst_empty _⟩

/-- So they get the same schemes. -/
theorem agree_inferGroup (group : PlainGroup bindings) (below : Γ.Below st.next) (unnamed : st.named = ∅)
    (unsolved : st.solved = ∅) :
    (shifted st.next bindings.length).Agree (shiftPairing st.next bindings.length st.next)
      (fun Q x y => (shifted st.next bindings.length).SameEnv Q x.2 y.2)
      (inferGroup Γ false bindings st) (inferGroup Γ true bindings st) := by
  rw [inferGroup_eq, inferGroup_eq]
  refine (agree_groupTypes group below unnamed unsolved).bind
    fun Q (s, named) (r, others) grows keeps ⟨solved, names⟩ => ?_
  have lawful := lawful_shifted st.next bindings.length
  have outer := ((sameEnv_self bindings.length below).extend lawful grows).subst lawful keeps solved
  exact (parallel_generalizeAll lawful outer names).bind fun _ _ _ _ _ same => parallel_pure same

end

end Infer

open Infer

/-- A group of identifiers whose values do not use its names can be taken to be recursive or not. If there are enough
    variables for the placeholders, both runs end with the same error, or with the same environment, but for the
    numbers of new variables. -/
theorem inferGroup_recursive_of_unused (Γ : Env) (st : State) (below : Γ.Below st.next) (bindings : List (Binding Expr))
    (identifiers : ∀ b ∈ bindings, ∃ id, b.pattern = .ident id)
    (unnamed : ∀ w ∈ Expr.writtenBindings bindings, w.varNames = [])
    (unused : ∀ id ∈ Expr.freeValues bindings, id.name ∉ groupNames bindings)
    (enough : outcome (inferGroup Γ true bindings st) ≠ .error .outOfVariables) :
    (∃ e, outcome (inferGroup Γ false bindings st) = .error (.illTyped e) ∧
      outcome (inferGroup Γ true bindings st) = .error (.illTyped (e.rename (TyVar.shift st.next bindings.length)))) ∨
    ∃ s r Δ, outcome (inferGroup Γ false bindings st) = .ok (s, Δ) ∧
      outcome (inferGroup Γ true bindings st) = .ok (r, Δ.rename (TyVar.shift st.next bindings.length)) := by
  have silent : Unnamed (Expr.writtenBindings bindings) :=
    fun w member name named => by simp [unnamed w member] at named
  rw [(stepwise_inferGroup Γ true silent).blind.outcome_eq st] at enough ⊢
  rw [(stepwise_inferGroup Γ false silent).blind.outcome_eq st]
  cases distinct : duplicate? [] (bindings.flatMap fun b => b.pattern.idents) with
  | some id =>
    have refused (recursive : Bool) : outcome (inferGroup Γ recursive bindings st.restarted) =
        .error (.illTyped { cause := .duplicateVariable id.name, span := id.span }) := by
      have check := checkDistinct_run (bindings.flatMap fun b => b.pattern.idents) st.restarted
      rw [distinct] at check
      rw [inferGroup, groupOf, bind_error.mpr (.inl check)]
      rfl
    exact .inl ⟨_, refused false, refused true⟩
  | none =>
    have group : PlainGroup bindings := ⟨identifiers, silent, unused, distinct⟩
    have agree := @agree_inferGroup Γ bindings st.restarted group below rfl rfl
    generalize inferGroup Γ false bindings st.restarted = x at agree ⊢
    generalize inferGroup Γ true bindings st.restarted = y at agree enough ⊢
    cases agree with
    | @ok _ x y _ _ _ keeps _ same =>
      obtain ⟨s, Δ⟩ := x
      obtain ⟨r, Δ'⟩ := y
      obtain rfl : Δ' = Δ.rename _ := eq_rename_of_sameEnv keeps same
      exact .inr ⟨s, r, Δ, rfl, rfl⟩
    | illTyped _ keeps _ =>
      obtain ⟨l, _, rfl⟩ := keeps
      exact .inl ⟨_, rfl, rfl⟩
    | outLeft may => exact may.elim
    | outRight => exact absurd rfl enough

/-- The group `x = fun z -> let h = fun w -> (w, y) in (h z, h 1) and k = y 1`. -/
def unusedBindings : List (Binding Expr) :=
  let name (id : String) : Expr := .ident ⟨id, {}⟩
  let pattern (id : String) : Pattern := .ident ⟨id, {}⟩
  let one : Expr := .const (.number (.int 1)) {}
  let pair : Expr := .lambda (pattern "w") (.tuple [name "w", name "y"] {}) {}
  let both : Expr := .tuple [.apply (name "h") (name "z") {}, .apply (name "h") one {}] {}
  [⟨pattern "x", .lambda (pattern "z") (.letIn false [⟨pattern "h", pair⟩] both {}) {}⟩,
    ⟨pattern "k", .apply (name "y") one {}⟩]

/-- The outer `x` is hidden by that of the group, and `y` gets another type on the way. In both runs `h` is used at
    two types, and `k` has the type of which `x` speaks. -/
theorem unusedBindings_recursive : pairEnv.Below 2 ∧ (∀ b ∈ unusedBindings, ∃ id, b.pattern = .ident id) ∧
    (∀ w ∈ Expr.writtenBindings unusedBindings, w.varNames = []) ∧
    (∀ id ∈ Expr.freeValues unusedBindings, id.name ∉ groupNames unusedBindings) ∧
    outcome (inferGroup pairEnv true unusedBindings { next := 2 }) ≠ .error .outOfVariables ∧
    ∃ s r Δ, outcome (inferGroup pairEnv false unusedBindings { next := 2 }) = .ok (s, Δ) ∧
      outcome (inferGroup pairEnv true unusedBindings { next := 2 }) = .ok (r, Δ.rename (TyVar.shift 2 2)) ∧
      Δ["k"]? = some (.mono (.var 8)) ∧
      Δ["x"]? = some ⟨[2], .func (.var 2)
        (.tuple (.tuple (.var 2) (.func .int (.var 8)) []) (.tuple .int (.func .int (.var 8)) []) [])⟩ := by
  have below : pairEnv.Below 2 := by
    unfold Env.Below
    decide
  have identifiers : ∀ b ∈ unusedBindings, ∃ id, b.pattern = .ident id := by simp [unusedBindings]
  have unnamed : ∀ w ∈ Expr.writtenBindings unusedBindings, w.varNames = [] := by decide
  have unused : ∀ id ∈ Expr.freeValues unusedBindings, id.name ∉ groupNames unusedBindings := by decide
  have enough : outcome (inferGroup pairEnv true unusedBindings { next := 2 }) ≠ .error .outOfVariables := by
    -- `cbv` stops at the last equation of `inferValues`, which has a side condition, so lemmas unroll the values.
    have values : ∃ s st, inferValues (pairEnv.extendMono [("x", .var 2), ("k", .var 3)]) ∅ [.var 2, .var 3]
        unusedBindings { next := 4 } = .ok s st := by
      simp only [unusedBindings, inferValues_cons, inferValues_nil]
      apply Exists.intro
      apply Exists.intro
      cbv
    have places : inferPlaceholders ∅ (unusedBindings.map Binding.pattern) { next := 2 } =
        .ok (∅, [.var 2, .var 3], [("x", .var 2), ("k", .var 3)]) { next := 4 } := by cbv
    have distinct : checkDistinct (unusedBindings.flatMap fun b => b.pattern.idents) { next := 2 } =
        .ok () { next := 2 } := by cbv
    obtain ⟨s, st, values⟩ := values
    have types : groupTypes pairEnv true unusedBindings { next := 2 } = .ok (s, [("x", .var 2), ("k", .var 3)]) st :=
      bind_ok.mpr ⟨_, _, distinct, bind_ok.mpr ⟨_, _, places, bind_ok.mpr ⟨_, _, values, rfl⟩⟩⟩
    rw [inferGroup_eq, bind_ok.mpr ⟨_, _, types, generalizeAll_bind _ _ _ _⟩]
    simp [outcome]
  have plain : ∃ s Δ, outcome (inferGroup pairEnv false unusedBindings { next := 2 }) = .ok (s, Δ) ∧
      Δ["k"]? = some (.mono (.var 8)) ∧
      Δ["x"]? = some ⟨[2], .func (.var 2)
        (.tuple (.tuple (.var 2) (.func .int (.var 8)) []) (.tuple .int (.func .int (.var 8)) []) [])⟩ := by
    apply Exists.intro
    apply Exists.intro
    refine ⟨?_, ?_, ?_⟩
    · cbv
    · cbv
    · cbv
  refine ⟨below, identifiers, unnamed, unused, enough, ?_⟩
  obtain ⟨s, Δ, run, schemes⟩ := plain
  rcases inferGroup_recursive_of_unused pairEnv { next := 2 } below unusedBindings identifiers unnamed unused enough
    with ⟨e, failed, _⟩ | ⟨_, r, _, run', again⟩
  · rw [run] at failed
    cases failed
  · rw [run] at run'
    cases run'
    exact ⟨s, r, Δ, run, again, schemes⟩

/-- Where no number is left for a new variable, a value that needs none is inferred, but there is no placeholder
    for it. -/
theorem fullState_recursive :
    let bindings : List (Binding Expr) := [⟨.ident ⟨"f", {}⟩, .const (.number (.int 1)) {}⟩]
    (∅ : Env).Below fullState.next ∧ (∀ b ∈ bindings, ∃ id, b.pattern = .ident id) ∧
    (∀ w ∈ Expr.writtenBindings bindings, w.varNames = []) ∧
    (∀ id ∈ Expr.freeValues bindings, id.name ∉ groupNames bindings) ∧
    (∃ x, outcome (inferGroup ∅ false bindings fullState) = .ok x) ∧
    ∀ x, outcome (inferGroup ∅ true bindings fullState) ≠ .ok x := by
  intro bindings
  have below : (∅ : Env).Below fullState.next := fun v mentioned => by simp [Env.mem_mentioned] at mentioned
  have plain : outcome (inferGroup ∅ false bindings fullState) = .ok (∅, (∅ : Env).insert "f" (.mono .int)) := by cbv
  have stopped : outcome (inferGroup ∅ true bindings fullState) = .error .outOfVariables := by cbv
  exact ⟨below, by simp [bindings], by decide, by decide, ⟨_, plain⟩, by simp [stopped]⟩

end LetPoly
