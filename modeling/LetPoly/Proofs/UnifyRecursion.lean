import LetPoly.Proofs.Unification

/-!
Unification as a recursion. Two types are made equal by making their parts equal from left to right, each
pair under what the pairs before it solved (`Evaluates`), so a call may be about larger types than its caller.
Main statement: there is no infinite chain of calls, every two types have a finite evaluation, and what comes
out is the answer of `unify` and the list of equations that the worklist takes (`unify_terminates`). A call
under nothing solved is about smaller types; any other call has lost the solved variables
(`Calls.weight_lt`).
-/
namespace LetPoly

namespace Unify

mutual

/-- Making two types equal by recursion gives the result, with the listed calls, itself first. -/
inductive Evaluates : Ty → Ty → List Equation → Except UnifyError Subst → Prop where
  | error {a b : Ty} {e : UnifyError} : move a b = .error e → Evaluates a b [(a, b)] (.error e)
  | bind {a b t : Ty} {v : TyVar} : move a b = .ok (.bind v t) → Evaluates a b [(a, b)] (.ok (.single v t))
  | split {a b : Ty} {parts calls : List Equation} {result : Except UnifyError Subst} :
    move a b = .ok (.split parts) → EvaluatesAll ∅ parts calls result → Evaluates a b ((a, b) :: calls) result

/-- Making the sides of equations equal from left to right, of which `s` is solved before. -/
inductive EvaluatesAll : Subst → List Equation → List Equation → Except UnifyError Subst → Prop where
  | nil {s : Subst} : EvaluatesAll s [] [] (.ok s)
  | error {s : Subst} {a b : Ty} {rest calls : List Equation} {e : UnifyError} :
    Evaluates (s.apply a) (s.apply b) calls (.error e) → EvaluatesAll s ((a, b) :: rest) calls (.error e)
  | cons {s r : Subst} {a b : Ty} {rest calls others : List Equation} {result : Except UnifyError Subst} :
    Evaluates (s.apply a) (s.apply b) calls (.ok r) → EvaluatesAll (r.after s) rest others result →
    EvaluatesAll s ((a, b) :: rest) (calls ++ others) result

end

/-- `Calls callee caller`: the recursion comes from one equation directly to the other, which is a part of it
    under what the parts before it solved. -/
inductive Calls : Equation → Equation → Prop where
  | part {a b c d : Ty} {before after calls : List Equation} {s : Subst} :
    move a b = .ok (.split (before ++ (c, d) :: after)) → EvaluatesAll ∅ before calls (.ok s) →
    Calls (s.apply c, s.apply d) (a, b)

/-! ### The recursion and the worklist -/

/-- A worklist is solved from left to right, what is left of it under what is solved. -/
theorem solve_append (xs ys : List Equation) : solve (xs ++ ys) =
    match solve xs with
    | .error e => .error e
    | .ok s => (solve (apply s ys)).map fun r => r.after s := by
  induction xs using solve.induct generalizing ys with
  | case1 =>
    rw [List.nil_append, solve.eq_1]
    simp only [apply_empty, Subst.after_empty]
    cases solve ys <;> rfl
  | case2 a b rest e error => rw [List.cons_append, solve_error error, solve_error error]
  | case3 a b rest parts split ih =>
    rw [List.cons_append, solve_split split, solve_split split, ← List.append_assoc, ih]
  | case4 a b rest v t bind ih =>
    rw [List.cons_append, solve_bind bind, solve_bind bind, apply_append, ih]
    cases solve (apply (.single v t) rest) with
    | error e => rfl
    | ok s =>
      simp only [Except.map, apply_apply]
      cases solve (apply (s.after (.single v t)) ys) with
      | error e => rfl
      | ok r => exact congrArg Except.ok (Subst.after_assoc r s _)

/-- The equations that are taken from a worklist are those of its left side, and if that is solved those of
    its right side under what is solved. -/
theorem visited_append (xs ys : List Equation) : visited (xs ++ ys) = visited xs ++
    match solve xs with
    | .error _ => []
    | .ok s => visited (apply s ys) := by
  induction xs using solve.induct generalizing ys with
  | case1 => simp [solve, visited, apply_empty]
  | case2 a b rest e error => simp [visited_error error, solve_error error]
  | case3 a b rest parts split ih =>
    rw [List.cons_append, visited_split split, visited_split split, solve_split split, ← List.append_assoc, ih,
      List.cons_append]
  | case4 a b rest v t bind ih =>
    rw [List.cons_append, visited_bind bind, visited_bind bind, solve_bind bind, apply_append, ih, List.cons_append]
    cases solve (apply (.single v t) rest) with
    | error e => rfl
    | ok s => simp only [Except.map, apply_apply]

mutual

/-- An evaluation gives what the worklist gives, and calls itself for the equations that are taken from it. -/
theorem Evaluates.eq_solve {a b : Ty} {calls : List Equation} {result : Except UnifyError Subst} :
    Evaluates a b calls result → visited [(a, b)] = calls ∧ solve [(a, b)] = result
  | .error error => ⟨visited_error error [], solve_error error []⟩
  | .bind bind => by
    rw [visited_bind bind, solve_bind bind]
    simp [apply, visited, solve, Except.map, Subst.empty_after]
  | .split split inner => by
    obtain ⟨visits, solves⟩ := inner.eq_solve
    rw [visited_split split, solve_split split, List.append_nil]
    rw [apply_empty] at visits solves
    simp only [Subst.after_empty] at solves
    exact ⟨congrArg _ visits, by rw [← solves]; cases solve _ <;> rfl⟩

theorem EvaluatesAll.eq_solve {s : Subst} {parts calls : List Equation} {result : Except UnifyError Subst} :
    EvaluatesAll s parts calls result →
      visited (apply s parts) = calls ∧ (solve (apply s parts)).map (fun r => r.after s) = result
  | .nil => by simp [apply, visited, solve, Except.map, Subst.empty_after]
  | .error first => by
    obtain ⟨visits, solves⟩ := first.eq_solve
    rw [apply_cons, ← List.singleton_append, visited_append, solve_append, visits, solves]
    simp [Except.map]
  | .cons first rest => by
    obtain ⟨visits, solves⟩ := first.eq_solve
    obtain ⟨visits', solves'⟩ := rest.eq_solve
    rw [apply_cons, ← List.singleton_append, visited_append, solve_append, visits, solves]
    simp only [apply_apply, visits', ← solves', true_and]
    cases solve (apply _ _) with
    | error e => rfl
    | ok q => exact congrArg Except.ok (Subst.after_assoc q _ _)

end

section
variable {a b c d : Ty} {s r : Subst} {before after calls others parts : List Equation}
  {result : Except UnifyError Subst}

/-! ### Calls get lighter -/

theorem mem_vars_append {w : TyVar} : w ∈ vars (before ++ after) ↔ w ∈ vars before ∨ w ∈ vars after := by
  simp [mem_vars, or_and_right, exists_or]

/-- Of a solution no key is left in what it is applied to, and nothing comes in but variables of what it
    solves. -/
theorem Solution.mem_vars_apply (solution : Solution before s) {w : TyVar} (found : w ∈ vars (apply s parts)) :
    w ∉ s ∧ (w ∈ vars before ∨ w ∈ vars parts) := by
  have side (t : Ty) (inside : w ∈ (s.apply t).freeVars) : w ∉ s ∧ (w ∈ vars before ∨ w ∈ t.freeVars) := by
    rw [Subst.apply_eq_bind] at inside
    obtain ⟨v, member, stands⟩ := Ty.mem_freeVars_bind.mp inside
    by_cases key : v ∈ s
    · have entry : s[v]? = some (s.value v) := by
        simp [Subst.value, Std.ExtTreeMap.getElem?_eq_some_getElem key]
      exact ⟨solution.apart v _ entry w stands, .inl ((solution.inside v _ entry).2 w stands)⟩
    · rw [Subst.value_of_notMem key, Ty.mem_freeVars_var] at stands
      subst stands
      exact ⟨key, .inr member⟩
  obtain ⟨_, member, here⟩ := mem_vars.mp found
  obtain ⟨⟨c, d⟩, waits, rfl⟩ := List.mem_map.mp member
  rcases here with here | here
  · obtain ⟨gone, known⟩ := side c here
    exact ⟨gone, known.imp_right fun inside => mem_vars.mpr ⟨(c, d), waits, .inl inside⟩⟩
  · obtain ⟨gone, known⟩ := side d here
    exact ⟨gone, known.imp_right fun inside => mem_vars.mpr ⟨(c, d), waits, .inr inside⟩⟩

/-- A part is lighter than the whole: as it stands it has fewer nodes, and once a variable is solved by the
    parts before it, it has fewer variables, however large it becomes. -/
theorem weight_part (split : move a b = .ok (.split (before ++ (c, d) :: after))) (solution : Solution before s) :
    Prod.Lex (· < ·) (· < ·) (weight [(s.apply c, s.apply d)]) (weight [(a, b)]) := by
  obtain ⟨smaller, inside⟩ := move_split split
  have known (w : TyVar) (member : w ∈ vars before ∨ w ∈ vars [(c, d)]) : w ∈ vars [(a, b)] := by
    have part : w ∈ vars (before ++ (c, d) :: after) := by
      rw [List.append_cons, mem_vars_append, mem_vars_append]
      exact .inl member
    simpa [vars, Std.ExtTreeSet.mem_union_iff] using inside w part
  by_cases none : s = ∅
  · subst none
    rw [Subst.apply_empty, Subst.apply_empty]
    have fewer : (vars [(c, d)]).size ≤ (vars [(a, b)]).size :=
      size_le_of_subset fun w member => known w (.inr member)
    have less : size [(c, d)] < size [(a, b)] := by
      simp only [size_append, size] at smaller ⊢
      omega
    exact Prod.Lex.right' _ fewer less
  -- A solved variable is a variable of the whole, and none of the part any more.
  · obtain ⟨k, key⟩ : ∃ k, k ∈ s := by
      simpa [Std.ExtTreeMap.eq_empty_iff_forall_not_mem] using none
    have bound : k ∈ vars [(a, b)] :=
      known k (.inl (solution.inside k _ (Std.ExtTreeMap.getElem?_eq_some_getElem key)).1)
    refine Prod.Lex.left _ _ (size_lt_of_subset bound fun w member => ?_)
    have member : w ∈ vars (apply s [(c, d)]) := member
    obtain ⟨gone, from'⟩ := solution.mem_vars_apply member
    exact ⟨fun same => gone (same ▸ key), known w from'⟩

theorem EvaluatesAll.solution (solved : EvaluatesAll ∅ before calls (.ok s)) : Solution before s := by
  have solves := solved.eq_solve.2
  rw [apply_empty] at solves
  apply solve_solution
  cases outcome : solve before with
  | error e => simp [outcome, Except.map] at solves
  | ok r => simpa [outcome, Except.map, Subst.after_empty] using solves

theorem Calls.weight_lt {callee caller : Equation} (call : Calls callee caller) :
    Prod.Lex (· < ·) (· < ·) (weight [callee]) (weight [caller]) := by
  obtain ⟨split, solved⟩ := call
  exact weight_part split solved.solution

theorem calls_wellFounded : WellFounded Calls := by
  have lighter := InvImage.wf (fun e : Equation => weight [e]) (Prod.lex Nat.lt_wfRel Nat.lt_wfRel).wf
  exact Subrelation.wf Calls.weight_lt lighter

/-! ### Every evaluation comes to an end -/

/-- What is solved so far goes on with the next equation. -/
theorem EvaluatesAll.snoc {q : Subst} : {before calls : List Equation} → {r : Subst} →
    EvaluatesAll r before calls (.ok s) → Evaluates (s.apply c) (s.apply d) others (.ok q) →
    EvaluatesAll r (before ++ [(c, d)]) (calls ++ others) (.ok (q.after s))
  | _, _, _, .nil, next => by simpa using EvaluatesAll.cons next .nil
  | _, _, _, .cons first rest, next => by
    rw [List.append_assoc]
    exact .cons first (rest.snoc next)

/-- If every call from an equation comes to an end then the parts of the equation are dealt with. -/
theorem exists_evaluatesAll (split : move a b = .ok (.split (before ++ after)))
    (solved : EvaluatesAll ∅ before calls (.ok s))
    (ends : ∀ e, Calls e (a, b) → ∃ calls result, Evaluates e.1 e.2 calls result) :
    ∃ calls result, EvaluatesAll s after calls result := by
  induction after generalizing before calls s with
  | nil => exact ⟨[], .ok s, .nil⟩
  | cons part after ih =>
    obtain ⟨c, d⟩ := part
    obtain ⟨calls', result, first⟩ := ends _ (.part split solved)
    cases result with
    | error e => exact ⟨calls', .error e, .error first⟩
    | ok r =>
      obtain ⟨others, result, rest⟩ := ih (List.append_cons .. ▸ split) (solved.snoc first)
      exact ⟨calls' ++ others, result, .cons first rest⟩

theorem exists_evaluates (a b : Ty) : ∃ calls result, Evaluates a b calls result := by
  suffices ends : ∀ e : Equation, ∃ calls result, Evaluates e.1 e.2 calls result from ends (a, b)
  intro e
  induction e using calls_wellFounded.induction with
  | _ e ih =>
    obtain ⟨a, b⟩ := e
    cases next : move a b with
    | error e => exact ⟨_, _, .error next⟩
    | ok asked =>
      cases asked with
      | bind v t => exact ⟨_, _, .bind next⟩
      | split parts =>
        have next : move a b = .ok (.split ([] ++ parts)) := next
        obtain ⟨calls, result, inner⟩ := exists_evaluatesAll next .nil ih
        exact ⟨_, result, .split next inner⟩

end

end Unify

open Unify

/-- Unification terminates on every two types. Its recursion is well founded, and the evaluation of any two
    types has an outcome, which is the one of `unify` after finitely many calls, those of the worklist. -/
theorem unify_terminates : WellFounded Calls ∧
    ∀ (a b : Ty) (calls : List Equation) (result : Except UnifyError Subst),
      Evaluates a b calls result ↔ visited [(a, b)] = calls ∧ unify a b = result := by
  refine ⟨calls_wellFounded, fun a b calls result => ?_⟩
  rw [unify_eq_solve]
  constructor
  · exact Evaluates.eq_solve
  · obtain ⟨calls', result', evaluated⟩ := exists_evaluates a b
    rintro ⟨rfl, rfl⟩
    rwa [evaluated.eq_solve.1, evaluated.eq_solve.2]

end LetPoly
