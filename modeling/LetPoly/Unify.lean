import LetPoly.Unify.Worklist

/-!
Unification of two types. The parts of an equation are solved in a frame of their own. What a frame
has solved is applied to its next equation when the turn of that equation comes, and it is handed to
the frame below at the end, so no type is rewritten before it is looked at. Main statement: the
answer is the one of the worklist (`unify_eq_solve`).
-/
namespace LetPoly

namespace Unify

/-- Equations that wait for the frames above them, and what was solved before them. -/
structure Frame where
  solved : Subst
  waiting : List Equation

/-- The equations that wait in frames, under `s`, which is solved above them. -/
def pending (s : Subst) : List Frame → List Equation
  | [] => []
  | frame :: frames =>
    let s := s.after frame.solved
    apply s frame.waiting ++ pending s frames

/-- What is solved when `s` is handed down through all frames. -/
def total (s : Subst) : List Frame → Subst
  | [] => s
  | frame :: frames => total (s.after frame.solved) frames

theorem apply_cons (s : Subst) (a b : Ty) (xs : List Equation) :
    apply s ((a, b) :: xs) = (s.apply a, s.apply b) :: apply s xs :=
  rfl

theorem apply_append (s : Subst) (xs ys : List Equation) : apply s (xs ++ ys) = apply s xs ++ apply s ys :=
  List.map_append

theorem apply_apply (s r : Subst) (xs : List Equation) : apply s (apply r xs) = apply (s.after r) xs := by
  simp [apply, Subst.apply_after]

theorem apply_empty (xs : List Equation) : apply ∅ xs = xs := by
  simp [apply, Subst.apply_empty]

theorem apply_pending (s r : Subst) (frames : List Frame) :
    apply s (pending r frames) = pending (s.after r) frames := by
  induction frames generalizing r with
  | nil => rfl
  | cons frame frames ih => simp only [pending, apply_append, apply_apply, ih, Subst.after_assoc]

theorem after_total (s r : Subst) (frames : List Frame) : s.after (total r frames) = total (s.after r) frames := by
  induction frames generalizing r with
  | nil => rfl
  | cons frame frames ih => simp only [total, ih, Subst.after_assoc]

/-- Solves the equations of a frame, of which `s` is solved, and then those of the frames below. -/
def run (s : Subst) : List Equation → List Frame → Except UnifyError Subst
  | [], [] => .ok s
  | [], frame :: frames => run (s.after frame.solved) frame.waiting frames
  | (a, b) :: rest, frames =>
    match _h : move (s.apply a) (s.apply b) with
    | .error e => .error e
    | .ok (.split parts) => run ∅ parts ({ solved := s, waiting := rest } :: frames)
    | .ok (.bind v t) => run (Subst.after (.single v t) s) rest frames
termination_by waiting frames => (weight (apply s waiting ++ pending s frames), frames.length)
decreasing_by
  · exact .right _ (Nat.lt_succ_self _)
  · apply Prod.Lex.left
    rw [apply_empty, pending, Subst.empty_after]
    exact weight_split _h
  · apply Prod.Lex.left
    rw [← apply_apply, ← apply_pending, ← apply_append]
    exact weight_bind _h

/-- A run through frames gives what the worklist of all their equations gives. -/
theorem run_eq_solve (s : Subst) (waiting : List Equation) (frames : List Frame) :
    run s waiting frames =
      (solve (apply s waiting ++ pending s frames)).map fun r => r.after (total s frames) := by
  fun_induction run s waiting frames with
  | case1 s =>
    simp only [apply, pending, List.map_nil, List.append_nil, solve, Except.map, total, Subst.empty_after]
  | case2 s frame frames ih => exact ih
  | case3 s a b rest frames e h => rw [apply_cons, List.cons_append, solve_error h, Except.map]
  | case4 s a b rest frames parts h ih =>
    rw [ih, apply_empty, apply_cons, List.cons_append, solve_split h, pending, total, Subst.empty_after]
  | case5 s a b rest frames v t h ih =>
    rw [ih, ← apply_apply, ← apply_pending, ← apply_append, ← after_total, apply_cons, List.cons_append,
      solve_bind h]
    cases solve (apply (.single v t) (apply s rest ++ pending s frames)) with
    | error e => rfl
    | ok r => exact congrArg Except.ok (Subst.after_assoc r _ _).symm

end Unify

/-- The most general substitution that makes two types equal. -/
def unify (a b : Ty) : Except UnifyError Subst :=
  Unify.run ∅ [(a, b)] []

theorem unify_eq_solve (a b : Ty) : unify a b = Unify.solve [(a, b)] := by
  rw [unify, Unify.run_eq_solve, Unify.apply_empty]
  cases h : Unify.solve [(a, b)] with
  | error e => simp [Unify.pending, h, Except.map]
  | ok s => simp [Unify.pending, Unify.total, h, Except.map, Subst.after_empty]

end LetPoly
