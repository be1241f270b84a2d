import Mathlib.Data.Nat.Basic
import LetPoly.Proofs.Unification
import LetPoly.Ty.Path

/-!
An error of unification names two parts of the given types that cannot be made equal
(`unify_error_genuine`). They stand at one place, under a substitution that makes the types equal to the
left of that place and does no more than that: every other one that does so goes through it. Main lemma:
the worklist fails at the first of its equations that cannot hold once those before it do
(`Unify.solve_blames`); a split of an equation puts one step before the path to the place.
-/
namespace LetPoly

namespace Ty

/-- The types are the same to the left of a path: at each step they have the same direct parts before the
    one that is taken. -/
def SameBefore : List Nat → Ty → Ty → Prop
  | [], _, _ => True
  | i :: path, t, u => t.parts.take i = u.parts.take i ∧
    ∀ t' u', t.parts[i]? = some t' → u.parts[i]? = some u' → SameBefore path t' u'

theorem sameBefore_self (path : List Nat) (t : Ty) : SameBefore path t t := by
  induction path generalizing t with
  | nil => trivial
  | cons i path ih =>
    refine ⟨rfl, fun t' u' here there => ?_⟩
    rw [here] at there
    cases there
    exact ih t'

end Ty

/-- What an error says of two types that meet: they clash, or one of them is a variable that occurs in the
    other one. -/
def UnifyError.About (left right : Ty) : UnifyError → Prop
  | .mismatch expected found => left = expected ∧ right = found ∧ expected.Clash found
  | .infinite v t => (left = .var v ∧ right = t ∨ left = t ∧ right = .var v) ∧ t ≠ .var v ∧ t.occurs v = true

namespace Unify
open Ty

/-- An equation cannot hold once those before it do. What is solved solves those and all to the left of a
    place in the equation, most generally, and the error is about the two types at that place. -/
structure Blame (before : List Equation) (a b : Ty) (s : Subst) (path : List Nat) (e : UnifyError) : Prop where
  solves : Unifies s.value before
  same : SameBefore path (a.bind s.value) (b.bind s.value)
  general : ∀ θ, Unifies θ before → SameBefore path (a.bind θ) (b.bind θ) → s.Holds θ
  place : ∃ left right, (a.bind s.value).at? path = some left ∧ (b.bind s.value).at? path = some right ∧
    e.About left right

section
variable {a b c d t : Ty} {v : TyVar} {e : UnifyError} {s : Subst} {path : List Nat}
  {parts before after : List Equation}

/-- An equation that cannot be solved is an error about its two sides. -/
theorem about_of_error (h : move a b = .error e) : e.About a b := by
  unfold move bindVar at h
  split at h
  · rename_i v t
    split at h
    · cases h
    · rename_i larger
      split at h <;> cases h
      rename_i inside
      exact ⟨.inl ⟨rfl, rfl⟩, larger, inside⟩
  · rename_i t v notVar
    split at h <;> cases h
    rename_i inside
    exact ⟨.inr ⟨rfl, rfl⟩, notVar v, inside⟩
  · split at h <;> cases h
    rename_i other
    exact ⟨rfl, rfl, _, _, rfl, rfl, by simpa using other⟩
  · split at h <;> cases h
    rename_i other
    exact ⟨rfl, rfl, _, _, rfl, rfl, by simpa using other⟩
  · cases h
  · split at h <;> cases h
    rename_i other
    exact ⟨rfl, rfl, _, _, rfl, rfl, by simpa using other⟩
  · cases h
    refine ⟨rfl, rfl, ?_⟩
    cases a <;> cases b <;> simp [Clash, head?] <;> grind

theorem blame_of_error (h : move a b = .error e) : Blame [] a b ∅ [] e where
  solves := by simp [Unifies]
  same := trivial
  general θ _ _ := Subst.holds_empty θ
  place := by
    rw [funext Subst.value_empty, Ty.bind_var, Ty.bind_var]
    exact ⟨a, b, rfl, rfl, about_of_error h⟩

/-! ### Splits -/

/-- The parts of an equation are the direct parts of its sides, whatever is put for variables. -/
theorem parts_of_split (h : move a b = .ok (.split parts)) (some' : parts ≠ []) (θ : TyVar → Ty) :
    (a.bind θ).parts = parts.map (fun e => e.1.bind θ) ∧ (b.bind θ).parts = parts.map fun e => e.2.bind θ := by
  unfold move bindVar at h
  split at h
  · split at h
    · cases h
      exact absurd rfl some'
    · split at h <;> cases h
  · split at h <;> cases h
  · split at h <;> cases h
    exact absurd rfl some'
  · split at h <;> cases h
    exact ⟨rfl, rfl⟩
  · cases h
    exact ⟨rfl, rfl⟩
  · rename_i ts c d us
    split at h <;> cases h
    rename_i length
    have first : ts = (ts.zip us).map Prod.fst := (List.map_fst_zip (Nat.le_of_eq length)).symm
    have second : us = (ts.zip us).map Prod.snd := (List.map_snd_zip (Nat.le_of_eq length.symm)).symm
    constructor
    · simp only [Ty.bind, Ty.parts, bindList_eq_map, List.map_cons]
      rw [first, List.map_map, ← first]
      rfl
    · simp only [Ty.bind, Ty.parts, bindList_eq_map, List.map_cons]
      rw [second, List.map_map, ← second]
      rfl
  · cases h

/-- To the left of a place in a part are the parts before it, and what is to the left in the part. -/
theorem sameBefore_split (h : move a b = .ok (.split (before ++ (c, d) :: after))) (θ : TyVar → Ty) :
    SameBefore (before.length :: path) (a.bind θ) (b.bind θ) ↔
      Unifies θ before ∧ SameBefore path (c.bind θ) (d.bind θ) := by
  obtain ⟨left, right⟩ := parts_of_split h (by simp) θ
  simp [SameBefore, left, right, Unifies]

/-- A path in a part is a path in the whole. -/
theorem at_split (h : move a b = .ok (.split (before ++ (c, d) :: after))) (θ : TyVar → Ty) :
    (a.bind θ).at? (before.length :: path) = (c.bind θ).at? path ∧
      (b.bind θ).at? (before.length :: path) = (d.bind θ).at? path := by
  obtain ⟨left, right⟩ := parts_of_split h (by simp) θ
  simp [at?, left, right]

/-- If a part of an equation is to blame then the equation is. -/
theorem Blame.of_part (h : move a b = .ok (.split (before ++ (c, d) :: after))) (blame : Blame before c d s path e) :
    Blame [] a b s (before.length :: path) e where
  solves := by simp [Unifies]
  same := (sameBefore_split h _).mpr ⟨blame.solves, blame.same⟩
  general θ _ same := by
    obtain ⟨unified, same⟩ := (sameBefore_split h θ).mp same
    exact blame.general θ unified same
  place := by
    rw [(at_split h _).1, (at_split h _).2]
    exact blame.place

/-- An equation after a split one is to blame as it is after the parts. -/
theorem Blame.of_split (h : move a b = .ok (.split parts)) (blame : Blame (parts ++ before) c d s path e) :
    Blame ((a, b) :: before) c d s path e := by
  have same (θ : TyVar → Ty) : Unifies θ ((a, b) :: before) ↔ Unifies θ (parts ++ before) := by
    rw [unifies_cons, unifies_append, unifies_split h]
  exact ⟨(same _).mpr blame.solves, blame.same, fun θ unified => blame.general θ ((same θ).mp unified), blame.place⟩

/-! ### Bindings -/

/-- An equation after a binding is to blame as it is once the binding is applied. -/
theorem Blame.of_bind (h : move a b = .ok (.bind v t))
    (blame : Blame (apply (.single v t) before) ((Subst.single v t).apply c) ((Subst.single v t).apply d) s path e) :
    Blame ((a, b) :: before) c d (s.after (.single v t)) path e where
  solves := by
    refine unifies_cons.mpr ⟨(unifies_bind h).mp (holds_bind h s), fun e member => ?_⟩
    rw [bind_after, bind_after]
    exact blame.solves _ (List.mem_map.mpr ⟨e, member, rfl⟩)
  same := by
    rw [bind_after, bind_after]
    exact blame.same
  general θ unified same := by
    obtain ⟨first, others⟩ := unifies_cons.mp unified
    have single := (unifies_bind h).mpr first
    refine Subst.Holds.after (blame.general θ ((unifies_apply single before).mpr others) ?_) single
    rw [single.bind_apply, single.bind_apply]
    exact same
  place := by
    rw [bind_after, bind_after]
    exact blame.place

/-- Where the worklist fails, one of its equations is to blame. -/
theorem solve_blames {equations : List Equation} (failed : solve equations = .error e) :
    ∃ before a b after s path, equations = before ++ (a, b) :: after ∧ Blame before a b s path e := by
  induction equations using solve.induct with
  | case1 =>
    rw [solve] at failed
    cases failed
  | case2 a b rest e' error =>
    rw [solve_error error] at failed
    cases failed
    exact ⟨[], a, b, rest, ∅, [], rfl, blame_of_error error⟩
  | case3 a b rest parts split ih =>
    rw [solve_split split] at failed
    obtain ⟨before, c, d, after, s, path, whole, blame⟩ := ih failed
    -- The equation to blame is one of the parts, or it waits behind them.
    rcases List.append_eq_append_iff.mp whole with ⟨others, rfl, waits⟩ | ⟨others, inside, waits⟩
    · exact ⟨(a, b) :: others, c, d, after, s, path, by rw [waits, List.cons_append], blame.of_split split⟩
    · cases others with
      | nil =>
        obtain rfl : parts = before := by simpa using inside
        refine ⟨[(a, b)], c, d, after, s, path, by simpa using waits.symm, Blame.of_split split ?_⟩
        rwa [List.append_nil]
      | cons first others =>
        obtain ⟨rfl, rfl⟩ := List.cons.inj waits
        subst inside
        exact ⟨[], a, b, rest, s, before.length :: path, rfl, blame.of_part split⟩
  | case4 a b rest v t bind ih =>
    rw [solve_bind bind] at failed
    have failed : solve (apply (.single v t) rest) = .error e := by
      cases rest' : solve (apply (.single v t) rest) with
      | ok r => simp [rest', Except.map] at failed
      | error e' => simpa [rest', Except.map] using failed
    obtain ⟨before, c, d, after, s, path, whole, blame⟩ := ih failed
    obtain ⟨before, others, rfl, rfl, tail⟩ := List.map_eq_append_iff.mp whole
    obtain ⟨⟨c, d⟩, after, rfl, same, rfl⟩ := List.map_eq_cons_iff.mp tail
    cases same
    exact ⟨(a, b) :: before, c, d, after, _, path, rfl, blame.of_bind bind⟩

end

end Unify

open Unify Ty

/-- An error of unification is genuine. There are a substitution and a path such that the substitution makes
    both types equal to the left of the path, everything that does so, and so every unifier, goes through it,
    and the error is about the two types at the path: they clash, or one is a variable that occurs in the
    other. -/
theorem unify_error_genuine (a b : Ty) (e : UnifyError) (failed : unify a b = .error e) :
    ∃ (s : Subst) (path : List Nat),
      SameBefore path (s.apply a) (s.apply b) ∧
      (∀ θ : Subst, SameBefore path (θ.apply a) (θ.apply b) → ∀ t, θ.apply t = θ.apply (s.apply t)) ∧
      (∀ θ : Subst, θ.apply a = θ.apply b → ∀ t, θ.apply t = θ.apply (s.apply t)) ∧
      ∃ left right, (s.apply a).at? path = some left ∧ (s.apply b).at? path = some right ∧ e.About left right := by
  rw [unify_eq_solve] at failed
  obtain ⟨before, c, d, after, s, path, whole, blame⟩ := solve_blames failed
  obtain ⟨rfl, same⟩ : before = [] ∧ (a, b) = (c, d) := by
    cases before <;> simp_all
  cases same
  have general (θ : Subst) (same : SameBefore path (θ.apply a) (θ.apply b)) (t : Ty) :
      θ.apply t = θ.apply (s.apply t) := by
    rw [Subst.apply_eq_bind, Subst.apply_eq_bind] at same
    have holds := blame.general θ.value (by simp [Unifies]) same
    rw [Subst.apply_eq_bind, Subst.apply_eq_bind, holds.bind_apply]
  have unifier (θ : Subst) (equal : θ.apply a = θ.apply b) : SameBefore path (θ.apply a) (θ.apply b) :=
    equal ▸ sameBefore_self path (θ.apply a)
  obtain ⟨_, same, _, place⟩ := blame
  simp only [← Subst.apply_eq_bind] at same place
  exact ⟨s, path, same, general, fun θ equal => general θ (unifier θ equal), place⟩

/-- The types `'t0 * ('t0 list -> 't1)` and `int * (bool list -> 't1)`. -/
def numberPair : Ty × Ty :=
  (.tuple (.var 0) (.func (.list (.var 0)) (.var 1)) [], .tuple .int (.func (.list .bool) (.var 1)) [])

/-- The types `'t0 -> 't1` and `'t1 -> 't0 list`. -/
def crossedPair : Ty × Ty :=
  (.func (.var 0) (.var 1), .func (.var 1) (.list (.var 0)))

/-- The `int` that clashes stands for a variable, and the variable that would be infinite is not the one that is
    written in the list. -/
theorem unify_error_below_variable :
    (unify numberPair.1 numberPair.2 = .error (.mismatch .int .bool) ∧
      ∃ (s : Subst) (path : List Nat), SameBefore path (s.apply numberPair.1) (s.apply numberPair.2) ∧
        (s.apply numberPair.1).at? path = some .int ∧ (s.apply numberPair.2).at? path = some .bool ∧
        Clash .int .bool) ∧
    (unify crossedPair.1 crossedPair.2 = .error (.infinite 1 (.list (.var 1))) ∧
      ∃ (s : Subst) (path : List Nat) (left right : Ty), (s.apply crossedPair.1).at? path = some left ∧
        (s.apply crossedPair.2).at? path = some right ∧ (UnifyError.infinite 1 (.list (.var 1))).About left right) := by
  have clash : unify numberPair.1 numberPair.2 = .error (.mismatch .int .bool) := by
    dsimp only [numberPair]
    cbv
  have cycle : unify crossedPair.1 crossedPair.2 = .error (.infinite 1 (.list (.var 1))) := by
    dsimp only [crossedPair]
    cbv
  obtain ⟨s, path, same, _, _, left, right, here, there, rfl, rfl, differ⟩ := unify_error_genuine _ _ _ clash
  obtain ⟨s', path', _, _, _, left', right', here', there', about⟩ := unify_error_genuine _ _ _ cycle
  exact ⟨⟨clash, s, path, same, here, there, differ⟩, cycle, s', path', left', right', here', there', about⟩

end LetPoly
