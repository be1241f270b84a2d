import LetPoly.Proofs.PatternCompleteness
import LetPoly.Proofs.TopLevel

/-!
A pattern against a type, in any state (`inferPattern_principal`): a name that is bound twice is refused
before anything else, where it stands for the second time; otherwise the pattern is inferred exactly if the
type can be replaced by one that the pattern accepts, and then what is inferred is the most general such
replacement. What has been solved or named in the item so far plays no part in it, so the pattern may be
taken to be inferred at the start of an item (`blind_inferPattern`).
-/
namespace LetPoly

/-- A substitution can have any values below a bound. -/
theorem Subst.exists_values (f : TyVar → Ty) (n : Nat) : ∃ s : Subst, ∀ v < n, s.value v = f v := by
  induction n with
  | zero => exact ⟨∅, by simp⟩
  | succ n ih =>
    obtain ⟨s, same⟩ := ih
    refine ⟨s.insert n (f n), fun v below => ?_⟩
    by_cases last : n = v
    · simp [Subst.value, last]
    · rw [← same v (by omega)]
      simp [Subst.value, Std.ExtTreeMap.getElem?_insert, last]

/-- No annotation of the pattern has a named variable. -/
def Pattern.NoNamedVars (p : Pattern) : Prop :=
  ∀ w ∈ p.written, w.varNames = []

instance (p : Pattern) : Decidable p.NoNamedVars :=
  inferInstanceAs (Decidable (∀ w ∈ p.written, w.varNames = []))

theorem Pattern.NoNamedVars.varNamesIn {p : Pattern} (unnamed : p.NoNamedVars) :
    Infer.VarNamesIn (fun _ => False) p.written := by
  intro w written name found
  simp [unnamed w written] at found

/-- The identifier is the first of the list whose name stands to its left. -/
def FirstRepeated (ids : List Ident) (id : Ident) : Prop :=
  ∃ left right, ids = left ++ id :: right ∧ (left.map Ident.name).Nodup ∧ id.name ∈ left.map Ident.name

namespace Infer
open State Typing

/-! ### Repeated names -/

theorem duplicate?_eq_some {seen : List String} {ids : List Ident} {id : Ident} :
    duplicate? seen ids = some id ↔ ∃ left right, ids = left ++ id :: right ∧ duplicate? seen left = none ∧
      (id.name ∈ seen ∨ id.name ∈ left.map Ident.name) := by
  induction ids generalizing seen with
  | nil => simp [duplicate?]
  | cons x ids ih =>
    by_cases found : x.name ∈ seen
    · simp only [duplicate?, found, if_true, Option.some.injEq]
      constructor
      · rintro rfl
        exact ⟨[], ids, rfl, rfl, .inl found⟩
      · rintro ⟨left, right, split, none, _⟩
        cases left with
        | nil => exact (List.cons.inj split).1
        | cons y left =>
          obtain ⟨rfl, rfl⟩ := List.cons.inj split
          simp [duplicate?, found] at none
    · simp only [duplicate?, found, if_false, ih]
      constructor
      · rintro ⟨left, right, rfl, none, again⟩
        refine ⟨x :: left, right, rfl, by simpa [duplicate?, found] using none, ?_⟩
        simpa [or_assoc, or_left_comm] using again
      · rintro ⟨left, right, split, none, again⟩
        cases left with
        | nil =>
          obtain ⟨rfl, rfl⟩ := List.cons.inj split
          simp [found] at again
        | cons y left =>
          obtain ⟨rfl, rfl⟩ := List.cons.inj split
          refine ⟨left, right, rfl, by simpa [duplicate?, found] using none, ?_⟩
          simpa [or_assoc, or_left_comm] using again

theorem duplicate?_firstRepeated {ids : List Ident} {id : Ident} : duplicate? [] ids = some id ↔ FirstRepeated ids id := by
  simp [duplicate?_eq_some, duplicate?_eq_none, FirstRepeated]

/-- A list has a first repeated name exactly if its names are not distinct. -/
theorem exists_firstRepeated {ids : List Ident} : (∃ id, FirstRepeated ids id) ↔ ¬ (ids.map Ident.name).Nodup := by
  have distinct : duplicate? [] ids = none ↔ (ids.map Ident.name).Nodup := by simp [duplicate?_eq_none]
  simp only [← duplicate?_firstRepeated, ← Option.isSome_iff_exists, Option.isSome_iff_ne_none]
  exact not_congr distinct

section
variable {t : Ty} {p : Pattern} {st st' : State}

/-- A pattern is refused for a name that it binds twice exactly if it does, whatever the type is. -/
theorem inferPattern_duplicate {name : String} {span : Span} :
    (∃ st', inferPattern t p st = .error (.illTyped ⟨.duplicateVariable name, span⟩) st') ↔
      FirstRepeated p.idents ⟨name, span⟩ := by
  rw [← duplicate?_firstRepeated]
  constructor
  · rintro ⟨st', run⟩
    rcases bind_error.mp run with run | ⟨_, st₁, _, run⟩
    · rw [checkDistinct_run] at run
      cases found : duplicate? [] p.idents with
      | none => simp [found] at run
      | some other =>
        simp only [found] at run
        cases run
        rfl
    · have elementary := elementary_matchPattern (N := fun _ => True) t p fun _ _ _ _ => trivial
      exact absurd trivial (elementary.not_aboutNames run)
  · intro found
    refine ⟨st, bind_error.mpr (.inl ?_)⟩
    simp [checkDistinct_run, found]

/-! ### The item so far -/

theorem blind_inferPattern (unnamed : p.NoNamedVars) : Blind (inferPattern t p) :=
  (stepwise_inferPattern t p unnamed.varNamesIn).blind

/-- At the start of an item variables that have been given out are live. -/
theorem scope_restarted {K : TyVar → Prop} (below : ∀ v, K v → v < st.next) : Scope K st.restarted where
  consistent := ⟨by simp [restarted], by simp [restarted], by simp [restarted]⟩
  live v known := ⟨below v known, by simp [restarted]⟩

/-! ### Outcomes -/

section
variable (below : ∀ v ∈ t.freeVars, v < st.next) (unnamed : p.NoNamedVars)
include below unnamed

/-- The pattern accepts what it is inferred against, and its names have types in which nothing is left to
    replace. -/
theorem inferPattern_accepts {s : Subst} {named : List (String × Ty)} (run : inferPattern t p st = .ok (s, named) st') :
    s.applyNamed named = named ∧ Accepts st.measures (Means st.measures) p (s.apply t) named := by
  obtain ⟨st₁, run⟩ := (blind_inferPattern unnamed).ok_iff.mp ⟨st', run⟩
  obtain ⟨_, reach, known, accepts⟩ := inferPattern_sound (scope_restarted below) (fun _ member => member) run
  have silent : st.restarted.Silent st₁ := by
    have changes := (stepwise_inferPattern t p unnamed.varNamesIn).changes (D := fun _ => True) st.restarted
    rw [run] at changes
    exact (unread_of_changes changes).2
  have allows : Allows st.measures (Means st.measures) st.restarted st₁ :=
    ⟨rfl, stable_means _, fun _ _ means => means silent⟩
  exact ⟨reach.solves.applyNamed_eq_self known, accepts (before_self st₁) allows⟩

/-- A pattern that accepts a replacement of the type is inferred, and what is inferred is at least as general. -/
theorem inferPattern_general {θ : TyVar → Ty} {named : List (String × Ty)} (distinct : p.names.Nodup)
    (accepts : Accepts st.measures (Means st.measures) p (t.bind θ) named)
    (enough : ∀ st', inferPattern t p st ≠ .error .outOfVariables st') :
    ∃ s types st', inferPattern t p st = .ok (s, types) st' ∧
      ∃ r : Subst, (∀ v ∈ t.freeVars, (r.after s).value v = θ v) ∧ r.applyNamed types = named := by
  have blind : Blind (inferPattern t p) := blind_inferPattern unnamed
  have completes := inferPattern_complete (θ := θ) (t := t) (scope_restarted below) rfl ⟨fun _ member => member, rfl⟩
    distinct accepts
  cases run : inferPattern t p st.restarted with
  | error e st₁ =>
    rw [run] at completes
    obtain ⟨st₂, failed⟩ := blind.error_iff.mpr ⟨st₁, run⟩
    exact absurd (completes.1 ▸ failed) (enough st₂)
  | ok out st₁ =>
    obtain ⟨s, types⟩ := out
    rw [run] at completes
    obtain ⟨θ₁, progress, known, stands⟩ := completes
    obtain ⟨st₂, done⟩ := blind.ok_iff.mpr ⟨st₁, run⟩
    -- The replacement that extends `θ` is needed only for the variables that have been given out.
    obtain ⟨r, same⟩ := Subst.exists_values θ₁ st₁.next
    have agree {u : Ty} (inside : u.In (Fits (· ∈ t.freeVars) st.restarted st₁)) : u.bind r.value = u.bind θ₁ :=
      Ty.bind_congr fun v member => same v (inside v member).1.1
    refine ⟨s, types, st₂, done, r, fun v member => ?_, ?_⟩
    · calc (r.after s).value v
        _ = (s.value v).bind r.value := Subst.value_after r s v
        _ = (s.value v).bind θ₁ := agree (progress.reach.value (scope_restarted below).live member)
        _ = θ₁ v := Subst.holds_iff.mp progress.holds v
        _ = θ v := progress.agree v (below v member)
    · rw [applyNamed_eq_bindNamed, ← stands]
      exact List.map_congr_left fun entry member => congrArg (Prod.mk entry.1) (agree (known entry member))

end

end

end Infer

open Infer Typing

/-- A pattern without named annotation variables, against a type whose variables have been given out, in any
    state: it is refused for a name that it binds twice exactly if there is one, at the first that stands to the
    right of the same name; what is inferred gives types to its names in order, with nothing left to replace in
    them, and the pattern accepts it; and where the pattern accepts a replacement of the type, it is inferred as
    long as numbers are left for new variables, and that replacement goes through what is inferred. -/
theorem inferPattern_principal (t : Ty) (p : Pattern) (st : State) (below : ∀ v ∈ t.freeVars, v < st.next)
    (unnamed : p.NoNamedVars) :
    ((∃ name span st', inferPattern t p st = .error (.illTyped ⟨.duplicateVariable name, span⟩) st') ↔
      ¬ p.names.Nodup) ∧
    (∀ name span st', inferPattern t p st = .error (.illTyped ⟨.duplicateVariable name, span⟩) st' →
      FirstRepeated p.idents ⟨name, span⟩) ∧
    (∀ s named st', inferPattern t p st = .ok (s, named) st' →
      named.map Prod.fst = p.names ∧ s.applyNamed named = named ∧
      Accepts st.measures (Means st.measures) p (s.apply t) named) ∧
    (∀ θ named, p.names.Nodup → Accepts st.measures (Means st.measures) p (t.bind θ) named →
      (∀ st', inferPattern t p st ≠ .error .outOfVariables st') →
      ∃ s types st', inferPattern t p st = .ok (s, types) st' ∧
        ∃ r : Subst, (∀ v ∈ t.freeVars, (r.after s).value v = θ v) ∧ r.applyNamed types = named) := by
  refine ⟨?_, ?_, ?_, ?_⟩
  · simp only [inferPattern_duplicate, Pattern.names, ← exists_firstRepeated]
    exact ⟨fun ⟨name, span, first⟩ => ⟨⟨name, span⟩, first⟩, fun ⟨id, first⟩ => ⟨id.name, id.span, first⟩⟩
  · intro name span st' run
    exact inferPattern_duplicate.mp ⟨st', run⟩
  · intro s named st' run
    exact ⟨inferPattern_names run, inferPattern_accepts below unnamed run⟩
  · intro θ named distinct accepts enough
    exact inferPattern_general below unnamed distinct accepts enough

/-- The pattern `(x, [y])`. -/
def sharingPattern : Pattern :=
  .tuple [.ident ⟨"x", {}⟩, .list [.ident ⟨"y", {}⟩] {}] {}

/-- The pattern `(x, _ :: x)`. -/
def repeatingPattern : Pattern :=
  .tuple [.ident ⟨"x", {}⟩, .cons (.wild {}) (.ident ⟨"x", {}⟩) {}] {}

/-- A state in the middle of an item, with an equation for `'t0`. -/
def midState : State :=
  { next := 3, named := (∅ : Std.ExtTreeMap String TyVar compare).insert "a" 1, solved := (∅ : Subst).insert 0 .int }

theorem sharingPattern_run : inferPattern (.tuple (.var 0) (.var 0) []) sharingPattern midState =
    .ok ((((∅ : Subst).insert 0 (.list (.var 5))).insert 3 (.list (.var 5))).insert 4 (.list (.var 5)),
        [("x", .list (.var 5)), ("y", .var 5)])
      { midState with
        next := 6
        solved := (midState.solved.insert 3 (.list (.var 5))).insert 4 (.list (.var 5))
        journal := #[.equated (.tuple (.var 0) (.var 0) []) (.tuple (.var 3) (.var 4) []),
          .equated (.var 4) (.list (.var 5))] } := by
  cbv

/-- A tuple of two equal components is split, though `'t0` has a solution in the state, and the types of both
    names follow the second; a name in both components is refused. -/
theorem sharingPattern_principal :
    (∃ s types st', inferPattern (.tuple (.var 0) (.var 0) []) sharingPattern midState = .ok (s, types) st' ∧
      Accepts ∅ (Means ∅) sharingPattern (s.apply (.tuple (.var 0) (.var 0) [])) types ∧
      ∃ r : Subst, (r.after s).value 0 = .list .int ∧ r.applyNamed types = [("x", .list .int), ("y", .int)]) ∧
    ∃ name span st', inferPattern (.var 0) repeatingPattern midState =
      .error (.illTyped ⟨.duplicateVariable name, span⟩) st' := by
  have accepts : Accepts ∅ (Means ∅) sharingPattern (.tuple (.list .int) (.list .int) [])
      [("x", .list .int), ("y", .int)] :=
    .tuple {} (.cons (.ident ⟨"x", {}⟩ _) (.cons (.list {} (.cons (.ident ⟨"y", {}⟩ _) .nil)) .nil))
  constructor
  · obtain ⟨_, _, sound, general⟩ := inferPattern_principal (.tuple (.var 0) (.var 0) []) sharingPattern midState
      (by simp [Ty.freeVars, Ty.freeVarsList, midState]) (by decide)
    obtain ⟨s, types, st', run, r, values, named⟩ := general (fun _ => .list .int) _ (by decide) accepts
      (by simp [sharingPattern_run])
    exact ⟨s, types, st', run, (sound s types st' run).2.2, r, values 0 (by simp [Ty.freeVars]), named⟩
  · obtain ⟨refused, _⟩ := inferPattern_principal (.var 0) repeatingPattern midState (by simp [midState]) (by decide)
    exact refused.mpr (by decide)

/-- A state in which no number is left for a new variable. -/
def fullState : State :=
  { next := varLimit - 1 }

/-- A pattern that accepts a replacement of the type is not inferred where no number is left for a new
    variable. -/
theorem fullState_exhausted :
    (∀ v ∈ (Ty.var 0).freeVars, v < fullState.next) ∧
    (Pattern.some (.ident ⟨"y", {}⟩) {}).NoNamedVars ∧ (Pattern.some (.ident ⟨"y", {}⟩) {}).names.Nodup ∧
    Accepts fullState.measures (Means fullState.measures) (.some (.ident ⟨"y", {}⟩) {})
      ((Ty.var 0).bind fun _ => .option .int) [("y", .int)] ∧
    ∀ out st', inferPattern (.var 0) (.some (.ident ⟨"y", {}⟩) {}) fullState ≠ .ok out st' := by
  have run : inferPattern (.var 0) (.some (.ident ⟨"y", {}⟩) {}) fullState = .error .outOfVariables fullState := by cbv
  refine ⟨by simp [fullState, varLimit], by decide, by decide, .some {} (.ident ⟨"y", {}⟩ .int), ?_⟩
  simp [run]

end LetPoly
