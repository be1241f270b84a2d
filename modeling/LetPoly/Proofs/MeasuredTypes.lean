import LetPoly.Proofs.Instances
import LetPoly.Ty.Measured

/-!
Types whose measures are in order (`Ty.MeasuredIn`): every measure stands on a number type, is not the
dimensionless one, and has its names in a given set. A measure stands on no variable, so substitution keeps
measures in order, and a unifier puts only parts of its equations for variables
(`measuredIn_of_unify`).
-/
namespace LetPoly

namespace Ty

theorem mem_measureNamesList {name : String} {ts : List Ty} :
    name ∈ measureNamesList ts ↔ ∃ t ∈ ts, name ∈ t.measureNames := by
  induction ts with
  | nil => simp [measureNamesList]
  | cons t ts ih => simp [measureNamesList, ih]

/-- Every measure in the type stands on a number type, is not the dimensionless one, and has its names in
    `N`. -/
structure MeasuredIn (N : String → Prop) (t : Ty) : Prop where
  well : t.WellMeasured
  names : ∀ name ∈ t.measureNames, N name

section
variable {N : String → Prop} {t a b : Ty} {ts : List Ty} {m : Measure}

@[simp] theorem measuredIn_prim (p : Prim) : (Ty.prim p).MeasuredIn N :=
  ⟨.prim p, by simp [measureNames]⟩

@[simp] theorem measuredIn_var (v : TyVar) : (Ty.var v).MeasuredIn N :=
  ⟨.var v, by simp [measureNames]⟩

@[simp] theorem measuredIn_list : (Ty.list t).MeasuredIn N ↔ t.MeasuredIn N := by
  refine ⟨fun ⟨well, names⟩ => ⟨?_, names⟩, fun ⟨well, names⟩ => ⟨.list well, names⟩⟩
  cases well
  assumption

@[simp] theorem measuredIn_option : (Ty.option t).MeasuredIn N ↔ t.MeasuredIn N := by
  refine ⟨fun ⟨well, names⟩ => ⟨?_, names⟩, fun ⟨well, names⟩ => ⟨.option well, names⟩⟩
  cases well
  assumption

@[simp] theorem measuredIn_measured :
    (Ty.measured t m).MeasuredIn N ↔ (t = .int ∨ t = .float) ∧ m ≠ .one ∧ ∀ name ∈ m.names, N name := by
  constructor
  · rintro ⟨well, names⟩
    cases well with
    | measured number other =>
      exact ⟨number, other, fun name member => names name (List.mem_append_left _ member)⟩
  · rintro ⟨number, other, names⟩
    refine ⟨.measured number other, ?_⟩
    rcases number with rfl | rfl <;> simpa [measureNames, Wrapper.measureNames] using names

@[simp] theorem measuredIn_func : (Ty.func a b).MeasuredIn N ↔ a.MeasuredIn N ∧ b.MeasuredIn N := by
  constructor
  · rintro ⟨well, names⟩
    rw [measureNames, List.forall_mem_append] at names
    cases well with
    | func first second => exact ⟨⟨first, names.1⟩, second, names.2⟩
  · rintro ⟨first, second⟩
    exact ⟨.func first.well second.well, List.forall_mem_append.mpr ⟨first.names, second.names⟩⟩

@[simp] theorem measuredIn_tuple :
    (Ty.tuple a b ts).MeasuredIn N ↔ a.MeasuredIn N ∧ b.MeasuredIn N ∧ ∀ t ∈ ts, t.MeasuredIn N := by
  constructor
  · rintro ⟨well, names⟩
    rw [measureNames, List.forall_mem_append, List.forall_mem_append] at names
    cases well with
    | tuple first second rest =>
      refine ⟨⟨first, names.1.1⟩, ⟨second, names.1.2⟩, fun t member => ⟨rest t member, fun name inside => ?_⟩⟩
      exact names.2 name (mem_measureNamesList.mpr ⟨t, member, inside⟩)
  · rintro ⟨first, second, rest⟩
    refine ⟨.tuple first.well second.well fun t member => (rest t member).well, ?_⟩
    rw [measureNames, List.forall_mem_append, List.forall_mem_append]
    refine ⟨⟨first.names, second.names⟩, fun name member => ?_⟩
    obtain ⟨t, member, inside⟩ := mem_measureNamesList.mp member
    exact (rest t member).names name inside

theorem measuredIn_withMeasure (number : t = .int ∨ t = .float) (names : ∀ name ∈ m.names, N name) :
    (t.withMeasure m).MeasuredIn N := by
  cases m with
  | one => rcases number with rfl | rfl <;> exact measuredIn_prim _
  | _ => exact measuredIn_measured.mpr ⟨number, by simp, names⟩

/-- A measure stands on no variable, so what is put for variables does not come below one. -/
theorem MeasuredIn.bind {θ : TyVar → Ty} (inside : t.MeasuredIn N) (values : ∀ v, (θ v).MeasuredIn N) :
    (t.bind θ).MeasuredIn N := by
  induction t with
  | prim p => exact inside
  | var v => exact values v
  | wrap w t ih =>
    cases w with
    | list => exact measuredIn_list.mpr (ih (measuredIn_list.mp inside))
    | option => exact measuredIn_option.mpr (ih (measuredIn_option.mp inside))
    | measured m =>
      obtain ⟨rfl | rfl, _⟩ := measuredIn_measured.mp inside
      · exact inside
      · exact inside
  | func a b iha ihb =>
    obtain ⟨first, second⟩ := measuredIn_func.mp inside
    exact measuredIn_func.mpr ⟨iha first, ihb second⟩
  | tuple a b ts iha ihb ihs =>
    obtain ⟨first, second, rest⟩ := measuredIn_tuple.mp inside
    rw [Ty.bind, bindList_eq_map]
    refine measuredIn_tuple.mpr ⟨iha first, ihb second, ?_⟩
    simp only [List.mem_map, forall_exists_index, and_imp, forall_apply_eq_imp_iff₂]
    exact fun t member => ihs t member (rest t member)

theorem measuredIn_of_tupleOf? (found : tupleOf? ts = some t) (inside : ∀ t ∈ ts, t.MeasuredIn N) :
    t.MeasuredIn N := by
  match ts, found with
  | a :: b :: ts, rfl => simpa using inside

end

end Ty

/-- All types that stand for variables have their measures in `N`. -/
def Subst.MeasuredIn (N : String → Prop) (s : Subst) : Prop :=
  ∀ v, (s.value v).MeasuredIn N

/-- All schemes have their measures in `N`. -/
def Env.MeasuredIn (N : String → Prop) (Γ : Env) : Prop :=
  ∀ (name : String) (σ : Scheme), Γ[name]? = some σ → σ.ty.MeasuredIn N

/-- All named types have their measures in `N`. -/
def NamedMeasuredIn (N : String → Prop) (named : List (String × Ty)) : Prop :=
  ∀ entry ∈ named, entry.2.MeasuredIn N

section
variable {N : String → Prop} {s r : Subst} {t a b : Ty} {Γ : Env} {named others : List (String × Ty)}

namespace Subst

@[simp] theorem measuredIn_empty : (∅ : Subst).MeasuredIn N := fun v => by
  rw [value_empty]
  exact Ty.measuredIn_var v

theorem MeasuredIn.apply (solved : s.MeasuredIn N) (inside : t.MeasuredIn N) : (s.apply t).MeasuredIn N := by
  rw [apply_eq_bind]
  exact inside.bind solved

theorem MeasuredIn.after (outer : s.MeasuredIn N) (inner : r.MeasuredIn N) : (s.after r).MeasuredIn N := fun v => by
  rw [value_after]
  exact (inner v).bind outer

theorem measuredIn_single {v : TyVar} (inside : t.MeasuredIn N) : (single v t).MeasuredIn N := fun w => by
  rw [value_single]
  split
  · exact inside
  · exact Ty.measuredIn_var w

theorem MeasuredIn.union (first : s.MeasuredIn N) (second : r.MeasuredIn N) : (s ∪ r).MeasuredIn N := fun v => by
  rw [value, Std.ExtTreeMap.getElem?_union]
  cases found : r[v]? with
  | some t => simpa [value, found] using second v
  | none => exact first v

theorem MeasuredIn.applyNamed (solved : s.MeasuredIn N) (inside : NamedMeasuredIn N named) :
    NamedMeasuredIn N (s.applyNamed named) := by
  intro entry member
  obtain ⟨entry, found, rfl⟩ := List.mem_map.mp member
  exact solved.apply (inside entry found)

end Subst

theorem namedMeasuredIn_append :
    NamedMeasuredIn N (named ++ others) ↔ NamedMeasuredIn N named ∧ NamedMeasuredIn N others :=
  List.forall_mem_append

namespace Env

theorem MeasuredIn.subst (inside : Γ.MeasuredIn N) (solved : s.MeasuredIn N) : (Γ.subst s).MeasuredIn N := by
  intro name τ look
  rw [getElem?_subst, Option.map_eq_some_iff] at look
  obtain ⟨σ, look, rfl⟩ := look
  refine (inside name σ look).bind fun v => ?_
  split
  · exact Ty.measuredIn_var v
  · exact solved v

theorem MeasuredIn.extend {entries : List (String × Scheme)} (inside : Γ.MeasuredIn N)
    (added : ∀ entry ∈ entries, entry.2.ty.MeasuredIn N) : (Γ.extend entries).MeasuredIn N := by
  intro name σ look
  rcases getElem?_extend look with look | member
  · exact inside name σ look
  · exact added _ member

theorem MeasuredIn.extendMono (inside : Γ.MeasuredIn N) (added : NamedMeasuredIn N named) :
    (Γ.extendMono named).MeasuredIn N := by
  refine inside.extend fun entry member => ?_
  obtain ⟨entry, found, rfl⟩ := List.mem_map.mp member
  exact added entry found

theorem MeasuredIn.bodyEnv (inside : Γ.MeasuredIn N) (added : NamedMeasuredIn N named) :
    (Typing.bodyEnv Γ named).MeasuredIn N := by
  refine inside.extend fun entry member => ?_
  obtain ⟨entry, found, rfl⟩ := List.mem_map.mp member
  exact added entry found

end Env

/-! ### Unification -/

namespace Unify

/-- Both sides of all equations have their measures in `N`. -/
def MeasuredIn (N : String → Prop) (equations : List Equation) : Prop :=
  ∀ e ∈ equations, e.1.MeasuredIn N ∧ e.2.MeasuredIn N

theorem MeasuredIn.of_split {parts : List Equation} (first : a.MeasuredIn N) (second : b.MeasuredIn N)
    (h : move a b = .ok (.split parts)) : MeasuredIn N parts := by
  unfold move bindVar at h
  split at h
  · split at h
    · cases h
      simp [MeasuredIn]
    · split at h <;> cases h
  · split at h <;> cases h
  · split at h <;> cases h
    simp [MeasuredIn]
  · rename_i w t x u
    split at h <;> cases h
    rename_i same
    subst same
    cases w with
    | list | option => simpa [MeasuredIn] using And.intro first second
    | measured m =>
      obtain ⟨rfl | rfl, _⟩ := Ty.measuredIn_measured.mp first <;>
        obtain ⟨rfl | rfl, _⟩ := Ty.measuredIn_measured.mp second <;> simp [MeasuredIn]
  · cases h
    simp only [Ty.measuredIn_func] at first second
    simp [MeasuredIn, first, second]
  · rename_i a b ts c d us
    split at h <;> cases h
    obtain ⟨firstA, firstB, firsts⟩ := Ty.measuredIn_tuple.mp first
    obtain ⟨secondC, secondD, seconds⟩ := Ty.measuredIn_tuple.mp second
    intro e member
    rcases List.mem_cons.mp member with rfl | member
    · exact ⟨firstA, secondC⟩
    rcases List.mem_cons.mp member with rfl | member
    · exact ⟨firstB, secondD⟩
    exact ⟨firsts _ (List.of_mem_zip member).1, seconds _ (List.of_mem_zip member).2⟩
  · cases h

theorem MeasuredIn.of_bind {v : TyVar} (first : a.MeasuredIn N) (second : b.MeasuredIn N)
    (h : move a b = .ok (.bind v t)) : t.MeasuredIn N := by
  rcases (move_bind h).2 with ⟨_, rfl⟩ | ⟨rfl, _⟩
  · exact second
  · exact first

/-- No unifier puts a variable or a type without measure below a measure: what it puts for variables are
    parts of the equations. -/
theorem MeasuredIn.solve {equations : List Equation} (inside : MeasuredIn N equations)
    (h : solve equations = .ok s) : s.MeasuredIn N := by
  fun_induction Unify.solve equations generalizing s with
  | case1 =>
    cases h
    exact Subst.measuredIn_empty
  | case2 => cases h
  | case3 a b rest parts split ih =>
    obtain ⟨sides, rest⟩ := List.forall_mem_cons.mp inside
    exact ih (List.forall_mem_append.mpr ⟨MeasuredIn.of_split sides.1 sides.2 split, rest⟩) h
  | case4 a b rest v t binds ih =>
    obtain ⟨sides, rest⟩ := List.forall_mem_cons.mp inside
    have bound : (Subst.single v t).MeasuredIn N := Subst.measuredIn_single (MeasuredIn.of_bind sides.1 sides.2 binds)
    cases solved : Unify.solve (apply (.single v t) _) with
    | error e =>
      rw [solved] at h
      cases h
    | ok r =>
      rw [solved] at h
      cases h
      refine (ih ?_ solved).after bound
      intro e member
      obtain ⟨e, found, rfl⟩ := List.mem_map.mp member
      exact ⟨bound.apply (rest e found).1, bound.apply (rest e found).2⟩

end Unify

theorem measuredIn_of_unify (first : a.MeasuredIn N) (second : b.MeasuredIn N) (h : unify a b = .ok s) :
    s.MeasuredIn N := by
  rw [unify_eq_solve] at h
  exact Unify.MeasuredIn.solve (by simp [Unify.MeasuredIn, first, second]) h

end

end LetPoly
