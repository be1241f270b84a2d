import LetPoly.Unify

/-!
Unification gives the most general solution. Replacements of variables are functions from variables
to types; one makes two types equal if both become the same type under it. A substitution `s` holds
under `θ` if `θ` makes every variable equal to what `s` puts for it, so that applying `s` first
changes nothing (`Holds.bind_apply`). Main statement: the worklist fails if no replacement makes all
equations hold, and what it returns otherwise holds under every one that does
(`Unify.solve_solution`, `Unify.solve_complete`).
-/
namespace LetPoly

namespace Subst

/-- Every variable is equal to what the substitution puts for it, once `θ` replaces variables. -/
def Holds (s : Subst) (θ : TyVar → Ty) : Prop :=
  ∀ (k : TyVar) (t : Ty), s[k]? = some t → θ k = t.bind θ

theorem holds_iff {s : Subst} {θ : TyVar → Ty} : s.Holds θ ↔ ∀ v, (s.value v).bind θ = θ v := by
  constructor
  · intro holds v
    cases h : s[v]? with
    | none => simp [value, h, Ty.bind]
    | some t => simp [value, h, holds v t h]
  · intro same k t h
    simpa [value, h] using (same k).symm

theorem Holds.bind_apply {s : Subst} {θ : TyVar → Ty} (holds : s.Holds θ) (t : Ty) :
    (s.apply t).bind θ = t.bind θ := by
  rw [apply_eq_bind, Ty.bind_bind, funext (holds_iff.mp holds)]

theorem holds_empty (θ : TyVar → Ty) : (∅ : Subst).Holds θ := by
  intro k t h
  simp at h

theorem holds_single {v : TyVar} {t : Ty} {θ : TyVar → Ty} : (single v t).Holds θ ↔ θ v = t.bind θ := by
  constructor
  · intro holds
    exact holds v t (by simp [single])
  · intro same k u h
    by_cases equal : v = k
    · subst equal
      have : t = u := by simpa [single] using h
      exact this ▸ same
    · simp [single, equal] at h

theorem Holds.after {s r : Subst} {θ : TyVar → Ty} (outer : s.Holds θ) (inner : r.Holds θ) :
    (s.after r).Holds θ := by
  rw [holds_iff] at *
  intro v
  rw [value_after, Ty.bind_bind, funext outer, inner v]

theorem getElem?_single {v w : TyVar} {t u : Ty} : (single v t)[w]? = some u ↔ v = w ∧ t = u := by
  by_cases same : v = w
  · simp [single, same]
  · simp [single, same]

theorem mem_single {v w : TyVar} {t : Ty} : w ∈ single v t ↔ w = v := by
  simp [single, Std.LawfulEqCmp.compare_eq_iff_eq, eq_comm (a := w)]

/-- The keys of `s.after r` are those of both. -/
theorem mem_after {s r : Subst} {v : TyVar} : v ∈ s.after r ↔ v ∈ r ∨ v ∈ s := by
  rw [Std.ExtTreeMap.mem_iff_isSome_getElem?, getElem?_after, Option.isSome_or]
  simp

theorem value_of_notMem {s : Subst} {v : TyVar} (missing : v ∉ s) : s.value v = .var v := by
  simp [value, Std.ExtTreeMap.getElem?_eq_none missing]

/-- A type without keys of the substitution stays as it is. -/
theorem apply_eq_self {s : Subst} {t : Ty} (missing : ∀ v ∈ t.freeVars, v ∉ s) : s.apply t = t := by
  rw [apply_eq_bind, Ty.bind_congr fun v member => value_of_notMem (missing v member), Ty.bind_var]

end Subst

namespace Unify

/-- Both sides of every equation become the same type. -/
def Unifies (θ : TyVar → Ty) (equations : List Equation) : Prop :=
  ∀ e ∈ equations, e.1.bind θ = e.2.bind θ

theorem unifies_cons {θ : TyVar → Ty} {a b : Ty} {rest : List Equation} :
    Unifies θ ((a, b) :: rest) ↔ a.bind θ = b.bind θ ∧ Unifies θ rest := by
  simp [Unifies]

theorem unifies_append {θ : TyVar → Ty} {xs ys : List Equation} :
    Unifies θ (xs ++ ys) ↔ Unifies θ xs ∧ Unifies θ ys := by
  simp [Unifies, or_imp, forall_and]

theorem unifies_zip {θ : TyVar → Ty} {ts us : List Ty} (length : ts.length = us.length) :
    Unifies θ (ts.zip us) ↔ Ty.bindList θ ts = Ty.bindList θ us := by
  induction ts generalizing us with
  | nil =>
    cases us with
    | nil => simp [Unifies]
    | cons u us => cases length
  | cons t ts ih =>
    cases us with
    | nil => cases length
    | cons u us =>
      rw [List.zip_cons_cons, unifies_cons, ih (by simpa using length)]
      simp [Ty.bindList]

/-- A substitution that holds under `θ` does not change which equations `θ` makes hold. -/
theorem unifies_apply {s : Subst} {θ : TyVar → Ty} (holds : s.Holds θ) (equations : List Equation) :
    Unifies θ (apply s equations) ↔ Unifies θ equations := by
  constructor
  · intro unified e member
    have := unified _ (List.mem_map.mpr ⟨e, member, rfl⟩)
    rwa [holds.bind_apply, holds.bind_apply] at this
  · intro unified e member
    obtain ⟨⟨a, b⟩, member', rfl⟩ := List.mem_map.mp member
    rw [holds.bind_apply, holds.bind_apply]
    exact unified (a, b) member'

/-! ### Moves -/

/-- An equation holds exactly if its parts do. -/
theorem unifies_split {θ : TyVar → Ty} {a b : Ty} {parts : List Equation}
    (h : move a b = .ok (.split parts)) : Unifies θ parts ↔ a.bind θ = b.bind θ := by
  unfold move bindVar at h
  split at h
  · split at h
    · rename_i same
      cases h
      simp [Unifies, same]
    · split at h <;> cases h
  · split at h <;> cases h
  · split at h <;> cases h
    rename_i same
    simp [Unifies, same]
  · split at h <;> cases h
    rename_i same
    simp [Unifies, Ty.bind, same]
  · cases h
    simp [Unifies, Ty.bind]
  · split at h <;> cases h
    rename_i length
    rw [unifies_cons, unifies_cons, unifies_zip length]
    simp [Ty.bind]
  · cases h

/-- An equation that binds a variable holds exactly if the binding does. -/
theorem unifies_bind {θ : TyVar → Ty} {a b t : Ty} {v : TyVar} (h : move a b = .ok (.bind v t)) :
    (Subst.single v t).Holds θ ↔ a.bind θ = b.bind θ := by
  rw [Subst.holds_single]
  obtain ⟨_, ⟨rfl, rfl⟩ | ⟨rfl, rfl⟩⟩ := move_bind h
  · rfl
  · exact eq_comm

theorem size_le_sizeList {t : Ty} {ts : List Ty} (member : t ∈ ts) : t.size ≤ Ty.sizeList ts := by
  induction ts with
  | nil => cases member
  | cons u us ih =>
    simp only [Ty.sizeList]
    rcases List.mem_cons.mp member with rfl | member
    · omega
    · have := ih member
      omega

/-- What stands for a variable of a type is smaller than the type that comes out, unless the type is
    that variable. -/
theorem size_lt_size_bind {v : TyVar} {t : Ty} (θ : TyVar → Ty) (inside : v ∈ t.freeVars) :
    t = .var v ∨ (θ v).size < (t.bind θ).size := by
  have le {u : Ty} (smaller : u = .var v ∨ (θ v).size < (u.bind θ).size) : (θ v).size ≤ (u.bind θ).size := by
    rcases smaller with rfl | smaller
    · exact Nat.le_refl _
    · exact Nat.le_of_lt smaller
  induction t with
  | prim p => simp [Ty.freeVars] at inside
  | var w => exact .inl (by rw [Ty.mem_freeVars_var.mp inside])
  | wrap w t ih => exact .inr (Nat.lt_succ_of_le (le (ih inside)))
  | func a b iha ihb =>
    simp only [Ty.freeVars, Std.ExtTreeSet.mem_union_iff] at inside
    simp only [Ty.bind, Ty.size]
    rcases inside with inside | inside
    · have := le (iha inside)
      omega
    · have := le (ihb inside)
      omega
  | tuple a b ts iha ihb ihs =>
    simp only [Ty.freeVars, Std.ExtTreeSet.mem_union_iff, Ty.mem_freeVarsList] at inside
    simp only [Ty.bind, Ty.size]
    rcases inside with (inside | inside) | ⟨t, member, inside⟩
    · have := le (iha inside)
      omega
    · have := le (ihb inside)
      omega
    · have := le (ihs t member inside)
      have part : (t.bind θ).size ≤ Ty.sizeList (Ty.bindList θ ts) :=
        size_le_sizeList (by simpa [Ty.bindList_eq_map] using ⟨t, member, rfl⟩)
      omega

/-- No replacement makes a variable equal to a larger type in which it occurs. -/
theorem bind_ne_of_occurs {v : TyVar} {t : Ty} (θ : TyVar → Ty) (inside : t.occurs v = true)
    (larger : t ≠ .var v) : θ v ≠ t.bind θ := by
  intro same
  rcases size_lt_size_bind θ (Ty.mem_freeVars_iff.mpr inside) with equal | less
  · exact larger equal
  · rw [← same] at less
    exact Nat.lt_irrefl _ less

/-- An equation that cannot be solved holds under no replacement. -/
theorem bind_ne_of_error {a b : Ty} {e : UnifyError} (h : move a b = .error e) (θ : TyVar → Ty) :
    a.bind θ ≠ b.bind θ := by
  unfold move bindVar at h
  split at h
  · rename_i v t
    split at h
    · cases h
    · rename_i larger
      split at h
      · rename_i inside
        exact bind_ne_of_occurs θ inside larger
      · cases h
  · rename_i t v notVar
    split at h
    · rename_i inside
      exact (bind_ne_of_occurs θ inside fun equal => notVar v equal).symm
    · cases h
  · split at h
    · cases h
    · rename_i other
      simpa [Ty.bind] using other
  · split at h
    · cases h
    · rename_i other
      simp [Ty.bind, other]
  · cases h
  · rename_i a b ts c d us
    split at h
    · cases h
    · rename_i other
      intro same
      simp only [Ty.bind, Ty.bindList_eq_map, Ty.tuple.injEq] at same
      exact other (by simpa using congrArg List.length same.2.2)
  · cases a <;> cases b <;> grind [Ty.bind]

/-! ### The worklist -/

/-- The most general solution of equations: it solves them, it holds under every other solution, it
    speaks of their variables only, and no key occurs in a value. -/
structure Solution (equations : List Equation) (s : Subst) : Prop where
  unifies : Unifies s.value equations
  general : ∀ θ, Unifies θ equations → s.Holds θ
  inside : ∀ (k : TyVar) (t : Ty), s[k]? = some t → k ∈ vars equations ∧ ∀ v ∈ t.freeVars, v ∈ vars equations
  apart : ∀ (k : TyVar) (t : Ty), s[k]? = some t → ∀ v ∈ t.freeVars, v ∉ s

theorem solution_nil : Solution [] ∅ := by
  refine ⟨?_, ?_, ?_, ?_⟩
  · intro e member
    cases member
  · intro θ _
    exact Subst.holds_empty θ
  · intro k t found
    simp at found
  · intro k t found
    simp at found

/-- A split changes the equations, not their solutions. -/
theorem Solution.of_split {a b : Ty} {parts rest : List Equation} {s : Subst}
    (h : move a b = .ok (.split parts)) (solution : Solution (parts ++ rest) s) : Solution ((a, b) :: rest) s := by
  have same (θ : TyVar → Ty) : Unifies θ ((a, b) :: rest) ↔ Unifies θ (parts ++ rest) := by
    rw [unifies_cons, unifies_append, unifies_split h]
  have inside (v : TyVar) (member : v ∈ vars (parts ++ rest)) : v ∈ vars ((a, b) :: rest) := by
    obtain ⟨e, found, here⟩ := mem_vars.mp member
    rcases List.mem_append.mp found with found | found
    · exact mem_vars.mpr ⟨(a, b), List.mem_cons_self, (move_split h).2 v (mem_vars.mpr ⟨e, found, here⟩)⟩
    · exact mem_vars.mpr ⟨e, List.mem_cons_of_mem _ found, here⟩
  refine ⟨(same _).mpr solution.unifies, fun θ unified => solution.general θ ((same θ).mp unified), ?_,
    solution.apart⟩
  intro k t found
  obtain ⟨key, value⟩ := solution.inside k t found
  exact ⟨inside k key, fun v member => inside v (value v member)⟩

theorem bind_after (s r : Subst) (u : Ty) : u.bind (s.after r).value = (r.apply u).bind s.value := by
  rw [Subst.apply_eq_bind, Ty.bind_bind, funext (Subst.value_after s r)]

/-- A binding holds under itself with anything put after it. -/
theorem holds_bind {a b t : Ty} {v : TyVar} (h : move a b = .ok (.bind v t)) (s : Subst) :
    (Subst.single v t).Holds (s.after (.single v t)).value := by
  have fresh : v ∉ t.freeVars := fun member => by
    have := (move_bind h).1
    simp [Ty.mem_freeVars_iff.mp member] at this
  rw [Subst.holds_single, bind_after, Subst.value_after, Subst.value_single, if_pos rfl, Subst.apply_eq_self]
  intro w member
  rw [Subst.mem_single]
  exact fun same => fresh (same ▸ member)

/-- A binding and the solution of what is left of the other equations together solve all of them. -/
theorem Solution.of_bind {a b t : Ty} {v : TyVar} {rest : List Equation} {s : Subst}
    (h : move a b = .ok (.bind v t)) (solution : Solution (apply (.single v t) rest) s) :
    Solution ((a, b) :: rest) (s.after (.single v t)) := by
  have fresh : v ∉ t.freeVars := fun member => by
    have := (move_bind h).1
    simp [Ty.mem_freeVars_iff.mp member] at this
  obtain ⟨bound, inside⟩ := move_bind_vars h rest
  have waits (w : TyVar) (member : w ∈ vars (apply (.single v t) rest)) :
      w ≠ v ∧ w ∈ vars ((a, b) :: rest) := by
    obtain ⟨other, from' | from'⟩ := mem_vars_apply_single fresh member
    · exact ⟨other, inside w from'⟩
    · obtain ⟨e, found, here⟩ := mem_vars.mp from'
      exact ⟨other, mem_vars.mpr ⟨e, List.mem_cons_of_mem _ found, here⟩⟩
  -- what `s` puts for a variable other than `v` is made of variables that are neither `v` nor keys
  have value (w x : TyVar) (other : w ≠ v) (member : x ∈ (s.value w).freeVars) :
      (x ≠ v ∧ x ∉ s) ∧ (x = w ∨ x ∈ vars ((a, b) :: rest)) := by
    by_cases key : w ∈ s
    · have found : s[w]? = some (s.value w) := by
        simp [Subst.value, Std.ExtTreeMap.getElem?_eq_some_getElem key]
      have place := waits x ((solution.inside w _ found).2 x member)
      exact ⟨⟨place.1, solution.apart w _ found x member⟩, .inr place.2⟩
    · rw [Subst.value_of_notMem key, Ty.mem_freeVars_var] at member
      subst member
      exact ⟨⟨other, key⟩, .inl rfl⟩
  have entry {k : TyVar} {u : Ty} (found : (s.after (.single v t))[k]? = some u) :
      k = v ∧ u = t.bind s.value ∨ s[k]? = some u := by
    rw [Subst.getElem?_after] at found
    by_cases same : v = k
    · subst same
      exact .inl ⟨rfl, by simpa [Subst.single, Subst.apply_eq_bind, eq_comm] using found⟩
    · exact .inr (by simpa [Subst.single, same] using found)
  refine ⟨?_, ?_, ?_, ?_⟩
  · refine unifies_cons.mpr ⟨(unifies_bind h).mp (holds_bind h s), ?_⟩
    intro e member
    rw [bind_after, bind_after]
    exact solution.unifies _ (List.mem_map.mpr ⟨e, member, rfl⟩)
  · intro θ unified
    obtain ⟨first, others⟩ := unifies_cons.mp unified
    have single := (unifies_bind h).mpr first
    exact (solution.general θ ((unifies_apply single rest).mpr others)).after single
  · intro k u found
    rcases entry found with ⟨rfl, rfl⟩ | found
    · refine ⟨bound, fun x member => ?_⟩
      obtain ⟨w, here, member⟩ := Ty.mem_freeVars_bind.mp member
      rcases (value w x (fun same => fresh (same ▸ here)) member).2 with rfl | place
      · exact inside x here
      · exact place
    · obtain ⟨key, values⟩ := solution.inside k u found
      exact ⟨(waits k key).2, fun x member => (waits x (values x member)).2⟩
  · intro k u found x member
    rw [Subst.mem_after, Subst.mem_single, not_or]
    rcases entry found with ⟨rfl, rfl⟩ | found
    · obtain ⟨w, here, member⟩ := Ty.mem_freeVars_bind.mp member
      exact (value w x (fun same => fresh (same ▸ here)) member).1
    · exact ⟨(waits x ((solution.inside k u found).2 x member)).1, solution.apart k u found x member⟩

/-- What the worklist returns is the most general solution. -/
theorem solve_solution {equations : List Equation} {s : Subst} (h : solve equations = .ok s) :
    Solution equations s := by
  induction equations using solve.induct generalizing s with
  | case1 =>
    rw [solve] at h
    cases h
    exact solution_nil
  | case2 a b rest e error =>
    rw [solve_error error] at h
    cases h
  | case3 a b rest parts split ih =>
    rw [solve_split split] at h
    exact (ih h).of_split split
  | case4 a b rest v t bind ih =>
    rw [solve_bind bind] at h
    cases rest' : solve (apply (.single v t) rest) with
    | error e => rw [rest'] at h; cases h
    | ok r =>
      rw [rest'] at h
      cases h
      exact (ih rest').of_bind bind

/-- Equations that some replacement solves are solved by the worklist. -/
theorem solve_complete {equations : List Equation} {θ : TyVar → Ty} (unified : Unifies θ equations) :
    ∃ s, solve equations = .ok s := by
  induction equations using solve.induct with
  | case1 => exact ⟨∅, by rw [solve]⟩
  | case2 a b rest e error => exact absurd (unifies_cons.mp unified).1 (bind_ne_of_error error θ)
  | case3 a b rest parts split ih =>
    rw [solve_split split]
    apply ih
    rw [unifies_append, unifies_split split]
    exact unifies_cons.mp unified
  | case4 a b rest v t bind ih =>
    obtain ⟨first, others⟩ := unifies_cons.mp unified
    obtain ⟨s, solved⟩ := ih ((unifies_apply ((unifies_bind bind).mpr first) rest).mpr others)
    exact ⟨s.after (.single v t), by rw [solve_bind bind, solved, Except.map]⟩

end Unify

theorem unify_solution {a b : Ty} {s : Subst} (h : unify a b = .ok s) : Unify.Solution [(a, b)] s :=
  Unify.solve_solution (unify_eq_solve a b ▸ h)

/-- The unifier makes both types equal. -/
theorem apply_eq_of_unify {a b : Ty} {s : Subst} (h : unify a b = .ok s) : s.apply a = s.apply b := by
  rw [Subst.apply_eq_bind, Subst.apply_eq_bind]
  exact (unify_solution h).unifies (a, b) List.mem_cons_self

/-- Types that a replacement makes equal have a unifier, and it holds under the replacement. -/
theorem unify_complete {a b : Ty} {θ : TyVar → Ty} (same : a.bind θ = b.bind θ) :
    ∃ s, unify a b = .ok s ∧ s.Holds θ := by
  have unified : Unify.Unifies θ [(a, b)] := by simpa [Unify.Unifies] using same
  obtain ⟨s, solved⟩ := Unify.solve_complete unified
  exact ⟨s, by rw [unify_eq_solve, solved], (Unify.solve_solution solved).general θ unified⟩

/-- A unifier speaks of the variables of the two types only. -/
theorem unify_inside {a b : Ty} {s : Subst} (h : unify a b = .ok s) {k : TyVar} {t : Ty} (found : s[k]? = some t) :
    (k ∈ a.freeVars ∨ k ∈ b.freeVars) ∧ ∀ v ∈ t.freeVars, v ∈ a.freeVars ∨ v ∈ b.freeVars := by
  simpa [Unify.mem_vars] using (unify_solution h).inside k t found

/-- Unification succeeds exactly if some substitution makes the types equal, and the unifier is then
    the most general one: it makes them equal, applying it first changes nothing for any other one,
    it speaks of their variables only, and no variable that it replaces is left. -/
theorem unify_most_general (a b : Ty) :
    ((∃ s, unify a b = .ok s) ↔ ∃ θ : Subst, θ.apply a = θ.apply b) ∧
    ∀ s, unify a b = .ok s →
      s.apply a = s.apply b ∧
      (∀ θ : Subst, θ.apply a = θ.apply b → ∀ t, θ.apply t = θ.apply (s.apply t)) ∧
      (∀ (k : TyVar) (t : Ty), s[k]? = some t → (k ∈ a.freeVars ∨ k ∈ b.freeVars) ∧
        ∀ v ∈ t.freeVars, v ∈ a.freeVars ∨ v ∈ b.freeVars) ∧
      (∀ (k : TyVar) (t : Ty), s[k]? = some t → ∀ v ∈ t.freeVars, v ∉ s) ∧
      ∀ t, s.apply (s.apply t) = s.apply t := by
  constructor
  · constructor
    · rintro ⟨s, h⟩
      exact ⟨s, apply_eq_of_unify h⟩
    · rintro ⟨θ, same⟩
      rw [Subst.apply_eq_bind, Subst.apply_eq_bind] at same
      obtain ⟨s, h, _⟩ := unify_complete same
      exact ⟨s, h⟩
  · intro s h
    have general (θ : Subst) (same : θ.apply a = θ.apply b) (t : Ty) : θ.apply t = θ.apply (s.apply t) := by
      rw [Subst.apply_eq_bind, Subst.apply_eq_bind] at same
      have holds := (unify_solution h).general θ.value (by simpa [Unify.Unifies] using same)
      rw [Subst.apply_eq_bind, Subst.apply_eq_bind, holds.bind_apply]
    refine ⟨apply_eq_of_unify h, general, fun k t => unify_inside h, (unify_solution h).apart, fun t => ?_⟩
    exact (general s (apply_eq_of_unify h) t).symm

end LetPoly
