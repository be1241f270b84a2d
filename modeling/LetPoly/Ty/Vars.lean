import LetPoly.Subst.Laws

/-!
The variables of a type under replacement. Main statements: `occurs` and `freeVars` agree
(`mem_freeVars_iff`), and the variables of `t.bind f` are those of the types that stand for the
variables of `t` (`mem_freeVars_bind`), which alone matter (`bind_congr`).
-/
namespace LetPoly.Ty

theorem mem_freeVarsList {v : TyVar} {ts : List Ty} :
    v ∈ freeVarsList ts ↔ ∃ t ∈ ts, v ∈ t.freeVars := by
  induction ts with
  | nil => simp [freeVarsList]
  | cons t ts ih => simp [freeVarsList, Std.ExtTreeSet.mem_union_iff, ih]

theorem occursList_iff {v : TyVar} {ts : List Ty} :
    occursList v ts = true ↔ ∃ t ∈ ts, t.occurs v = true := by
  induction ts with
  | nil => simp [occursList]
  | cons t ts ih => simp [occursList, ih]

@[simp] theorem mem_freeVars_var {v w : TyVar} : v ∈ (Ty.var w).freeVars ↔ v = w := by
  simp [freeVars, Std.LawfulEqCmp.compare_eq_iff_eq, eq_comm (a := v)]

/-- The occurs check and the set of variables agree. -/
theorem mem_freeVars_iff {v : TyVar} {t : Ty} : v ∈ t.freeVars ↔ t.occurs v = true := by
  induction t with
  | prim p => simp [freeVars, occurs]
  | var w => simp [occurs]
  | wrap w t ih => simpa [freeVars, occurs] using ih
  | func a b iha ihb => simp [freeVars, occurs, Std.ExtTreeSet.mem_union_iff, iha, ihb]
  | tuple a b ts iha ihb ihs =>
    simp only [freeVars, occurs, Std.ExtTreeSet.mem_union_iff, mem_freeVarsList, Bool.or_eq_true,
      occursList_iff, iha, ihb]
    exact or_congr Iff.rfl (exists_congr fun t => and_congr_right fun member => ihs t member)

/-- A variable of `t.bind f` comes from the type that stands for some variable of `t`. -/
theorem mem_freeVars_bind {f : TyVar → Ty} {v : TyVar} {t : Ty} :
    v ∈ (t.bind f).freeVars ↔ ∃ w, w ∈ t.freeVars ∧ v ∈ (f w).freeVars := by
  induction t with
  | prim p => simp [freeVars, bind]
  | var w => simp [bind]
  | wrap w t ih => simpa [freeVars, bind] using ih
  | func a b iha ihb =>
    simp only [freeVars, bind, Std.ExtTreeSet.mem_union_iff, iha, ihb, or_and_right, exists_or]
  | tuple a b ts iha ihb ihs =>
    simp only [freeVars, bind, bindList_eq_map, Std.ExtTreeSet.mem_union_iff, mem_freeVarsList,
      List.mem_map, iha, ihb, or_and_right, exists_or]
    refine or_congr Iff.rfl ⟨?_, ?_⟩
    · rintro ⟨_, ⟨t, member, rfl⟩, found⟩
      obtain ⟨w, inside, stands⟩ := (ihs t member).mp found
      exact ⟨w, ⟨t, member, inside⟩, stands⟩
    · rintro ⟨w, ⟨t, member, inside⟩, stands⟩
      exact ⟨_, ⟨t, member, rfl⟩, (ihs t member).mpr ⟨w, inside, stands⟩⟩

/-- Only what stands for the variables of a type matters to it. -/
theorem bind_congr {f g : TyVar → Ty} {t : Ty} (same : ∀ v ∈ t.freeVars, f v = g v) :
    t.bind f = t.bind g := by
  induction t with
  | prim p => rfl
  | var v => exact same v (mem_freeVars_var.mpr rfl)
  | wrap w t ih => rw [bind, bind, ih same]
  | func a b iha ihb =>
    simp only [freeVars, Std.ExtTreeSet.mem_union_iff] at same
    rw [bind, bind, iha fun v member => same v (.inl member), ihb fun v member => same v (.inr member)]
  | tuple a b ts iha ihb ihs =>
    simp only [freeVars, Std.ExtTreeSet.mem_union_iff, mem_freeVarsList] at same
    rw [bind, bind, iha fun v member => same v (.inl (.inl member)),
      ihb fun v member => same v (.inl (.inr member)), bindList_eq_map, bindList_eq_map,
      List.map_congr_left fun t member => ihs t member fun v found => same v (.inr ⟨t, member, found⟩)]

end LetPoly.Ty

namespace LetPoly.Subst

/-- Replacing `v` by a type without `v` removes `v`, and adds nothing but the variables of that type. -/
theorem mem_freeVars_apply_single {v w : TyVar} {t u : Ty} (fresh : v ∉ t.freeVars)
    (found : w ∈ ((single v t).apply u).freeVars) : w ≠ v ∧ (w ∈ t.freeVars ∨ w ∈ u.freeVars) := by
  rw [apply_eq_bind] at found
  obtain ⟨x, inside, stands⟩ := Ty.mem_freeVars_bind.mp found
  rw [value_single] at stands
  by_cases same : v = x
  · rw [if_pos same] at stands
    exact ⟨fun equal => fresh (equal ▸ stands), .inl stands⟩
  · rw [if_neg same, Ty.mem_freeVars_var] at stands
    subst stands
    exact ⟨Ne.symm same, .inr inside⟩

end LetPoly.Subst
