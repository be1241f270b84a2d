import LetPoly.Subst
import LetPoly.Ty.Bind

/-!
The laws of substitutions: `after` is composition, with the empty substitution as its unit.
-/
namespace LetPoly.Subst

theorem value_single (v w : TyVar) (t : Ty) : (single v t).value w = if v = w then t else .var w := by
  by_cases same : v = w
  · simp [value, single, same]
  · simp [value, single, same]

theorem value_empty (v : TyVar) : (∅ : Subst).value v = .var v := by
  simp [value]

theorem apply_eq_bind (s : Subst) (t : Ty) : s.apply t = t.bind s.value := by
  unfold apply
  split
  · rename_i none
    rw [Std.ExtTreeMap.isEmpty_iff.mp none, funext value_empty, Ty.bind_var]
  · rfl

theorem apply_empty (t : Ty) : (∅ : Subst).apply t = t := by
  rw [apply_eq_bind, funext value_empty, Ty.bind_var]

@[simp] theorem apply_prim (s : Subst) (p : Prim) : s.apply (.prim p) = .prim p := by
  rw [apply_eq_bind, Ty.bind]

@[simp] theorem apply_wrap (s : Subst) (w : Wrapper) (t : Ty) : s.apply (.wrap w t) = .wrap w (s.apply t) := by
  simp only [apply_eq_bind, Ty.bind]

@[simp] theorem apply_func (s : Subst) (a b : Ty) : s.apply (.func a b) = .func (s.apply a) (s.apply b) := by
  simp only [apply_eq_bind, Ty.bind]

@[simp] theorem apply_tuple (s : Subst) (a b : Ty) (ts : List Ty) :
    s.apply (.tuple a b ts) = .tuple (s.apply a) (s.apply b) (ts.map s.apply) := by
  simp only [apply_eq_bind, Ty.bind, Ty.bindList_eq_map, funext (apply_eq_bind s)]

theorem getElem?_after (s r : Subst) (v : TyVar) : (s.after r)[v]? = (r[v]?.map s.apply).or s[v]? := by
  unfold after
  split
  · rename_i none
    rw [Std.ExtTreeMap.isEmpty_iff.mp none, funext apply_empty]
    simp
  · rw [Std.ExtTreeMap.getElem?_union, Std.ExtTreeMap.getElem?_map]

theorem value_after (s r : Subst) (v : TyVar) : (s.after r).value v = (r.value v).bind s.value := by
  rw [value, getElem?_after, value]
  cases r[v]? with
  | none => rfl
  | some t => exact apply_eq_bind s t

/-- Applying `s.after r` is applying `r` and then `s`. -/
theorem apply_after (s r : Subst) (t : Ty) : (s.after r).apply t = s.apply (r.apply t) := by
  rw [apply_eq_bind, apply_eq_bind s, apply_eq_bind r, Ty.bind_bind, funext (value_after s r)]

theorem map_apply_after (s r : Subst) (ts : List Ty) : ts.map (s.after r).apply = (ts.map r.apply).map s.apply := by
  simp [apply_after]

theorem applyNamed_append (s : Subst) (named others : List (String × Ty)) :
    s.applyNamed (named ++ others) = s.applyNamed named ++ s.applyNamed others :=
  List.map_append

theorem applyNamed_empty (named : List (String × Ty)) : (∅ : Subst).applyNamed named = named := by
  simp [applyNamed, apply_empty]

theorem applyNamed_after (s r : Subst) (named : List (String × Ty)) :
    (s.after r).applyNamed named = s.applyNamed (r.applyNamed named) := by
  simp [applyNamed, apply_after]

theorem after_assoc (s r q : Subst) : (s.after r).after q = s.after (r.after q) := by
  apply Std.ExtTreeMap.ext_getElem?
  intro v
  rw [getElem?_after, getElem?_after, getElem?_after, getElem?_after]
  cases q[v]? with
  | some t => simp [apply_after]
  | none => rfl

theorem empty_after (s : Subst) : (∅ : Subst).after s = s := by
  rw [after, if_pos Std.ExtTreeMap.isEmpty_empty]

theorem after_empty (s : Subst) : s.after ∅ = s := by
  apply Std.ExtTreeMap.ext_getElem?
  intro v
  rw [getElem?_after]
  simp

end LetPoly.Subst
