import LetPoly.Ty.Basic

/-!
Replacement of variables in types: replacing every variable by itself changes nothing, and two
replacements in turn are one.
-/
namespace LetPoly.Ty

theorem bindList_eq_map (f : TyVar → Ty) (ts : List Ty) : bindList f ts = ts.map (bind f) := by
  induction ts with
  | nil => rfl
  | cons t ts ih => simp [bindList, ih]

theorem bind_var (t : Ty) : t.bind .var = t := by
  induction t with
  | prim p => rfl
  | var v => rfl
  | wrap w t ih => rw [bind, ih]
  | func a b iha ihb => rw [bind, iha, ihb]
  | tuple a b ts iha ihb ihs =>
    rw [bind, iha, ihb, bindList_eq_map, List.map_congr_left ihs, List.map_id']

theorem bind_bind (f g : TyVar → Ty) (t : Ty) : (t.bind f).bind g = t.bind fun v => (f v).bind g := by
  induction t with
  | prim p => rfl
  | var v => rfl
  | wrap w t ih => simp only [bind, ih]
  | func a b iha ihb => simp only [bind, iha, ihb]
  | tuple a b ts iha ihb ihs =>
    simp only [bind, iha, ihb, bindList_eq_map, List.map_map]
    rw [List.map_congr_left (f := bind g ∘ bind f) ihs]

end LetPoly.Ty
