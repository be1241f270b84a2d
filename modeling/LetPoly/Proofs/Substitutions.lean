import Mathlib.Tactic.TFAE
import LetPoly.Proofs.Occurrences

/-!
Substitutions as a monoid that acts on types. What a substitution makes of a type depends on what it makes of
the variables of the type, and on nothing less (`Subst.apply_eq_iff`). Two substitutions can act alike and
differ, as one can map a variable to itself, but a substitution is known by its keys and its action
(`Subst.eq_iff_apply`). So composition, which is associative and has the empty substitution as its unit, is
the only substitution with the keys of both that acts as one after the other (`after_monoid_action`). Main
statement on types: all traversals find the same variables, and they are what a substitution acts on
(`traversals_agree`).
-/
namespace LetPoly

/-- A replacement is known on the variables of a type by what it makes of the type. -/
theorem Ty.bind_eq_iff {f g : TyVar → Ty} {t : Ty} : t.bind f = t.bind g ↔ ∀ v ∈ t.freeVars, f v = g v := by
  constructor
  · intro same v member
    obtain ⟨path, here⟩ := mem_freeVars_iff_at?.mp member
    have left : (t.bind f).at? path = some (f v) := at?_bind f here
    have right : (t.bind g).at? path = some (g v) := at?_bind g here
    rw [same, right] at left
    exact (Option.some.inj left).symm
  · exact bind_congr

namespace Subst
variable {s r : Subst} {t : Ty} {v : TyVar}

theorem apply_var (s : Subst) (v : TyVar) : s.apply (.var v) = s.value v := by
  rw [apply_eq_bind, Ty.bind]

theorem mem_freeVars_apply : v ∈ (s.apply t).freeVars ↔ ∃ w ∈ t.freeVars, v ∈ (s.apply (.var w)).freeVars := by
  simp only [apply_var]
  rw [apply_eq_bind, Ty.mem_freeVars_bind]

/-- Substitutions make the same of a type exactly if they make the same of each of its variables. -/
theorem apply_eq_iff : s.apply t = r.apply t ↔ ∀ v ∈ t.freeVars, s.apply (.var v) = r.apply (.var v) := by
  simp only [apply_var]
  rw [apply_eq_bind, apply_eq_bind, Ty.bind_eq_iff]

theorem getElem?_of_mem (key : v ∈ s) : s[v]? = some (s.apply (.var v)) := by
  rw [apply_var, value, Std.ExtTreeMap.getElem?_eq_some_getElem key, Option.getD_some]

/-- A substitution is known by its keys and by what it makes of types. -/
theorem eq_iff_apply : s = r ↔ (∀ v, v ∈ s ↔ v ∈ r) ∧ ∀ t, s.apply t = r.apply t := by
  constructor
  · rintro rfl
    exact ⟨fun _ => Iff.rfl, fun _ => rfl⟩
  · rintro ⟨keys, action⟩
    apply Std.ExtTreeMap.ext_getElem?
    intro v
    by_cases key : v ∈ s
    · rw [getElem?_of_mem key, getElem?_of_mem ((keys v).mp key), action]
    · rw [Std.ExtTreeMap.getElem?_eq_none key, Std.ExtTreeMap.getElem?_eq_none (mt (keys v).mpr key)]

/-- Composition is the only substitution with the keys of both that acts as one after the other. -/
theorem eq_after_iff {q : Subst} :
    q = s.after r ↔ (∀ v, v ∈ q ↔ v ∈ r ∨ v ∈ s) ∧ ∀ t, q.apply t = s.apply (r.apply t) := by
  simp only [eq_iff_apply, mem_after, apply_after]

end Subst

/-- Substitutions are a monoid under composition, with the empty one as its unit, and they act on types.
    Composition is known by its keys and its action. -/
theorem after_monoid_action (s r q : Subst) :
    (∀ t, (s.after r).apply t = s.apply (r.apply t)) ∧ (∀ t, (∅ : Subst).apply t = t) ∧
    (s.after r).after q = s.after (r.after q) ∧ (∅ : Subst).after s = s ∧ s.after ∅ = s ∧
    (q = s.after r ↔ (∀ v, v ∈ q ↔ v ∈ r ∨ v ∈ s) ∧ ∀ t, q.apply t = s.apply (r.apply t)) :=
  ⟨Subst.apply_after s r, Subst.apply_empty, Subst.after_assoc s r q, Subst.empty_after s, Subst.after_empty s,
    Subst.eq_after_iff⟩

-- A key of both, which occurs in what it is mapped to first.
example : (Subst.single 0 .int).after (.single 0 (.list (.var 0))) = .single 0 (.list .int) := by decide

/-- The occurs check, the set and the list of variables, and the paths into a type find the same variables.
    The list holds each of them once, by leftmost occurrences. The variables of a type under a substitution are
    those of what it makes of the variables of the type, which alone decide what it makes of the type. -/
theorem traversals_agree (t : Ty) :
    (∀ v, List.TFAE [t.occurs v = true, v ∈ t.freeVars, v ∈ t.varsInOrder, ∃ path, t.at? path = some (.var v)]) ∧
    t.varsInOrder.Nodup ∧
    (∃ paths, List.Forall₂ t.Leftmost t.varsInOrder paths ∧ paths.Pairwise (· < ·)) ∧
    (∀ (s : Subst) (v : TyVar), v ∈ (s.apply t).freeVars ↔ ∃ w ∈ t.freeVars, v ∈ (s.apply (.var w)).freeVars) ∧
    ∀ s r : Subst, s.apply t = r.apply t ↔ ∀ v ∈ t.freeVars, s.apply (.var v) = r.apply (.var v) := by
  refine ⟨fun v => ?_, t.varsInOrder_nodup, t.varsInOrder_leftmost, fun s v => Subst.mem_freeVars_apply,
    fun s r => Subst.apply_eq_iff⟩
  tfae_have 2 ↔ 1 := Ty.mem_freeVars_iff
  tfae_have 3 ↔ 2 := Ty.mem_varsInOrder
  tfae_have 2 ↔ 4 := Ty.mem_freeVars_iff_at?
  tfae_finish

example : (Ty.tuple (.list (.var 3)) (.func (.var 1) (.var 3)) [.var 0, .var 1]).varsInOrder = [3, 1, 0] := by decide

end LetPoly
