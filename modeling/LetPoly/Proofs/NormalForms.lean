import Mathlib.Data.List.Basic
import Mathlib.Data.Set.Function
import LetPoly.Proofs.Instances
import LetPoly.Proofs.Renaming

/-!
The normal form of a scheme does not depend on the names of quantified variables: schemes that are equal up
to these names have the same normal form (`AlphaEq.normalize_eq`). Renaming renames the variables of a type
in the order of their first appearance (`varsInOrder_rename`), so corresponding quantified variables have
the same place. The normal form is the scheme itself up to names unless it gives a quantified variable the
number of a free one (`alphaEq_normalize_iff`); it always is for closed schemes, whose normal forms then
tell apart what is not equal up to names (`normalize_identifies_alphaEq`).
-/
namespace LetPoly

/-! ### Variables by first appearance -/

namespace VarSet
variable {vs : List TyVar} {seen seen' : VarSet} {v : TyVar}

theorem mem_unseen : v ∈ unseen seen vs ↔ v ∈ vs ∧ v ∉ seen := by
  induction vs generalizing seen with
  | nil => simp [unseen]
  | cons w vs ih =>
    rw [unseen]
    by_cases old : w ∈ seen
    · rw [if_pos old, ih, List.mem_cons]
      constructor
      · exact fun ⟨member, new⟩ => ⟨.inr member, new⟩
      · rintro ⟨rfl | member, new⟩
        · exact absurd old new
        · exact ⟨member, new⟩
    · rw [if_neg old, List.mem_cons, List.mem_cons, ih, Std.ExtTreeSet.mem_insert,
        Std.LawfulEqCmp.compare_eq_iff_eq]
      by_cases same : v = w
      · subst same
        simp [old]
      · simp [same, Ne.symm same]

/-- A renaming that keeps the members of a list apart renames those that are not seen. -/
theorem unseen_map {ρ : TyVar → TyVar} (one : ∀ v ∈ vs, ∀ w ∈ vs, ρ v = ρ w → v = w)
    (same : ∀ v ∈ vs, (v ∈ seen ↔ ρ v ∈ seen')) : unseen seen' (vs.map ρ) = (unseen seen vs).map ρ := by
  induction vs generalizing seen seen' with
  | nil => rfl
  | cons w vs ih =>
    have later (v : TyVar) (member : v ∈ vs) : v ∈ w :: vs := List.mem_cons_of_mem w member
    have one' : ∀ v ∈ vs, ∀ x ∈ vs, ρ v = ρ x → v = x := fun v member x found => one v (later v member) x (later x found)
    rw [List.map_cons, unseen, unseen]
    by_cases old : w ∈ seen
    · rw [if_pos old, if_pos ((same w List.mem_cons_self).mp old)]
      exact ih one' fun v member => same v (later v member)
    · rw [if_neg old, if_neg (mt (same w List.mem_cons_self).mpr old), List.map_cons]
      refine congrArg (ρ w :: ·) (ih one' fun v member => ?_)
      have first : w = v ↔ ρ w = ρ v :=
        ⟨congrArg ρ, one w List.mem_cons_self v (later v member)⟩
      simp only [Std.ExtTreeSet.mem_insert, Std.LawfulEqCmp.compare_eq_iff_eq, first, same v (later v member)]

end VarSet

namespace Ty
variable {ρ : TyVar → TyVar} {v : TyVar}

theorem mem_occurrencesBefore {t : Ty} {rest : List TyVar} :
    v ∈ t.occurrencesBefore rest ↔ v ∈ t.freeVars ∨ v ∈ rest := by
  induction t generalizing rest with
  | prim p => simp [occurrencesBefore, freeVars]
  | var w => simp [occurrencesBefore]
  | wrap w t ih => simp [occurrencesBefore, freeVars, ih]
  | func a b iha ihb => simp [occurrencesBefore, freeVars, iha, ihb, Std.ExtTreeSet.mem_union_iff, or_assoc]
  | tuple a b ts iha ihb ihs =>
    have tail : v ∈ occurrencesBeforeList rest ts ↔ v ∈ freeVarsList ts ∨ v ∈ rest := by
      clear iha ihb
      induction ts with
      | nil => simp [occurrencesBeforeList, freeVarsList]
      | cons t ts ih =>
        simp only [List.mem_cons, forall_eq_or_imp] at ihs
        rw [occurrencesBeforeList, freeVarsList, ihs.1, ih ihs.2, Std.ExtTreeSet.mem_union_iff, or_assoc]
    simp [occurrencesBefore, freeVars, iha, ihb, tail, Std.ExtTreeSet.mem_union_iff, or_assoc]

theorem occurrencesBefore_rename (t : Ty) (rest : List TyVar) :
    (t.rename ρ).occurrencesBefore (rest.map ρ) = (t.occurrencesBefore rest).map ρ := by
  induction t generalizing rest with
  | prim p => rfl
  | var w => rfl
  | wrap w t ih => rw [rename_wrap, occurrencesBefore, occurrencesBefore, ih]
  | func a b iha ihb => rw [rename_func, occurrencesBefore, occurrencesBefore, ihb, iha]
  | tuple a b ts iha ihb ihs =>
    have tail : occurrencesBeforeList (rest.map ρ) (ts.map (rename ρ)) = (occurrencesBeforeList rest ts).map ρ := by
      clear iha ihb
      induction ts with
      | nil => rfl
      | cons t ts ih =>
        simp only [List.mem_cons, forall_eq_or_imp] at ihs
        rw [List.map_cons, occurrencesBeforeList, occurrencesBeforeList, ih ihs.2, ihs.1]
    rw [rename_tuple, occurrencesBefore, occurrencesBefore, tail, ihb, iha]

theorem mem_occurrences {t : Ty} : v ∈ t.occurrences ↔ v ∈ t.freeVars := by
  simp [occurrences, mem_occurrencesBefore]

theorem mem_varsInOrder {t : Ty} : v ∈ t.varsInOrder ↔ v ∈ t.freeVars := by
  simp [varsInOrder, VarSet.mem_unseen, mem_occurrences]

/-- A renaming that keeps the variables of a type apart keeps their order. -/
theorem varsInOrder_rename {t : Ty} (one : ∀ v ∈ t.freeVars, ∀ w ∈ t.freeVars, ρ v = ρ w → v = w) :
    (t.rename ρ).varsInOrder = t.varsInOrder.map ρ := by
  simp only [← mem_occurrences] at one
  rw [varsInOrder, varsInOrder, occurrences, ← List.map_nil (f := ρ), occurrencesBefore_rename]
  exact VarSet.unseen_map one (by simp)

end Ty

/-! ### Places -/

theorem mem_placesFrom {vs : List TyVar} {n : Nat} {v : TyVar} : v ∈ placesFrom n vs ↔ v ∈ vs := by
  induction vs generalizing n with
  | nil => simp [placesFrom]
  | cons w vs ih =>
    rw [placesFrom, Std.ExtTreeMap.mem_insert, ih, Std.LawfulEqCmp.compare_eq_iff_eq, List.mem_cons, eq_comm]

theorem getElem?_placesFrom_map {ρ : TyVar → TyVar} {vs : List TyVar} {v : TyVar} (one : ∀ w ∈ vs, ρ w = ρ v → w = v)
    (n : Nat) : (placesFrom n (vs.map ρ))[ρ v]? = (placesFrom n vs)[v]? := by
  induction vs generalizing n with
  | nil => rfl
  | cons w vs ih =>
    simp only [List.mem_cons, forall_eq_or_imp] at one
    have first : w = v ↔ ρ w = ρ v := ⟨congrArg ρ, one.1⟩
    simp only [List.map_cons, placesFrom, Std.ExtTreeMap.getElem?_insert, Std.LawfulEqCmp.compare_eq_iff_eq, first,
      ih one.2 (n + 1)]

/-- The place of a member is where it stands first. -/
theorem getElem?_placesFrom {vs : List TyVar} {n : Nat} {v : TyVar} (member : v ∈ vs) :
    (placesFrom n vs)[v]? = some (n + vs.idxOf v) := by
  induction vs generalizing n with
  | nil => simp at member
  | cons w vs ih =>
    by_cases same : w = v
    · simp [placesFrom, same]
    · have later : v ∈ vs := by simpa [Ne.symm same] using member
      simp [placesFrom, Std.ExtTreeMap.getElem?_insert, same, ih later, List.idxOf_cons_ne vs same]
      omega

/-! ### Schemes -/

namespace Scheme
variable {σ τ υ : Scheme} {v w : TyVar}

theorem mem_boundInOrder : v ∈ σ.boundInOrder ↔ v ∈ σ.ty.freeVars ∧ v ∈ σ.vars := by
  simp [boundInOrder, Ty.mem_varsInOrder, mem_bound]

/-- A renaming that keeps variables apart and maps quantified to quantified ones keeps the order of these. -/
theorem boundInOrder_of_rename {ρ : TyVar → TyVar}
    (one : ∀ v ∈ σ.ty.freeVars, ∀ w ∈ σ.ty.freeVars, ρ v = ρ w → v = w)
    (bound : ∀ v ∈ σ.ty.freeVars, (v ∈ σ.vars ↔ ρ v ∈ τ.vars)) (same : σ.ty.rename ρ = τ.ty) :
    τ.boundInOrder = σ.boundInOrder.map ρ := by
  simp only [boundInOrder, ← same, Ty.varsInOrder_rename one, List.filter_map]
  refine congrArg (List.map ρ) (List.filter_congr fun v member => ?_)
  simp [mem_bound, bound v (Ty.mem_varsInOrder.mp member)]

/-- Schemes that are equal up to the names of quantified variables have the same normal form. -/
theorem AlphaEq.normalize_eq (alpha : σ.AlphaEq τ) : σ.normalize = τ.normalize := by
  obtain ⟨ρ, one, bound, same⟩ := alpha
  have order := boundInOrder_of_rename one (fun v member => (bound v member).1) same
  have type : σ.normalize.ty = τ.normalize.ty := by
    simp only [normalize, order, ← same, Ty.bind_rename]
    refine Ty.bind_congr fun v member => congrArg Ty.var ?_
    rw [getElem?_placesFrom_map fun w found => one w (mem_boundInOrder.mp found).1 v member]
    by_cases quantified : v ∈ σ.vars
    · have place : v ∈ placesFrom 0 σ.boundInOrder := mem_placesFrom.mpr (mem_boundInOrder.mpr ⟨member, quantified⟩)
      rw [Std.ExtTreeMap.getElem?_eq_some_getElem place]
      rfl
    · rw [(bound v member).2 quantified]
  have vars : σ.normalize.vars = τ.normalize.vars := by
    simp only [normalize, order, List.length_map]
  exact congrArg₂ Scheme.mk vars type

/-- Renaming all variables of a closed scheme renames quantified ones only. -/
theorem Closed.alphaEq_rename (closed : σ.Closed) {ρ : TyVar → TyVar} (injective : Function.Injective ρ) :
    σ.AlphaEq (σ.rename ρ) := by
  refine ⟨ρ, fun v _ w _ same => injective same, fun v member => ⟨?_, fun free => ?_⟩, rfl⟩
  · exact (List.mem_map_of_injective injective).symm
  · exact absurd (mem_freeVars.mpr ⟨member, free⟩) (closed v)

/-! ### Equality up to names -/

theorem AlphaEq.symm (alpha : σ.AlphaEq τ) : τ.AlphaEq σ := by
  obtain ⟨ρ, one, bound, same⟩ := alpha
  have injective : Set.InjOn ρ { v | v ∈ σ.ty.freeVars } := fun v member w found => one v member w found
  let back := Function.invFunOn ρ { v | v ∈ σ.ty.freeVars }
  have undo (v : TyVar) (member : v ∈ σ.ty.freeVars) : back (ρ v) = v := injective.leftInvOn_invFunOn member
  have origin (w : TyVar) (member : w ∈ τ.ty.freeVars) : ∃ v ∈ σ.ty.freeVars, ρ v = w := by
    rwa [← same, Ty.mem_freeVars_rename] at member
  refine ⟨back, ?_, ?_, ?_⟩
  · intro w member x found equal
    obtain ⟨v, here, rfl⟩ := origin w member
    obtain ⟨u, there, rfl⟩ := origin x found
    rw [undo v here, undo u there] at equal
    rw [equal]
  · intro w member
    obtain ⟨v, here, rfl⟩ := origin w member
    rw [undo v here]
    refine ⟨(bound v here).1.symm, fun free => ?_⟩
    exact ((bound v here).2 (mt (bound v here).1.mp free)).symm
  · rw [← same, Ty.rename_rename, Ty.rename_congr undo, Ty.rename_id]

theorem AlphaEq.trans (first : σ.AlphaEq τ) (second : τ.AlphaEq υ) : σ.AlphaEq υ := by
  obtain ⟨ρ, one, bound, same⟩ := first
  obtain ⟨π, one', bound', same'⟩ := second
  have inside (v : TyVar) (member : v ∈ σ.ty.freeVars) : ρ v ∈ τ.ty.freeVars := by
    rw [← same]
    exact Ty.mem_freeVars_rename.mpr ⟨v, member, rfl⟩
  refine ⟨fun v => π (ρ v), ?_, ?_, ?_⟩
  · intro v member w found equal
    exact one v member w found (one' _ (inside v member) _ (inside w found) equal)
  · intro v member
    have here := bound v member
    have there := bound' (ρ v) (inside v member)
    refine ⟨here.1.trans there.1, fun free => ?_⟩
    exact (there.2 (mt here.1.mpr free)).trans (here.2 free)
  · rw [← Ty.rename_rename, same, same']

/-- A variable that is free in one of two schemes is free in the other. -/
theorem AlphaEq.mem_freeVars (alpha : σ.AlphaEq τ) (free : v ∈ σ.freeVars) : v ∈ τ.freeVars := by
  obtain ⟨ρ, _, bound, same⟩ := alpha
  obtain ⟨member, unquantified⟩ := Scheme.mem_freeVars.mp free
  have kept : ρ v = v := (bound v member).2 unquantified
  have there : v ∈ τ.ty.freeVars := by
    rw [← same]
    exact Ty.mem_freeVars_rename.mpr ⟨v, member, kept⟩
  have unquantified' : v ∉ τ.vars := kept ▸ mt (bound v member).1.mpr unquantified
  exact Scheme.mem_freeVars.mpr ⟨there, unquantified'⟩

theorem AlphaEq.freeVars_eq (alpha : σ.AlphaEq τ) : σ.freeVars = τ.freeVars :=
  Std.ExtTreeSet.ext_mem fun _ => ⟨alpha.mem_freeVars, alpha.symm.mem_freeVars⟩

theorem AlphaEq.instance_of (alpha : σ.AlphaEq τ) {t : Ty} (inst : τ.Instance t) : σ.Instance t := by
  obtain ⟨ρ, _, bound, same⟩ := alpha
  obtain ⟨f, fixed, rfl⟩ := inst
  refine ⟨fun v => if v ∈ σ.vars then f (ρ v) else .var v, fun v free => if_neg free, ?_⟩
  rw [← same, Ty.bind_rename]
  refine Ty.bind_congr fun v member => ?_
  by_cases quantified : v ∈ σ.vars
  · simp [quantified]
  · have kept := (bound v member).2 quantified
    have free : f (ρ v) = .var (ρ v) := fixed _ (mt (bound v member).1.mpr quantified)
    rw [if_neg quantified, free, kept]

/-- Schemes that are equal up to names have the same instances. -/
theorem AlphaEq.instance_iff (alpha : σ.AlphaEq τ) (t : Ty) : σ.Instance t ↔ τ.Instance t :=
  ⟨alpha.symm.instance_of, alpha.instance_of⟩

/-! ### Numbers of quantified variables -/

/-- The variable that stands for `v` in the normal form. -/
def newName (σ : Scheme) (v : TyVar) : TyVar :=
  (placesFrom 0 σ.boundInOrder)[v]?.getD v

@[simp] theorem mem_vars_normalize : v ∈ σ.normalize.vars ↔ v < σ.boundInOrder.length :=
  List.mem_range

theorem newName_of_mem (member : v ∈ σ.boundInOrder) : σ.newName v = σ.boundInOrder.idxOf v := by
  simp [newName, getElem?_placesFrom member]

theorem newName_of_notMem (missing : v ∉ σ.boundInOrder) : σ.newName v = v := by
  have absent : v ∉ placesFrom 0 σ.boundInOrder := mt mem_placesFrom.mp missing
  simp [newName, Std.ExtTreeMap.getElem?_eq_none absent]

theorem newName_of_free (free : v ∉ σ.vars) : σ.newName v = v :=
  newName_of_notMem fun member => free (mem_boundInOrder.mp member).2

/-- No free variable has a number that the normal form gives to a quantified one. -/
def Apart (σ : Scheme) : Prop :=
  ∀ v ∈ σ.freeVars, σ.boundInOrder.length ≤ v

theorem Closed.apart (closed : σ.Closed) : σ.Apart :=
  fun v free => absurd free (closed v)

/-- The new number of a variable is below the number of quantified ones only if the variable is quantified. -/
theorem Apart.newName_lt (apart : σ.Apart) (member : v ∈ σ.ty.freeVars) :
    σ.newName v < σ.boundInOrder.length ↔ v ∈ σ.vars := by
  by_cases quantified : v ∈ σ.vars
  · have bound : v ∈ σ.boundInOrder := mem_boundInOrder.mpr ⟨member, quantified⟩
    simp [quantified, newName_of_mem bound, List.idxOf_lt_length_iff.mpr bound]
  · have above := apart v (Scheme.mem_freeVars.mpr ⟨member, quantified⟩)
    rw [newName_of_free quantified]
    exact iff_of_false (Nat.not_lt.mpr above) quantified

theorem Apart.newName_injective (apart : σ.Apart) (member : v ∈ σ.ty.freeVars) (found : w ∈ σ.ty.freeVars)
    (same : σ.newName v = σ.newName w) : v = w := by
  have alike : v ∈ σ.vars ↔ w ∈ σ.vars := by rw [← apart.newName_lt member, same, apart.newName_lt found]
  by_cases quantified : v ∈ σ.vars
  · have bound : v ∈ σ.boundInOrder := mem_boundInOrder.mpr ⟨member, quantified⟩
    have bound' : w ∈ σ.boundInOrder := mem_boundInOrder.mpr ⟨found, alike.mp quantified⟩
    rw [newName_of_mem bound, newName_of_mem bound'] at same
    exact (List.idxOf_inj bound).mp same
  · rwa [newName_of_free quantified, newName_of_free (mt alike.mpr quantified)] at same

/-- The normal form is the same scheme up to names exactly if it captures no free variable. -/
theorem alphaEq_normalize_iff : σ.AlphaEq σ.normalize ↔ σ.Apart := by
  constructor
  · intro alpha v free
    have unquantified := (Scheme.mem_freeVars.mp (alpha.mem_freeVars free)).2
    simpa using unquantified
  · intro apart
    refine ⟨σ.newName, fun v member w found => apart.newName_injective member found, ?_, rfl⟩
    intro v member
    exact ⟨by rw [mem_vars_normalize, apart.newName_lt member], newName_of_free⟩

end Scheme

/-- Schemes that are equal up to the names of quantified variables have the same normal form, closed schemes
    with the same normal form are equal up to these names, and the normal form of a closed scheme is its own. -/
theorem normalize_identifies_alphaEq (σ τ : Scheme) :
    (σ.AlphaEq τ → σ.normalize = τ.normalize) ∧
    (σ.Closed → τ.Closed → σ.normalize = τ.normalize → σ.AlphaEq τ) ∧
    (σ.Closed → σ.normalize.normalize = σ.normalize) := by
  have self {υ : Scheme} (closed : υ.Closed) : υ.AlphaEq υ.normalize := Scheme.alphaEq_normalize_iff.mpr closed.apart
  refine ⟨Scheme.AlphaEq.normalize_eq, ?_, ?_⟩
  · intro closed closed' same
    exact (self closed).trans (same ▸ (self closed').symm)
  · intro closed
    exact (self closed).normalize_eq.symm

/-- The scheme `'t1 -> 't3 -> 't1`, quantified over more than its variables. -/
def crossedScheme : Scheme :=
  ⟨[3, 1, 1, 7], .func (.var 1) (.func (.var 3) (.var 1))⟩

/-- The same scheme with the two variables exchanged. -/
def uncrossedScheme : Scheme :=
  ⟨[1, 3], .func (.var 3) (.func (.var 1) (.var 3))⟩

/-- Names that change places do not matter, and neither do other names beside a free variable. -/
theorem crossedScheme_normalize : crossedScheme.AlphaEq uncrossedScheme ∧
    crossedScheme.normalize.normalize = crossedScheme.normalize ∧
    Scheme.normalize ⟨[1], .func (.var 1) (.var 0)⟩ = Scheme.normalize ⟨[2, 2], .func (.var 2) (.var 0)⟩ := by
  have closed {σ : Scheme} (none : σ.freeVars = ∅) : σ.Closed := fun v free => by simp [none] at free
  have crossed : crossedScheme.Closed := closed (by cbv)
  have uncrossed : uncrossedScheme.Closed := closed (by cbv)
  have renamed : Scheme.AlphaEq ⟨[1], .func (.var 1) (.var 0)⟩ ⟨[2, 2], .func (.var 2) (.var 0)⟩ := by
    have member (v : TyVar) : v ∈ (Ty.func (.var 1) (.var 0)).freeVars ↔ v = 1 ∨ v = 0 := by
      rw [Ty.freeVars, Std.ExtTreeSet.mem_union_iff, Ty.mem_freeVars_var, Ty.mem_freeVars_var]
    refine ⟨fun v => if v = 1 then 2 else v, ?_, ?_, rfl⟩ <;> simp only [member]
    · grind
    · grind
  obtain ⟨_, same, again⟩ := normalize_identifies_alphaEq crossedScheme uncrossedScheme
  exact ⟨same crossed uncrossed (by cbv), again crossed, (normalize_identifies_alphaEq _ _).1 renamed⟩

/-- The normal form of a scheme has the same meaning (the same free variables, the same instances, equal up to
    the names of quantified variables, and its own normal form) exactly if no free variable has a number
    below the number of quantified variables that the type mentions. -/
theorem normalize_keeps_meaning (σ : Scheme) :
    σ.normalize.freeVars = σ.freeVars ∧ σ.AlphaEq σ.normalize ∧ (∀ t, σ.normalize.Instance t ↔ σ.Instance t) ∧
      σ.normalize.normalize = σ.normalize ↔
    ∀ v ∈ σ.freeVars, σ.boundInOrder.length ≤ v := by
  constructor
  · rintro ⟨_, alpha, _⟩
    exact Scheme.alphaEq_normalize_iff.mp alpha
  · intro apart
    have alpha : σ.AlphaEq σ.normalize := Scheme.alphaEq_normalize_iff.mpr apart
    exact ⟨alpha.freeVars_eq.symm, alpha, fun t => (alpha.instance_iff t).symm, alpha.normalize_eq.symm⟩

/-- The scheme `'t1 * 't2 * 't3`, in which `'t1` is free. -/
def openScheme : Scheme :=
  ⟨[2, 3], .tuple (.var 1) (.var 2) [.var 3]⟩

/-- The normal form of an open scheme quantifies its free variable together with the last one, has other
    instances, and is not its own normal form. -/
theorem openScheme_captured :
    openScheme.normalize = ⟨[0, 1], .tuple (.var 1) (.var 0) [.var 1]⟩ ∧
    openScheme.normalize.freeVars ≠ openScheme.freeVars ∧ ¬ openScheme.AlphaEq openScheme.normalize ∧
    (openScheme.normalize.Instance (.tuple .int .bool [.int]) ∧ ¬ openScheme.Instance (.tuple .int .bool [.int])) ∧
    openScheme.normalize.normalize ≠ openScheme.normalize := by
  have form : openScheme.normalize = ⟨[0, 1], .tuple (.var 1) (.var 0) [.var 1]⟩ := by cbv
  have free : openScheme.normalize.freeVars ≠ openScheme.freeVars := by
    intro same
    have member : 1 ∈ openScheme.freeVars := by decide
    rw [← same, form] at member
    exact (Scheme.mem_freeVars.mp member).2 (by decide)
  refine ⟨form, free, fun alpha => free alpha.freeVars_eq.symm, ⟨?_, ?_⟩, by rw [form]; decide⟩
  · rw [form]
    exact ⟨fun v => if v = 1 then .int else if v = 0 then .bool else .var v, by simp +contextual, rfl⟩
  · rintro ⟨f, fixed, same⟩
    rw [openScheme, Ty.bind, Ty.bind, fixed 1 (by decide)] at same
    cases same

end LetPoly
