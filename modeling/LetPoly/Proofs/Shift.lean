import Mathlib.Data.List.Sort
import LetPoly.Proofs.Alike
import LetPoly.Proofs.Freshness
import LetPoly.Proofs.Simulation

/-!
Inference does not look at where the supply of new variables stands. Two runs whose supplies differ by
`k` give the same results, in which the variables that are given out have numbers that differ by `k`
(`shift`). Since a shift keeps the order of variables, even the order in which they are quantified is
the same, so that schemes are equal under the shift and not only up to the names of quantified variables
(`lawful_shifted`).
-/
namespace LetPoly

namespace TyVar
variable {n k v w : Nat}

theorem shift_of_lt (below : v < n) : shift n k v = v :=
  if_pos below

theorem shift_of_le (above : n ≤ v) : shift n k v = v + k :=
  if_neg (Nat.not_lt_of_le above)

theorem shift_zero (n v : Nat) : shift n 0 v = v :=
  ite_self v

theorem shift_le (n k v : Nat) : shift n k v ≤ v + k := by
  rcases Nat.lt_or_ge v n with below | above
  · rw [shift_of_lt below]
    exact Nat.le_add_right v k
  · rw [shift_of_le above]

theorem shift_lt_shift (less : v < w) : shift n k v < shift n k w := by
  rcases Nat.lt_or_ge w n with below | above
  · rw [shift_of_lt below, shift_of_lt (Nat.lt_trans less below)]
    exact less
  · rw [shift_of_le above]
    exact Nat.lt_of_le_of_lt (shift_le n k v) (Nat.add_lt_add_right less k)

theorem shift_injective (n k : Nat) : Function.Injective (shift n k) := by
  intro v w same
  by_contra other
  rcases Nat.lt_or_gt_of_ne other with less | less
  · exact Nat.ne_of_lt (shift_lt_shift less) same
  · exact Nat.ne_of_gt (shift_lt_shift less) same

end TyVar

/-- The correspondence between two runs, one of which is ahead of the other by `k` from `n` on: all
    variables below `l` are shared, under their shifted names. -/
def shiftPairing (n k l : Nat) : Pairing where
  name := TyVar.shift n k
  shared v := v < l
  left := l
  right := l + k
  injective := TyVar.shift_injective n k
  left_below _ below := below
  right_below v below := Nat.lt_of_le_of_lt (TyVar.shift_le n k v) (Nat.add_lt_add_right below k)

theorem shiftPairing_grows {n k l m : Nat} (from_n : n ≤ l) (more : l ≤ m) :
    (shiftPairing n k l).Grows (shiftPairing n k m) where
  left := more
  right := Nat.add_le_add_right more k
  keep v below := ⟨Nat.lt_of_lt_of_le below more, rfl⟩
  new v _ := by
    rcases Nat.lt_or_ge v l with below | above
    · exact .inl below
    · refine .inr ⟨above, ?_⟩
      show l + k ≤ TyVar.shift n k v
      rw [TyVar.shift_of_le (Nat.le_trans from_n above)]
      exact Nat.add_le_add_right above k

namespace Pairing
variable {P : Pairing} {s r s' r' : Subst}

theorem sameSubst_single {v : TyVar} {t u : Ty} (shared : P.shared v) (same : P.Same t u) :
    P.SameSubst (.single v t) (.single (P.name v) u) where
  values w here := by
    simp only [Subst.value_single, P.injective.eq_iff]
    split
    · exact same
    · exact same_var here
  left w key := Subst.mem_single.mp key ▸ P.left_below v shared
  right w key := Subst.mem_single.mp key ▸ P.right_below v shared

/-- The second substitutions count where both have a key. -/
theorem SameSubst.union (first : P.SameSubst s r) (second : P.SameSubst s' r')
    (keys : ∀ v, P.shared v → (v ∈ s' ↔ P.name v ∈ r')) : P.SameSubst (s ∪ s') (r ∪ r') where
  values v shared := by
    rw [Infer.value_union, Infer.value_union]
    by_cases key : v ∈ s'
    · rw [if_pos key, if_pos ((keys v shared).mp key)]
      exact second.values v shared
    · rw [if_neg key, if_neg (mt (keys v shared).mpr key)]
      exact first.values v shared
  left v key := (Std.ExtTreeMap.mem_union_iff.mp key).elim (first.left v) (second.left v)
  right v key := (Std.ExtTreeMap.mem_union_iff.mp key).elim (first.right v) (second.right v)

end Pairing

namespace Comparison
open Infer

/-- Compares runs one of which is ahead of the other by `k` from `n` on. Schemes have the same types and
    quantify the same variables in the same order. The run that is ahead is the first to have none left. -/
def shifted (n k : Nat) : Comparison where
  keeps P := ∃ l, n ≤ l ∧ P = shiftPairing n k l
  scheme P σ τ := P.Made σ τ ∧ τ.vars = σ.vars.map (TyVar.shift n k)
  mayStop := False

section
variable {n k : Nat} {P : Pairing} {σ τ : Scheme} {Γ Δ : Env} {t u : Ty}

theorem eq_rename_of_shifted (keeps : (shifted n k).keeps P) (same : (shifted n k).scheme P σ τ) :
    τ = σ.rename (TyVar.shift n k) := by
  obtain ⟨l, _, rfl⟩ := keeps
  obtain ⟨made, vars⟩ := same
  obtain ⟨bound, ty⟩ := τ
  exact congrArg₂ Scheme.mk vars made.type.2

/-- The same variables are quantified, and in the same order, since a shift keeps the order. -/
theorem shifted_generalize (keeps : (shifted n k).keeps P) (same : (shifted n k).SameEnv P Γ Δ) (types : P.Same t u) :
    (shifted n k).scheme P (Γ.generalize t) (Δ.generalize u) := by
  have alike : Env.Related P.Alike Γ Δ := Env.Related.imp same fun _ _ _ _ _ here => here.1.alike
  have made := alike.made_generalize types
  refine ⟨made, ?_⟩
  obtain ⟨l, _, rfl⟩ := keeps
  have shared {v : TyVar} (member : v ∈ (Γ.generalize t).vars) : v < l :=
    types.1 v (Env.mem_vars_generalize.mp member).1
  refine (Env.ascending_generalize Δ u).eq_of_mem_iff ?_ fun w => ?_
  · rw [List.pairwise_map]
    exact (Env.ascending_generalize Γ t).imp TyVar.shift_lt_shift
  · rw [List.mem_map]
    constructor
    · intro member
      obtain ⟨v, found, rfl⟩ := Ty.mem_freeVars_rename.mp (types.2 ▸ (Env.mem_vars_generalize.mp member).1)
      exact ⟨v, (made.bound v (types.1 v found)).mpr member, rfl⟩
    · rintro ⟨v, member, rfl⟩
      exact (made.bound v (shared member)).mp member

/-- The next variables correspond. -/
theorem shifted_freshVar (P : Pairing) :
    (shifted n k).Parallel P (fun Q v w => Q.shared v ∧ w = Q.name v) freshVar freshVar := by
  rintro ⟨l, from_n, rfl⟩ st st' same
  have left : st.next = l := same.left
  have right : st'.next = l + k := same.right
  rw [freshVar_run, freshVar_run]
  by_cases enough : st'.next + 1 < varLimit
  · rw [if_pos enough, if_pos (by omega)]
    have grows := shiftPairing_grows (k := k) from_n (Nat.le_succ l)
    refine .ok grows ⟨l + 1, Nat.le_succ_of_le from_n, rfl⟩ (same.extend grows ?_ ?_) ⟨?_, ?_⟩
    · rw [left]
      rfl
    · rw [right, Nat.add_right_comm]
      rfl
    · rw [left]
      exact Nat.lt_succ_self l
    · rw [left, right]
      exact (TyVar.shift_of_le from_n).symm
  · rw [if_neg enough]
    exact .outRight

/-- New variables are put for corresponding ones. -/
theorem shifted_renewal (vars : List TyVar) (given : ∀ v ∈ vars, P.shared v) :
    (shifted n k).Parallel P (fun Q s r => Q.SameSubst s r ∧ ∀ v, v ∈ s ↔ TyVar.shift n k v ∈ r) (renewal vars)
      (renewal (vars.map (TyVar.shift n k))) := by
  induction vars generalizing P with
  | nil => exact parallel_pure ⟨Pairing.sameSubst_empty P, by simp⟩
  | cons v vars ih =>
    simp only [List.mem_cons, forall_eq_or_imp] at given
    have fresh : (shifted n k).Parallel P Pairing.Same fresh fresh :=
      (shifted_freshVar P).bind fun Q x y _ _ new => parallel_pure (new.2 ▸ Pairing.same_var new.1)
    refine fresh.bind fun Q t u grows _ new => ?_
    refine (ih fun w member => (grows.keep w (given.2 w member)).1).bind fun R s r grows' keeps found => ?_
    obtain ⟨same, keys⟩ := found
    have shared := ((grows.trans grows').keep v given.1).1
    obtain ⟨l, _, rfl⟩ := keeps
    refine parallel_pure ⟨(Pairing.sameSubst_single shared (new.extend grows')).union same fun w _ => keys w, fun w => ?_⟩
    simp only [Std.ExtTreeMap.mem_union_iff, Subst.mem_single, (TyVar.shift_injective n k).eq_iff, keys]

/-- Corresponding schemes have corresponding instances. -/
theorem shifted_instantiate (same : (shifted n k).scheme P σ τ) :
    (shifted n k).Parallel P Pairing.Same (instantiate σ) (instantiate τ) := by
  intro keeps
  obtain ⟨made, vars⟩ := same
  have given (v : TyVar) (member : v ∈ σ.vars) : P.shared v := by
    obtain ⟨l, _, rfl⟩ := keeps
    exact made.left v member
  rw [instantiate, instantiate, vars]
  exact (shifted_renewal σ.vars given).bind (fun Q s r grows _ found =>
    parallel_pure (found.1.apply (made.type.extend grows))) keeps

theorem lawful_shifted (n k : Nat) : (shifted n k).Lawful where
  extend grows same := ⟨same.1.extend grows, same.2⟩
  mono same := ⟨⟨same, by simp [Scheme.mono], by simp [Scheme.mono], by simp [Scheme.mono]⟩, rfl⟩
  subst _ same solved := ⟨same.1.subst solved, same.2⟩
  generalize := shifted_generalize
  freshVar := shifted_freshVar
  instantiate := shifted_instantiate

end

end Comparison

/-! ### Environments and items -/

namespace Env
variable {Γ Δ : Env} {ρ : TyVar → TyVar}

theorem getElem?_rename (ρ : TyVar → TyVar) (Γ : Env) (name : String) :
    (Γ.rename ρ)[name]? = Γ[name]?.map (Scheme.rename ρ) :=
  Std.ExtTreeMap.getElem?_map

theorem eq_rename_iff : Δ = Γ.rename ρ ↔ Γ.Related (fun σ τ => τ = σ.rename ρ) Δ := by
  constructor
  · rintro rfl name
    rw [getElem?_rename]
    cases Γ[name]? <;> simp
  · intro related
    refine Std.ExtTreeMap.ext_getElem? fun name => ?_
    have here := related name
    rw [getElem?_rename]
    cases left : Γ[name]? <;> cases right : Δ[name]? <;> simp_all

theorem rename_eq_self (same : ∀ v ∈ Γ.mentioned, ρ v = v) : Γ.rename ρ = Γ := by
  refine Std.ExtTreeMap.ext_getElem? fun name => ?_
  rw [getElem?_rename]
  cases look : Γ[name]? with
  | none => rfl
  | some σ =>
    have mentioned {v : TyVar} (member : v ∈ σ.ty.freeVars ∨ v ∈ σ.vars) : ρ v = v :=
      same v (mem_mentioned.mpr ⟨name, σ, look, member⟩)
    have type : σ.ty.rename ρ = σ.ty :=
      (Ty.rename_congr fun v member => mentioned (.inl member)).trans (Ty.rename_id σ.ty)
    have vars : σ.vars.map ρ = σ.vars :=
      (List.map_congr_left fun v member => mentioned (.inr member)).trans (List.map_id _)
    rw [Option.map_some, Scheme.rename, type, vars]

end Env

namespace Infer
open Comparison

/-- Between two items, one run is ahead of another by `k` from `n` on, and all else is the same. -/
structure Ahead (n k : Nat) (Γ Δ : Env) (st st' : State) : Prop where
  start : n ≤ st.next
  next : st'.next = st.next + k
  measures : st'.measures = st.measures
  below : Γ.Below st.next
  env : Δ = Γ.rename (TyVar.shift n k)

section
variable {n k : Nat} {P : Pairing} {Γ Δ : Env} {st st' : State}

/-- An environment corresponds to the one with shifted variables. -/
theorem sameEnv_rename {l : Nat} (n k : Nat) (below : Γ.Below l) :
    (shifted n k).SameEnv (shiftPairing n k l) Γ (Γ.rename (TyVar.shift n k)) := by
  refine (Env.eq_rename_iff.mp rfl).imp fun name σ τ look _ same => ?_
  subst same
  have below {v : TyVar} (member : v ∈ σ.ty.freeVars ∨ v ∈ σ.vars) : v < l :=
    below v (Env.mem_mentioned.mpr ⟨name, σ, look, member⟩)
  refine ⟨⟨⟨fun v member => below (.inl member), rfl⟩, fun v _ => ?_, fun v member => below (.inr member), ?_⟩, rfl⟩
  · exact (List.mem_map_of_injective (TyVar.shift_injective n k)).symm
  · intro w member
    obtain ⟨v, found, rfl⟩ := List.mem_map.mp member
    exact (shiftPairing n k l).right_below v (below (.inr found))

/-- Variables that were there before the shift keep their names. -/
theorem sameEnv_self (k : Nat) (below : Γ.Below n) : (shifted n k).SameEnv (shiftPairing n k n) Γ Γ := by
  have same := sameEnv_rename n k below
  rwa [Env.rename_eq_self fun v mentioned => TyVar.shift_of_lt (below v mentioned)] at same

theorem Ahead.sameEnv (ahead : Ahead n k Γ Δ st st') : (shifted n k).SameEnv (shiftPairing n k st.next) Γ Δ :=
  ahead.env ▸ sameEnv_rename n k ahead.below

/-- What an item starts with is the same. -/
theorem Ahead.sameState (ahead : Ahead n k Γ Δ st st') :
    (shiftPairing n k st.next).SameState { st with named := ∅, solved := ∅ } { st' with named := ∅, solved := ∅ } where
  left := rfl
  right := ahead.next
  measures := ahead.measures
  named := by simp
  shared := by simp
  solved := Pairing.sameSubst_empty _

theorem eq_rename_of_sameEnv (keeps : (shifted n k).keeps P) (same : (shifted n k).SameEnv P Γ Δ) :
    Δ = Γ.rename (TyVar.shift n k) :=
  Env.eq_rename_iff.mpr (Env.Related.imp same fun _ _ _ _ _ => eq_rename_of_shifted keeps)

theorem ahead_of_same (keeps : (shifted n k).keeps P) (states : P.SameState st st')
    (same : (shifted n k).SameEnv P Γ Δ) : Ahead n k Γ Δ st st' := by
  have env := eq_rename_of_sameEnv keeps same
  obtain ⟨l, start, rfl⟩ := keeps
  have next : st.next = l := states.left
  refine ⟨next ▸ start, next ▸ states.right, states.measures, fun v mentioned => ?_, env⟩
  rw [next]
  obtain ⟨name, σ, look, member⟩ := Env.mem_mentioned.mp mentioned
  obtain ⟨τ, _, made, _⟩ := Env.Related.left same look
  exact member.elim (made.type.1 v) (made.left v)

theorem Ahead.keeps (ahead : Ahead n k Γ Δ st st') : (shifted n k).keeps (shiftPairing n k st.next) :=
  ⟨st.next, ahead.start, rfl⟩

/-- An item has the same outcome in both runs. -/
theorem Ahead.inferItem (ahead : Ahead n k Γ Δ st st') (item : Item) :
    (shifted n k).Agree (shiftPairing n k st.next) (shifted n k).SameEnv (inferItem Γ item st) (inferItem Δ item st') := by
  have agree := parallel_inferItem (lawful_shifted n k) ahead.sameEnv item ahead.keeps _ _ ahead.sameState
  exact agree

/-- Items have the same outcome in both runs. -/
theorem Ahead.inferItems (ahead : Ahead n k Γ Δ st st') (items : List Item) :
    (shifted n k).Agree (shiftPairing n k st.next) (shifted n k).SameEnv
      (inferItems Γ items { st with named := ∅, solved := ∅ })
      (inferItems Δ items { st' with named := ∅, solved := ∅ }) :=
  parallel_inferItems (lawful_shifted n k) ahead.sameEnv items ahead.keeps _ _ ahead.sameState

end

end Infer

end LetPoly
