import Mathlib.Logic.Equiv.Basic
import LetPoly.Proofs.Reading
import LetPoly.Proofs.Renaming

/-!
Two runs of inference side by side. A pairing says which variables of the two correspond; it grows on
the way, as variables are given out (`Grows`). What the runs have at a point is the same up to the
names of variables: types, substitutions, states. How schemes correspond is left open (`Comparison`),
as long as it fits with what inference does to schemes (`Lawful`). Two steps are parallel if their
outcomes agree from states that are the same (`Parallel`), and parallel steps are closed under
sequencing (`Parallel.bind`).
-/
namespace LetPoly

/-- A correspondence between the variables of two runs: those of the first that are shared have another
    name in the second. Shared variables have been given out, in the first run up to `left` and in the
    second up to `right`. -/
structure Pairing where
  name : TyVar → TyVar
  shared : TyVar → Prop
  left : Nat
  right : Nat
  injective : Function.Injective name
  left_below : ∀ v, shared v → v < left
  right_below : ∀ v, shared v → name v < right

namespace Pairing

/-- Further variables are shared, which are new in both runs. -/
structure Grows (P Q : Pairing) : Prop where
  left : P.left ≤ Q.left
  right : P.right ≤ Q.right
  keep : ∀ v, P.shared v → Q.shared v ∧ Q.name v = P.name v
  new : ∀ v, Q.shared v → P.shared v ∨ P.left ≤ v ∧ P.right ≤ Q.name v

/-- A type of shared variables and the same type in the second run. -/
def Same (P : Pairing) (t u : Ty) : Prop :=
  t.In P.shared ∧ u = t.rename P.name

/-- Types of shared variables and the same types in the second run. -/
def SameList (P : Pairing) (ts us : List Ty) : Prop :=
  (∀ t ∈ ts, t.In P.shared) ∧ us = ts.map (Ty.rename P.name)

/-- Types of names and the same types in the second run. -/
def SameNamed (P : Pairing) (named others : List (String × Ty)) : Prop :=
  NamedIn P.shared named ∧ others = named.map fun (name, t) => (name, t.rename P.name)

/-- The substitutions put the same types for shared variables, and none for variables that have not
    been given out. -/
structure SameSubst (P : Pairing) (s r : Subst) : Prop where
  values : ∀ v, P.shared v → P.Same (s.value v) (r.value (P.name v))
  left : ∀ v ∈ s, v < P.left
  right : ∀ v ∈ r, v < P.right

/-- The states are the same up to the names of variables, the journals apart. -/
structure SameState (P : Pairing) (st st' : State) : Prop where
  left : st.next = P.left
  right : st'.next = P.right
  measures : st'.measures = st.measures
  named : ∀ name : String, st'.named[name]? = st.named[name]?.map P.name
  shared : ∀ (name : String) (v : TyVar), st.named[name]? = some v → P.shared v
  solved : P.SameSubst st.solved st'.solved

/-- Results with what is solved for them, which is the same too. -/
def SameWith {α β : Type} (A : Pairing → α → β → Prop) (P : Pairing) (x : Subst × α) (y : Subst × β) : Prop :=
  P.SameSubst x.1 y.1 ∧ A P x.2 y.2

section
variable {P Q R : Pairing} {t u : Ty}

theorem Grows.refl (P : Pairing) : P.Grows P :=
  ⟨Nat.le_refl _, Nat.le_refl _, fun _ shared => ⟨shared, rfl⟩, fun _ => .inl⟩

theorem Grows.trans (first : P.Grows Q) (second : Q.Grows R) : P.Grows R where
  left := Nat.le_trans first.left second.left
  right := Nat.le_trans first.right second.right
  keep v shared := by
    obtain ⟨shared₁, same₁⟩ := first.keep v shared
    obtain ⟨shared₂, same₂⟩ := second.keep v shared₁
    exact ⟨shared₂, same₂.trans same₁⟩
  new v shared := by
    rcases second.new v shared with shared₁ | ⟨above, above'⟩
    · rw [(second.keep v shared₁).2]
      exact first.new v shared₁
    · exact .inr ⟨Nat.le_trans first.left above, Nat.le_trans first.right above'⟩

/-! ### Types -/

theorem same_prim (P : Pairing) (p : Prim) : P.Same (.prim p) (.prim p) :=
  ⟨Ty.in_prim p, rfl⟩

theorem same_var {v : TyVar} (shared : P.shared v) : P.Same (.var v) (.var (P.name v)) :=
  ⟨Ty.in_var.mpr shared, rfl⟩

theorem Same.wrap (same : P.Same t u) (w : Wrapper) : P.Same (.wrap w t) (.wrap w u) :=
  ⟨Ty.in_wrap.mpr same.1, by rw [same.2, Ty.rename_wrap]⟩

theorem Same.func {t' u' : Ty} (param : P.Same t u) (result : P.Same t' u') : P.Same (.func t t') (.func u u') :=
  ⟨Ty.in_func.mpr ⟨param.1, result.1⟩, by rw [param.2, result.2, Ty.rename_func]⟩

theorem Same.withMeasure (same : P.Same t u) (m : Measure) : P.Same (t.withMeasure m) (u.withMeasure m) := by
  cases m with
  | one => exact same
  | _ => exact same.wrap _

theorem Same.extend (same : P.Same t u) (grows : P.Grows Q) : Q.Same t u := by
  refine ⟨same.1.imp fun v shared => (grows.keep v shared).1, ?_⟩
  rw [same.2]
  exact Ty.rename_congr fun v member => ((grows.keep v (same.1 v member)).2).symm

/-- The same types are put for the variables of a type. -/
theorem same_bind {f g : TyVar → Ty} (here : ∀ v ∈ t.freeVars, P.Same (f v) (g v)) :
    P.Same (t.bind f) (t.bind g) := by
  constructor
  · intro w member
    obtain ⟨v, found, stands⟩ := Ty.mem_freeVars_bind.mp member
    exact (here v found).1 w stands
  · rw [Ty.rename_bind]
    exact Ty.bind_congr fun v member => (here v member).2

theorem same_tuple {a b c d : Ty} {ts us : List Ty} (same : P.SameList (a :: b :: ts) (c :: d :: us)) :
    P.Same (.tuple a b ts) (.tuple c d us) := by
  obtain ⟨inside, equal⟩ := same
  simp only [List.mem_cons, forall_eq_or_imp] at inside
  simp only [List.map_cons, List.cons.injEq] at equal
  exact ⟨Ty.in_tuple.mpr inside, by rw [equal.1, equal.2.1, equal.2.2, Ty.rename_tuple]⟩

theorem sameList_nil (P : Pairing) : P.SameList [] [] := by
  simp [SameList]

theorem SameList.cons {ts us : List Ty} (first : P.Same t u) (rest : P.SameList ts us) :
    P.SameList (t :: ts) (u :: us) := by
  refine ⟨?_, by rw [first.2, rest.2, List.map_cons]⟩
  simp only [List.mem_cons, forall_eq_or_imp]
  exact ⟨first.1, rest.1⟩

theorem SameList.extend {ts us : List Ty} (same : P.SameList ts us) (grows : P.Grows Q) : Q.SameList ts us := by
  refine ⟨fun t member => (same.1 t member).imp fun v shared => (grows.keep v shared).1, ?_⟩
  rw [same.2]
  exact List.map_congr_left fun t member => (Same.extend ⟨same.1 t member, rfl⟩ grows).2

/-- One type for each member of a list. -/
theorem sameList_map {α : Type} (members : List α) (same : P.Same t u) :
    P.SameList (members.map fun _ => t) (members.map fun _ => u) := by
  constructor
  · intro t' member
    obtain ⟨_, _, rfl⟩ := List.mem_map.mp member
    exact same.1
  · rw [List.map_map, same.2]
    rfl

theorem sameNamed_nil (P : Pairing) : P.SameNamed [] [] :=
  ⟨namedIn_nil _, rfl⟩

theorem sameNamed_single (name : String) (same : P.Same t u) : P.SameNamed [(name, t)] [(name, u)] := by
  obtain ⟨inside, rfl⟩ := same
  exact ⟨by simpa [NamedIn] using inside, rfl⟩

theorem SameNamed.append {named others named' others' : List (String × Ty)} (first : P.SameNamed named others)
    (rest : P.SameNamed named' others') : P.SameNamed (named ++ named') (others ++ others') :=
  ⟨namedIn_append.mpr ⟨first.1, rest.1⟩, by rw [first.2, rest.2, List.map_append]⟩

theorem SameNamed.extend {named others : List (String × Ty)} (same : P.SameNamed named others) (grows : P.Grows Q) :
    Q.SameNamed named others := by
  refine ⟨same.1.imp fun v shared => (grows.keep v shared).1, ?_⟩
  rw [same.2]
  exact List.map_congr_left fun entry member =>
    congrArg (Prod.mk entry.1) (Same.extend ⟨same.1 entry member, rfl⟩ grows).2

/-! ### Substitutions -/

theorem sameSubst_empty (P : Pairing) : P.SameSubst ∅ ∅ where
  values v shared := by
    rw [Subst.value_empty, Subst.value_empty]
    exact same_var shared
  left v key := absurd key Std.ExtTreeMap.not_mem_empty
  right v key := absurd key Std.ExtTreeMap.not_mem_empty

section
variable {s r s' r' : Subst}

theorem SameSubst.apply (same : P.SameSubst s r) (types : P.Same t u) : P.Same (s.apply t) (r.apply u) := by
  obtain ⟨inside, rfl⟩ := types
  rw [Subst.apply_eq_bind, Subst.apply_eq_bind, Ty.bind_rename]
  exact same_bind fun v member => same.values v (inside v member)

theorem SameSubst.applyNamed {named others : List (String × Ty)} (same : P.SameSubst s r)
    (types : P.SameNamed named others) : P.SameNamed (s.applyNamed named) (r.applyNamed others) := by
  obtain ⟨inside, rfl⟩ := types
  constructor
  · intro entry member
    obtain ⟨before, found, rfl⟩ := List.mem_map.mp member
    exact (same.apply ⟨inside before found, rfl⟩).1
  · simp only [Subst.applyNamed, List.map_map]
    exact List.map_congr_left fun entry member =>
      congrArg (Prod.mk entry.1) (same.apply ⟨inside entry member, rfl⟩).2

theorem SameSubst.after (outer : P.SameSubst s' r') (inner : P.SameSubst s r) :
    P.SameSubst (s'.after s) (r'.after r) where
  values v shared := by
    rw [Subst.value_after, Subst.value_after, ← Subst.apply_eq_bind, ← Subst.apply_eq_bind]
    exact outer.apply (inner.values v shared)
  left v key := (Subst.mem_after.mp key).elim (inner.left v) (outer.left v)
  right v key := (Subst.mem_after.mp key).elim (inner.right v) (outer.right v)

/-- A variable that is given out later stands for itself. -/
theorem SameSubst.extend (same : P.SameSubst s r) (grows : P.Grows Q) : Q.SameSubst s r where
  values v shared := by
    rcases grows.new v shared with before | ⟨above, above'⟩
    · rw [(grows.keep v before).2]
      exact (same.values v before).extend grows
    · rw [Subst.value_of_notMem fun key => Nat.not_lt_of_le above (same.left v key),
        Subst.value_of_notMem fun key => Nat.not_lt_of_le above' (same.right _ key)]
      exact same_var shared
  left v key := Nat.lt_of_lt_of_le (same.left v key) grows.left
  right v key := Nat.lt_of_lt_of_le (same.right v key) grows.right

/-- The same equations have the same solutions. -/
theorem sameSubst_unify {a b : Ty} (left : a.In P.shared) (right : b.In P.shared) (solution : unify a b = .ok s)
    (other : unify (a.rename P.name) (b.rename P.name) = .ok r) (renames : s.Renames P.name r) :
    P.SameSubst s r where
  values v shared := by
    refine ⟨?_, renames v⟩
    cases found : s[v]? with
    | none =>
      rw [Subst.value, found, Option.getD_none, Ty.in_var]
      exact shared
    | some t =>
      rw [Subst.value, found, Option.getD_some]
      exact fun w member => ((unify_inside solution found).2 w member).elim (left w) (right w)
  left v key := by
    have inside := (unify_inside solution (Std.ExtTreeMap.getElem?_eq_some_getElem key)).1
    exact P.left_below v (inside.elim (left v) (right v))
  right w key := by
    have image {t : Ty} (inside : t.In P.shared) (member : w ∈ (t.rename P.name).freeVars) : w < P.right := by
      obtain ⟨v, found, rfl⟩ := Ty.mem_freeVars_rename.mp member
      exact P.right_below v (inside v found)
    exact (unify_inside other (Std.ExtTreeMap.getElem?_eq_some_getElem key)).1.elim (image left) (image right)

end

/-! ### States -/

/-- Variables are given out, and some of them may be shared. -/
theorem SameState.extend {st st' : State} {k l : Nat} (same : P.SameState st st') (grows : P.Grows Q)
    (left : st.next + k = Q.left) (right : st'.next + l = Q.right) :
    Q.SameState { st with next := st.next + k } { st' with next := st'.next + l } where
  left := left
  right := right
  measures := same.measures
  named name := by
    rw [same.named name]
    cases found : st.named[name]? with
    | none => rfl
    | some v => rw [Option.map_some, Option.map_some, (grows.keep v (same.shared name v found)).2]
  shared name v found := (grows.keep v (same.shared name v found)).1
  solved := same.solved.extend grows

end

/-! ### Growth -/

/-- A further variable can be shared under a name that no other has. -/
theorem exists_pair (P : Pairing) {x y : TyVar} (left : x < P.left) (right : y < P.right) (new : ¬ P.shared x)
    (apart : ∀ v, P.shared v → P.name v ≠ y) :
    ∃ Q : Pairing, Q.left = P.left ∧ Q.right = P.right ∧ (∀ v, Q.shared v ↔ P.shared v ∨ v = x) ∧
      (∀ v, P.shared v → Q.name v = P.name v) ∧ Q.name x = y := by
  have keep (v : TyVar) (shared : P.shared v) : Equiv.swap (P.name x) y (P.name v) = P.name v :=
    Equiv.swap_apply_of_ne_of_ne (fun same => new (P.injective same ▸ shared)) (apart v shared)
  have here : Equiv.swap (P.name x) y (P.name x) = y := Equiv.swap_apply_left _ _
  let Q : Pairing :=
    { name := fun v => Equiv.swap (P.name x) y (P.name v)
      shared := fun v => P.shared v ∨ v = x
      left := P.left
      right := P.right
      injective := (Equiv.injective _).comp P.injective
      left_below := by
        rintro v (shared | rfl)
        · exact P.left_below v shared
        · exact left
      right_below := by
        rintro v (shared | rfl)
        · rw [keep v shared]
          exact P.right_below v shared
        · rw [here]
          exact right }
  exact ⟨Q, rfl, rfl, fun _ => Iff.rfl, keep, here⟩

/-- New variables can be shared under new names, if different ones get different names. -/
theorem exists_grows {ι : Type} (P : Pairing) {l r : Nat} (left : P.left ≤ l) (right : P.right ≤ r) (members : List ι)
    (p q : ι → TyVar) (new : ∀ i ∈ members, P.left ≤ p i ∧ p i < l) (new' : ∀ i ∈ members, P.right ≤ q i ∧ q i < r)
    (one : ∀ i ∈ members, ∀ j ∈ members, p i = p j → i = j) (one' : ∀ i ∈ members, ∀ j ∈ members, q i = q j → i = j) :
    ∃ Q : Pairing, P.Grows Q ∧ Q.left = l ∧ Q.right = r ∧
      (∀ v, Q.shared v → P.shared v ∨ ∃ i ∈ members, v = p i) ∧
      ∀ i ∈ members, Q.shared (p i) ∧ Q.name (p i) = q i := by
  induction members with
  | nil =>
    let Q : Pairing :=
      { P with
        left := l
        right := r
        left_below := fun v shared => Nat.lt_of_lt_of_le (P.left_below v shared) left
        right_below := fun v shared => Nat.lt_of_lt_of_le (P.right_below v shared) right }
    exact ⟨Q, ⟨left, right, fun _ shared => ⟨shared, rfl⟩, fun _ => .inl⟩, rfl, rfl, fun _ => .inl, by simp⟩
  | cons i members ih =>
    have later {j : ι} (member : j ∈ members) : j ∈ i :: members := List.mem_cons_of_mem i member
    obtain ⟨Q, grows, rfl, rfl, origin, names⟩ := ih (fun j member => new j (later member))
      (fun j member => new' j (later member)) (fun j member k member' => one j (later member) k (later member'))
      fun j member k member' => one' j (later member) k (later member')
    by_cases again : i ∈ members
    · refine ⟨Q, grows, rfl, rfl, fun v shared => ?_, fun j member => ?_⟩
      · exact (origin v shared).imp_right fun ⟨j, member, same⟩ => ⟨j, later member, same⟩
      · rcases List.mem_cons.mp member with rfl | member
        · exact names j again
        · exact names j member
    · obtain ⟨above, below⟩ := new i List.mem_cons_self
      obtain ⟨above', below'⟩ := new' i List.mem_cons_self
      have unshared : ¬ Q.shared (p i) := by
        intro shared
        rcases origin _ shared with shared | ⟨j, member, same⟩
        · exact Nat.not_lt_of_le above (P.left_below _ shared)
        · exact again (one i List.mem_cons_self j (later member) same ▸ member)
      have apart (v : TyVar) (shared : Q.shared v) : Q.name v ≠ q i := by
        rcases origin v shared with shared | ⟨j, member, rfl⟩
        · rw [(grows.keep v shared).2]
          exact Nat.ne_of_lt (Nat.lt_of_lt_of_le (P.right_below v shared) above')
        · rw [(names j member).2]
          exact fun same => again (one' j (later member) i List.mem_cons_self same ▸ member)
      obtain ⟨S, left, right, shared, keep, here⟩ := Q.exists_pair below below' unshared apart
      refine ⟨S, ⟨left ▸ grows.left, right ▸ grows.right, fun v old => ?_, fun v found => ?_⟩, left, right,
        fun v found => ?_, fun j member => ?_⟩
      · obtain ⟨old, same⟩ := grows.keep v old
        exact ⟨(shared v).mpr (.inl old), (keep v old).trans same⟩
      · rcases (shared v).mp found with found | rfl
        · rw [keep v found]
          exact grows.new v found
        · exact .inr ⟨above, here ▸ above'⟩
      · rcases (shared v).mp found with found | rfl
        · exact (origin v found).imp_right fun ⟨j, member, same⟩ => ⟨j, later member, same⟩
        · exact .inr ⟨i, List.mem_cons_self, rfl⟩
      · rcases List.mem_cons.mp member with rfl | member
        · exact ⟨(shared _).mpr (.inr rfl), here⟩
        · obtain ⟨found, same⟩ := names j member
          exact ⟨(shared _).mpr (.inl found), (keep _ found).trans same⟩

end Pairing

/-! ### Parallel steps -/

/-- What is compared besides types: `keeps` holds of the pairing all the time, `scheme` says which schemes
    correspond, and `mayStop` whether the first run may have no variables left where the second has some. -/
structure Comparison where
  keeps : Pairing → Prop
  scheme : Pairing → Scheme → Scheme → Prop
  mayStop : Prop

namespace Comparison
open Infer

/-- The environments have corresponding schemes for the same names. -/
def SameEnv (C : Comparison) (P : Pairing) (Γ Δ : Env) : Prop :=
  Env.Related (C.scheme P) Γ Δ

/-- Two outcomes agree: both are results that `A` relates, or both are the same error, and the states
    are the same. Where one of the runs has no variables left nothing is said. -/
inductive Agree {α β : Type} (C : Comparison) (P : Pairing) (A : Pairing → α → β → Prop) :
    EStateM.Result Failure State α → EStateM.Result Failure State β → Prop where
  | ok {Q : Pairing} {a : α} {b : β} {st st' : State} : P.Grows Q → C.keeps Q → Q.SameState st st' → A Q a b →
    Agree C P A (.ok a st) (.ok b st')
  | illTyped {Q : Pairing} {e : TypeError} {st st' : State} : P.Grows Q → C.keeps Q → Q.SameState st st' →
    Agree C P A (.error (.illTyped e) st) (.error (.illTyped (e.rename Q.name)) st')
  | outLeft {st : State} {res : EStateM.Result Failure State β} : C.mayStop →
    Agree C P A (.error .outOfVariables st) res
  | outRight {res : EStateM.Result Failure State α} {st : State} : Agree C P A res (.error .outOfVariables st)

/-- From states that are the same the two steps have outcomes that agree. -/
def Parallel {α β : Type} (C : Comparison) (P : Pairing) (A : Pairing → α → β → Prop) (m : Infer α)
    (m' : Infer β) : Prop :=
  C.keeps P → ∀ st st' : State, P.SameState st st' → C.Agree P A (m st) (m' st')

/-- What inference does to schemes respects the comparison. -/
structure Lawful (C : Comparison) : Prop where
  extend {P Q : Pairing} {σ τ : Scheme} : P.Grows Q → C.scheme P σ τ → C.scheme Q σ τ
  mono {P : Pairing} {t u : Ty} : P.Same t u → C.scheme P (.mono t) (.mono u)
  subst {P : Pairing} {σ τ : Scheme} {s r : Subst} : C.keeps P → C.scheme P σ τ → P.SameSubst s r →
    C.scheme P (σ.subst s) (τ.subst r)
  generalize {P : Pairing} {Γ Δ : Env} {t u : Ty} : C.keeps P → C.SameEnv P Γ Δ → P.Same t u →
    C.scheme P (Γ.generalize t) (Δ.generalize u)
  freshVar (P : Pairing) : C.Parallel P (fun Q v w => Q.shared v ∧ w = Q.name v) freshVar freshVar
  instantiate {P : Pairing} {σ τ : Scheme} : C.scheme P σ τ →
    C.Parallel P Pairing.Same (instantiate σ) (instantiate τ)

variable {C : Comparison} {P Q : Pairing} {α β γ δ : Type} {A : Pairing → α → β → Prop} {B : Pairing → γ → δ → Prop}

theorem Agree.extend {x : EStateM.Result Failure State α} {y : EStateM.Result Failure State β} (grows : P.Grows Q)
    (agree : C.Agree Q A x y) : C.Agree P A x y := by
  cases agree with
  | ok further keeps same related => exact .ok (grows.trans further) keeps same related
  | illTyped further keeps same => exact .illTyped (grows.trans further) keeps same
  | outLeft may => exact .outLeft may
  | outRight => exact .outRight

/-- Outcomes that agree are followed by parallel steps. -/
theorem Agree.bind {m : Infer α} {m' : Infer β} {f : α → Infer γ} {g : β → Infer δ} {st st' : State}
    (first : C.Agree P A (m st) (m' st'))
    (next : ∀ (Q : Pairing) (a : α) (b : β), P.Grows Q → C.keeps Q → A Q a b → C.Parallel Q B (f a) (g b)) :
    C.Agree P B ((m >>= f) st) ((m' >>= g) st') := by
  show C.Agree P B (EStateM.bind m f st) (EStateM.bind m' g st')
  unfold EStateM.bind
  revert first
  generalize m st = x
  generalize m' st' = y
  intro first
  cases first with
  | ok grows keeps same related => exact (next _ _ _ grows keeps related keeps _ _ same).extend grows
  | illTyped grows keeps same => exact .illTyped grows keeps same
  | outLeft may => exact .outLeft may
  | outRight => exact .outRight

/-- Parallel steps in turn, the second ones from what the first ones return. -/
theorem Parallel.bind {m : Infer α} {m' : Infer β} {f : α → Infer γ} {g : β → Infer δ} (first : C.Parallel P A m m')
    (next : ∀ (Q : Pairing) (a : α) (b : β), P.Grows Q → C.keeps Q → A Q a b → C.Parallel Q B (f a) (g b)) :
    C.Parallel P B (m >>= f) (m' >>= g) :=
  fun keeps st st' same => (first keeps st st' same).bind next

theorem parallel_pure {a : α} {b : β} (related : A P a b) : C.Parallel P A (pure a) (pure b) :=
  fun keeps _ _ same => .ok (.refl P) keeps same related

/-- The same errors stop both runs. -/
theorem parallel_fail {span : Span} {cause cause' : TypeError.Cause}
    (same : TypeError.rename P.name { cause, span } = { cause := cause', span }) :
    C.Parallel P A (fail span cause) (fail span cause') := by
  intro keeps st st' states
  show C.Agree P A (.error (.illTyped { cause, span }) st) (.error (.illTyped { cause := cause', span }) st')
  rw [← same]
  exact .illTyped (.refl P) keeps states

/-! ### Environments -/

section
variable {Γ Δ : Env}

theorem SameEnv.extend (same : C.SameEnv P Γ Δ) (lawful : C.Lawful) (grows : P.Grows Q) : C.SameEnv Q Γ Δ :=
  Env.Related.imp same fun _ _ _ _ _ => lawful.extend grows

theorem SameEnv.subst {s r : Subst} (same : C.SameEnv P Γ Δ) (lawful : C.Lawful) (keeps : C.keeps P)
    (solved : P.SameSubst s r) : C.SameEnv P (Γ.subst s) (Δ.subst r) := by
  intro name
  have here := same name
  rw [Env.getElem?_subst, Env.getElem?_subst]
  cases left : Γ[name]? <;> cases right : Δ[name]? <;> rw [left, right] at here <;>
    simp only [Option.map_some, Option.map_none] at here ⊢
  exact lawful.subst keeps here solved

theorem SameEnv.extendMono {named others : List (String × Ty)} (same : C.SameEnv P Γ Δ) (lawful : C.Lawful)
    (names : P.SameNamed named others) : C.SameEnv P (Γ.extendMono named) (Δ.extendMono others) := by
  obtain ⟨inside, rfl⟩ := names
  rw [Env.extendMono, Env.extendMono, List.map_map]
  exact Env.Related.extend_map same fun entry member => lawful.mono ⟨inside entry member, rfl⟩

/-- Types that are quantified in corresponding environments make them grow alike. -/
theorem SameEnv.bodyEnv {named others : List (String × Ty)} (same : C.SameEnv P Γ Δ) (lawful : C.Lawful)
    (keeps : C.keeps P) (names : P.SameNamed named others) :
    C.SameEnv P (Typing.bodyEnv Γ named) (Typing.bodyEnv Δ others) := by
  obtain ⟨inside, rfl⟩ := names
  rw [Typing.bodyEnv, Typing.bodyEnv, List.map_map]
  exact Env.Related.extend_map same fun entry member => lawful.generalize keeps same ⟨inside entry member, rfl⟩

end

end Comparison

end LetPoly
