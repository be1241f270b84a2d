import LetPoly.Proofs.Groups
import LetPoly.Proofs.Pairing

/-!
Schemes that are equal up to the names of quantified variables (`Alike`). Replacing free variables
keeps them alike if nothing is captured (`Alike.subst`), or if they are made in the runs, since then the
same variables are captured on both sides (`Made.subst`); their instances by new variables are the same
(`Alike.instances`). So two runs can be compared up to these names, if the schemes that they start with
do not quantify what is shared (`lawful_upToNames`).
-/
namespace LetPoly

namespace Pairing

/-- The schemes are equal up to the names of quantified variables, where the free ones are shared. -/
def Alike (P : Pairing) (σ τ : Scheme) : Prop :=
  ∃ π : TyVar → TyVar,
    (∀ v ∈ σ.ty.freeVars, ∀ w ∈ σ.ty.freeVars, π v = π w → v = w) ∧
    (∀ v ∈ σ.ty.freeVars, (v ∈ σ.vars ↔ π v ∈ τ.vars) ∧ (v ∉ σ.vars → P.shared v ∧ π v = P.name v)) ∧
    σ.ty.rename π = τ.ty

/-- The schemes have the same type, and the same shared variables are quantified. -/
structure Made (P : Pairing) (σ τ : Scheme) : Prop where
  type : P.Same σ.ty τ.ty
  bound : ∀ v, P.shared v → (v ∈ σ.vars ↔ P.name v ∈ τ.vars)
  left : ∀ v ∈ σ.vars, v < P.left
  right : ∀ v ∈ τ.vars, v < P.right

section
variable {P Q : Pairing} {σ τ : Scheme} {s r : Subst}

theorem Made.alike (made : P.Made σ τ) : P.Alike σ τ :=
  ⟨P.name, fun _ _ _ _ same => P.injective same,
    fun v member => ⟨made.bound v (made.type.1 v member), fun _ => ⟨made.type.1 v member, rfl⟩⟩, made.type.2.symm⟩

theorem Made.extend (made : P.Made σ τ) (grows : P.Grows Q) : Q.Made σ τ where
  type := made.type.extend grows
  bound v shared := by
    rcases grows.new v shared with before | ⟨above, above'⟩
    · rw [(grows.keep v before).2]
      exact made.bound v before
    · exact iff_of_false (fun member => Nat.not_lt_of_le above (made.left v member))
        fun member => Nat.not_lt_of_le above' (made.right _ member)
  left v member := Nat.lt_of_lt_of_le (made.left v member) grows.left
  right v member := Nat.lt_of_lt_of_le (made.right v member) grows.right

/-- The same variables are captured on both sides. -/
theorem Made.subst (made : P.Made σ τ) (solved : P.SameSubst s r) : P.Made (σ.subst s) (τ.subst r) where
  type := by
    obtain ⟨inside, same⟩ := made.type
    show P.Same (σ.ty.bind _) (τ.ty.bind _)
    rw [same, Ty.bind_rename]
    refine same_bind fun v member => ?_
    simp only [Scheme.mem_bound, ← made.bound v (inside v member)]
    split
    · exact same_var (inside v member)
    · exact solved.values v (inside v member)
  bound := made.bound
  left := made.left
  right := made.right

theorem Alike.extend (alike : P.Alike σ τ) (grows : P.Grows Q) : Q.Alike σ τ := by
  obtain ⟨π, injective, bound, same⟩ := alike
  refine ⟨π, injective, fun v member => ⟨(bound v member).1, fun free => ?_⟩, same⟩
  obtain ⟨shared, equal⟩ := (bound v member).2 free
  obtain ⟨shared', keep⟩ := grows.keep v shared
  exact ⟨shared', equal.trans keep.symm⟩

theorem Alike.shared (alike : P.Alike σ τ) {v : TyVar} (free : v ∈ σ.freeVars) : P.shared v := by
  obtain ⟨π, _, bound, _⟩ := alike
  obtain ⟨member, free⟩ := Scheme.mem_freeVars.mp free
  exact ((bound v member).2 free).1

theorem Alike.mem_freeVars (alike : P.Alike σ τ) {w : TyVar} :
    w ∈ τ.freeVars ↔ ∃ v ∈ σ.freeVars, P.name v = w := by
  obtain ⟨π, injective, bound, same⟩ := alike
  rw [Scheme.mem_freeVars, ← same, Ty.mem_freeVars_rename]
  constructor
  · rintro ⟨⟨v, member, rfl⟩, free⟩
    have free := mt (bound v member).1.mp free
    exact ⟨v, Scheme.mem_freeVars.mpr ⟨member, free⟩, ((bound v member).2 free).2.symm⟩
  · rintro ⟨v, free, rfl⟩
    obtain ⟨member, free⟩ := Scheme.mem_freeVars.mp free
    rw [← ((bound v member).2 free).2]
    exact ⟨⟨v, member, rfl⟩, mt (bound v member).1.mpr free⟩

/-- Where no shared variable is quantified, nothing is captured. -/
theorem Alike.subst (alike : P.Alike σ τ) (solved : P.SameSubst s r) (left : ∀ v, P.shared v → v ∉ σ.vars)
    (right : ∀ v, P.shared v → P.name v ∉ τ.vars) : P.Alike (σ.subst s) (τ.subst r) := by
  obtain ⟨π, injective, bound, same⟩ := alike
  -- A variable is quantified as before, or it comes from what is put for a free one and is shared.
  have origin {w : TyVar} (member : w ∈ (σ.subst s).ty.freeVars) : w ∈ σ.ty.freeVars ∧ w ∈ σ.vars ∨ P.shared w := by
    obtain ⟨v, found, stands⟩ := Ty.mem_freeVars_bind.mp member
    simp only [Scheme.mem_bound] at stands
    split at stands
    · rename_i quantified
      exact .inl (Ty.mem_freeVars_var.mp stands ▸ ⟨found, quantified⟩)
    · rename_i free
      exact .inr ((solved.values v ((bound v found).2 free).1).1 w stands)
  obtain ⟨π', inner, outer⟩ : ∃ π' : TyVar → TyVar, (∀ v ∈ σ.vars, π' v = π v) ∧ ∀ v ∉ σ.vars, π' v = P.name v :=
    ⟨fun v => if v ∈ σ.vars then π v else P.name v, fun _ member => if_pos member,
      fun _ free => if_neg free⟩
  refine ⟨π', ?_, ?_, ?_⟩
  · intro v member w member' equal
    rcases origin member with ⟨found, quantified⟩ | shared <;>
      rcases origin member' with ⟨found', quantified'⟩ | shared'
    · rw [inner v quantified, inner w quantified'] at equal
      exact injective v found w found' equal
    · rw [inner v quantified, outer w (left w shared')] at equal
      exact absurd (equal ▸ (bound v found).1.mp quantified) (right w shared')
    · rw [outer v (left v shared), inner w quantified'] at equal
      exact absurd (equal ▸ (bound w found').1.mp quantified') (right v shared)
    · rw [outer v (left v shared), outer w (left w shared')] at equal
      exact P.injective equal
  · intro v member
    show (v ∈ σ.vars ↔ π' v ∈ τ.vars) ∧ (v ∉ σ.vars → P.shared v ∧ π' v = P.name v)
    rcases origin member with ⟨found, quantified⟩ | shared
    · rw [inner v quantified]
      exact ⟨(bound v found).1, fun free => absurd quantified free⟩
    · rw [outer v (left v shared)]
      exact ⟨iff_of_false (left v shared) (right v shared), fun _ => ⟨shared, rfl⟩⟩
  · show (σ.ty.bind _).rename _ = τ.ty.bind _
    rw [← same, Ty.bind_rename, Ty.rename_bind]
    refine Ty.bind_congr fun v member => ?_
    simp only [Scheme.mem_bound, ← (bound v member).1]
    split
    · rename_i quantified
      rw [Ty.rename_var, inner v quantified]
    · rename_i free
      obtain ⟨shared, equal⟩ := (bound v member).2 free
      obtain ⟨inside, value⟩ := solved.values v shared
      rw [equal, value]
      exact Ty.rename_congr fun w stands => outer w (left w (inside w stands))

end

end Pairing

namespace Infer

/-- Exactly the given variables are replaced, by variables from `n` on of which there are as many, and
    different ones by different ones. -/
def Renews (vars : List TyVar) (n : Nat) (s : Subst) : Prop :=
  (∀ v, v ∈ s ↔ v ∈ vars) ∧ ∃ place : TyVar → Nat,
    (∀ v ∈ vars, s.value v = .var (place v) ∧ n ≤ place v ∧ place v < n + vars.length) ∧
    ∀ v ∈ vars, ∀ w ∈ vars, place v = place w → v = w

theorem renewal_ok {vars : List TyVar} {s : Subst} {st st' : State} (run : renewal vars st = .ok s st') :
    st' = { st with next := st.next + vars.length } ∧ Renews vars st.next s := by
  induction vars generalizing st s with
  | nil =>
    cases run
    exact ⟨rfl, by simp, id, by simp, by simp⟩
  | cons v vars ih =>
    obtain ⟨t, st₁, run₁, run⟩ := bind_ok.mp run
    obtain ⟨r, st₂, run₂, done⟩ := bind_ok.mp run
    cases done
    obtain ⟨rfl, rfl⟩ := fresh_ok run₁
    obtain ⟨rfl, keys, place, values, one⟩ := ih run₂
    refine ⟨by rw [List.length_cons, Nat.add_right_comm]; rfl, fun w => ?_, ?_⟩
    · rw [Std.ExtTreeMap.mem_union_iff, Subst.mem_single, keys, List.mem_cons]
    -- A variable that is given twice has its later place.
    refine ⟨fun w => if w ∈ vars then place w else st.next, fun w member => ?_, fun w member x member' same => ?_⟩
    · simp only [value_union, keys, List.length_cons]
      split
      · rename_i later
        obtain ⟨value, above, below⟩ := values w later
        simp only at above below
        exact ⟨value, by omega, by omega⟩
      · rename_i first
        rw [Subst.value_single, if_pos ((List.mem_cons.mp member).resolve_right first).symm]
        exact ⟨rfl, Nat.le_refl _, by omega⟩
    · simp only at same
      split at same <;> split at same
      · rename_i later later'
        exact one w later x later' same
      · rename_i later _
        have := (values w later).2.1
        simp only at this
        omega
      · rename_i _ later
        have := (values x later).2.1
        simp only at this
        omega
      · rename_i first first'
        rw [(List.mem_cons.mp member).resolve_right first, (List.mem_cons.mp member').resolve_right first']

theorem renewal_error {vars : List TyVar} {e : Failure} {st st' : State} (run : renewal vars st = .error e st') :
    e = .outOfVariables := by
  induction vars generalizing st with
  | nil => cases run
  | cons v vars ih =>
    rcases bind_error.mp run with run | ⟨t, st₁, _, run⟩
    · rw [fresh_run] at run
      split at run <;> cases run
      rfl
    · rcases bind_error.mp run with run | ⟨s, st₂, _, run⟩
      · exact ih run
      · cases run

end Infer

/-- Schemes that are alike have the same instances by new variables: those that stand for
    corresponding quantified variables are shared from there on. -/
theorem Pairing.Alike.instances {P : Pairing} {σ τ : Scheme} {s r : Subst} (alike : P.Alike σ τ)
    (renews : Infer.Renews σ.vars P.left s) (renews' : Infer.Renews τ.vars P.right r) :
    ∃ Q : Pairing, P.Grows Q ∧ Q.left = P.left + σ.vars.length ∧ Q.right = P.right + τ.vars.length ∧
      Q.Same (s.apply σ.ty) (r.apply τ.ty) := by
  obtain ⟨π, injective, bound, equal⟩ := alike
  obtain ⟨keys, place, values, one⟩ := renews
  obtain ⟨keys', place', values', one'⟩ := renews'
  have used {v : TyVar} (member : v ∈ σ.ty.freeVars.toList.filter (· ∈ σ.vars)) :
      v ∈ σ.ty.freeVars ∧ v ∈ σ.vars ∧ π v ∈ τ.vars := by
    obtain ⟨found, quantified⟩ : v ∈ σ.ty.freeVars ∧ v ∈ σ.vars := by simpa using member
    exact ⟨found, quantified, (bound v found).1.mp quantified⟩
  obtain ⟨Q, grows, left, right, _, names⟩ := P.exists_grows (l := P.left + σ.vars.length)
    (r := P.right + τ.vars.length) (Nat.le_add_right _ _) (Nat.le_add_right _ _)
    (σ.ty.freeVars.toList.filter (· ∈ σ.vars)) place (fun v => place' (π v))
    (fun v member => (values v (used member).2.1).2) (fun v member => (values' _ (used member).2.2).2)
    (fun v member w member' => one v (used member).2.1 w (used member').2.1)
    fun v member w member' same => injective v (used member).1 w (used member').1
      (one' _ (used member).2.2 _ (used member').2.2 same)
  refine ⟨Q, grows, left, right, ?_⟩
  rw [Subst.apply_eq_bind, Subst.apply_eq_bind, ← equal, Ty.bind_rename]
  refine same_bind fun v member => ?_
  by_cases quantified : v ∈ σ.vars
  · obtain ⟨shared, name⟩ := names v (by simpa using ⟨member, quantified⟩)
    rw [(values v quantified).1, (values' _ ((bound v member).1.mp quantified)).1, ← name]
    exact same_var shared
  · obtain ⟨shared, name⟩ := (bound v member).2 quantified
    rw [Subst.value_of_notMem (mt (keys v).mp quantified),
      Subst.value_of_notMem (mt (keys' _).mp (mt (bound v member).1.mpr quantified)), name]
    exact (same_var shared).extend grows

/-! ### Environments that are alike -/

theorem Scheme.Closed.subst_eq_self {σ : Scheme} (closed : σ.Closed) (s : Subst) : σ.subst s = σ :=
  (Scheme.subst_congr fun v free => absurd free (closed v)).trans (Scheme.subst_empty σ)

namespace Env
variable {P : Pairing} {Γ Δ : Env}

theorem Related.shared (alike : Related P.Alike Γ Δ) {v : TyVar} (free : v ∈ Γ.freeVars) : P.shared v := by
  obtain ⟨name, σ, look, free⟩ := mem_freeVars.mp free
  obtain ⟨τ, _, here⟩ := alike.left look
  exact here.shared free

theorem Related.mem_freeVars (alike : Related P.Alike Γ Δ) {w : TyVar} :
    w ∈ Δ.freeVars ↔ ∃ v ∈ Γ.freeVars, P.name v = w := by
  simp only [Env.mem_freeVars]
  constructor
  · rintro ⟨name, τ, look, free⟩
    obtain ⟨σ, look', here⟩ := alike.right look
    obtain ⟨v, free', rfl⟩ := here.mem_freeVars.mp free
    exact ⟨v, ⟨name, σ, look', free'⟩, rfl⟩
  · rintro ⟨v, ⟨name, σ, look, free⟩, rfl⟩
    obtain ⟨τ, look', here⟩ := alike.left look
    exact ⟨name, τ, look', here.mem_freeVars.mpr ⟨v, free, rfl⟩⟩

/-- What is quantified in environments that are alike is made of the same variables. -/
theorem Related.made_generalize (alike : Related P.Alike Γ Δ) {t u : Ty} (same : P.Same t u) :
    P.Made (Γ.generalize t) (Δ.generalize u) where
  type := same
  bound v shared := by
    rw [mem_vars_generalize, mem_vars_generalize, same.2, Ty.mem_freeVars_rename_injective P.injective,
      alike.mem_freeVars]
    simp only [P.injective.eq_iff, exists_eq_right]
  left v member := P.left_below v (same.1 v (mem_vars_generalize.mp member).1)
  right w member := by
    obtain ⟨v, found, rfl⟩ := Ty.mem_freeVars_rename.mp (same.2 ▸ (mem_vars_generalize.mp member).1)
    exact P.right_below v (same.1 v found)

end Env

namespace Comparison
open Infer

/-- Compares runs in two environments that have the free variables `F` and mention variables below `n`
    and below `m`: their own schemes differ in the names of quantified variables and do not capture
    what is shared, those that are made in the runs do not differ. -/
def upToNames (F : TyVar → Prop) (n m : Nat) : Comparison where
  keeps P := n ≤ P.left ∧ m ≤ P.right ∧ ∀ v, P.shared v → F v ∧ P.name v = v ∨ n ≤ v ∧ m ≤ P.name v
  scheme P σ τ := P.Made σ τ ∨
    P.Alike σ τ ∧ ∀ u ∈ σ.freeVars, (∀ v ∈ σ.vars, v < n ∧ ¬ F v) ∧ ∀ v ∈ τ.vars, v < m ∧ ¬ F v
  mayStop := True

section
variable {F : TyVar → Prop} {n m : Nat} {P Q : Pairing} {σ τ : Scheme} {s r : Subst} {Γ Δ : Env}

theorem upToNames_grows (keeps : (upToNames F n m).keeps P) (grows : P.Grows Q) : (upToNames F n m).keeps Q := by
  obtain ⟨left, right, origin⟩ := keeps
  refine ⟨Nat.le_trans left grows.left, Nat.le_trans right grows.right, fun v shared => ?_⟩
  rcases grows.new v shared with shared | ⟨above, above'⟩
  · rw [(grows.keep v shared).2]
    exact origin v shared
  · exact .inr ⟨Nat.le_trans left above, Nat.le_trans right above'⟩

theorem alike_of_upToNames (same : (upToNames F n m).scheme P σ τ) : P.Alike σ τ :=
  same.elim Pairing.Made.alike And.left

/-- A scheme without free variables is not changed, and one with free variables captures nothing. -/
theorem upToNames_subst (keeps : (upToNames F n m).keeps P) (same : (upToNames F n m).scheme P σ τ)
    (solved : P.SameSubst s r) : (upToNames F n m).scheme P (σ.subst s) (τ.subst r) := by
  rcases same with made | ⟨alike, apart⟩
  · exact .inl (made.subst solved)
  refine .inr ⟨?_, fun w free => ?_⟩
  · by_cases closed : σ.Closed
    · have closed' : τ.Closed := by
        intro w free
        obtain ⟨v, free', _⟩ := alike.mem_freeVars.mp free
        exact closed v free'
      rw [closed.subst_eq_self, closed'.subst_eq_self]
      exact alike
    · simp only [Scheme.Closed, not_forall, not_not] at closed
      obtain ⟨u, free⟩ := closed
      obtain ⟨left, right⟩ := apart u free
      refine alike.subst solved (fun v shared member => ?_) fun v shared member => ?_
      · rcases keeps.2.2 v shared with ⟨free, _⟩ | ⟨above, _⟩
        · exact (left v member).2 free
        · exact Nat.not_lt_of_le above (left v member).1
      · rcases keeps.2.2 v shared with ⟨free, same⟩ | ⟨_, above⟩
        · exact (right _ member).2 (same.symm ▸ free)
        · exact Nat.not_lt_of_le above (right _ member).1
  · obtain ⟨v, free, _⟩ := Scheme.mem_freeVars_subst free
    exact apart v free

/-- The next variables of both runs are shared from here on. -/
theorem upToNames_freshVar (P : Pairing) :
    (upToNames F n m).Parallel P (fun Q v w => Q.shared v ∧ w = Q.name v) freshVar freshVar := by
  intro keeps st st' same
  rw [freshVar_run, freshVar_run]
  by_cases enough : st.next + 1 < varLimit
  · rw [if_pos enough]
    by_cases enough' : st'.next + 1 < varLimit
    · rw [if_pos enough']
      have left := same.left
      have right := same.right
      obtain ⟨Q, grows, left', right', _, names⟩ := P.exists_grows (l := P.left + 1) (r := P.right + 1) (Nat.le_succ _)
        (Nat.le_succ _) [()] (fun _ => st.next) (fun _ => st'.next) (by simp [left]) (by simp [right]) (by simp) (by simp)
      obtain ⟨shared, name⟩ := names () (List.mem_singleton_self ())
      refine .ok grows (upToNames_grows keeps grows) (same.extend grows ?_ ?_) ⟨shared, name.symm⟩
      · rw [left', left]
      · rw [right', right]
    · rw [if_neg enough']
      exact .outRight
  · rw [if_neg enough]
    exact .outLeft trivial

theorem upToNames_instantiate (alike : P.Alike σ τ) :
    (upToNames F n m).Parallel P Pairing.Same (instantiate σ) (instantiate τ) := by
  intro keeps st st' same
  show Agree _ P _ (EStateM.bind (renewal σ.vars) _ st) (EStateM.bind (renewal τ.vars) _ st')
  unfold EStateM.bind
  cases run : renewal σ.vars st with
  | error e st₁ =>
    cases renewal_error run
    exact .outLeft trivial
  | ok s st₁ =>
    cases run' : renewal τ.vars st' with
    | error e st₂ =>
      cases renewal_error run'
      exact .outRight
    | ok r st₂ =>
      obtain ⟨rfl, renews⟩ := renewal_ok run
      obtain ⟨rfl, renews'⟩ := renewal_ok run'
      obtain ⟨Q, grows, left, right, instances⟩ := alike.instances (same.left ▸ renews) (same.right ▸ renews')
      refine .ok grows (upToNames_grows keeps grows) (same.extend grows ?_ ?_) instances
      · rw [left, same.left]
      · rw [right, same.right]

theorem lawful_upToNames (F : TyVar → Prop) (n m : Nat) : (upToNames F n m).Lawful where
  extend grows same := same.imp (·.extend grows) fun ⟨alike, apart⟩ => ⟨alike.extend grows, apart⟩
  mono same := .inl ⟨same, by simp [Scheme.mono], by simp [Scheme.mono], by simp [Scheme.mono]⟩
  subst := upToNames_subst
  generalize _ same types :=
    .inl (Env.Related.made_generalize (same.imp fun _ _ _ _ _ => alike_of_upToNames) types)
  freshVar := upToNames_freshVar
  instantiate same := upToNames_instantiate (alike_of_upToNames same)

end

end Comparison

end LetPoly
