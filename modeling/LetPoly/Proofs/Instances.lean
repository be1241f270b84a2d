import LetPoly.Proofs.Unification
import LetPoly.Scheme.Instance
import LetPoly.Typing.Expr

/-!
Instances of schemes and environments under a replacement `θ` of their free variables. The instances
of `σ` under `θ` are those of `σ` with `θ v` for each free `v`, where the names of quantified
variables do not matter. The substitution of schemes has these instances too, as long as no type that
comes in mentions a quantified variable (`Scheme.instanceUnder_subst`). Main statements: what is
quantified over the variables that are not free outside has at least the instances that it had before
a replacement (`Env.Admits.bodyEnv`), and at least those that any choice of its type has
(`Env.Covers.bodyEnv`).
-/
namespace LetPoly

/-! ### Free and quantified variables -/

namespace Scheme

theorem mem_freeVars {σ : Scheme} {v : TyVar} : v ∈ σ.freeVars ↔ v ∈ σ.ty.freeVars ∧ v ∉ σ.vars := by
  simp [freeVars, bound, Std.ExtTreeSet.mem_diff_iff]

theorem mem_bound {σ : Scheme} {v : TyVar} : v ∈ σ.bound ↔ v ∈ σ.vars := by
  simp [bound]

@[simp] theorem mem_freeVars_mono {t : Ty} {v : TyVar} : v ∈ (mono t).freeVars ↔ v ∈ t.freeVars := by
  simp [mem_freeVars, mono]

/-- A free variable of `σ.subst s` comes from the type that stands for some free variable. -/
theorem mem_freeVars_subst {s : Subst} {σ : Scheme} {w : TyVar} (found : w ∈ (σ.subst s).freeVars) :
    ∃ v ∈ σ.freeVars, w ∈ (s.value v).freeVars := by
  obtain ⟨inside, free⟩ := mem_freeVars.mp found
  obtain ⟨v, member, stands⟩ := Ty.mem_freeVars_bind.mp inside
  simp only [mem_bound] at stands
  by_cases quantified : v ∈ σ.vars
  · rw [if_pos quantified, Ty.mem_freeVars_var] at stands
    exact absurd (stands ▸ quantified) free
  · rw [if_neg quantified] at stands
    exact ⟨v, mem_freeVars.mpr ⟨member, quantified⟩, stands⟩

/-- No type that `s` puts for a free variable mentions a quantified one. -/
def Safe (s : Subst) (σ : Scheme) : Prop :=
  ∀ v ∈ σ.freeVars, ∀ w ∈ (s.value v).freeVars, w ∉ σ.vars

theorem subst_after {s r : Subst} {σ : Scheme} (safe : σ.Safe s) : σ.subst (r.after s) = (σ.subst s).subst r := by
  simp only [subst, Scheme.mk.injEq, true_and, Ty.bind_bind]
  apply Ty.bind_congr
  intro v member
  simp only [mem_bound]
  by_cases quantified : v ∈ σ.vars
  · simp [quantified, Ty.bind]
  · rw [if_neg quantified, if_neg quantified, Subst.value_after]
    apply Ty.bind_congr
    intro w stands
    rw [if_neg (safe v (mem_freeVars.mpr ⟨member, quantified⟩) w stands)]

/-- A free variable of the scheme is replaced by a type whose variables are free again. -/
theorem mem_freeVars_of_safe {s : Subst} {σ : Scheme} (safe : σ.Safe s) {v w : TyVar} (free : v ∈ σ.freeVars)
    (stands : w ∈ (s.value v).freeVars) : w ∈ (σ.subst s).freeVars := by
  obtain ⟨member, unquantified⟩ := mem_freeVars.mp free
  refine mem_freeVars.mpr ⟨Ty.mem_freeVars_bind.mpr ⟨v, member, ?_⟩, safe v free w stands⟩
  simpa [mem_bound, unquantified] using stands

theorem Safe.after {s r : Subst} {σ : Scheme} (inner : σ.Safe s) (outer : (σ.subst s).Safe r) : σ.Safe (r.after s) := by
  intro v free w stands
  rw [Subst.value_after] at stands
  obtain ⟨x, inside, stands⟩ := Ty.mem_freeVars_bind.mp stands
  exact outer x (mem_freeVars_of_safe inner free inside) w stands

/-- The second of two substitutions is safe if both together are. -/
theorem Safe.of_after {s r : Subst} {σ : Scheme} (both : σ.Safe (r.after s)) : (σ.subst s).Safe r := by
  intro w free x stands
  obtain ⟨v, member, inside⟩ := mem_freeVars_subst free
  refine both v member x ?_
  rw [Subst.value_after]
  exact Ty.mem_freeVars_bind.mpr ⟨w, inside, stands⟩

theorem subst_congr {s r : Subst} {σ : Scheme} (same : ∀ v ∈ σ.freeVars, s.value v = r.value v) :
    σ.subst s = σ.subst r := by
  simp only [subst, Scheme.mk.injEq, true_and]
  apply Ty.bind_congr
  intro v member
  simp only [mem_bound]
  split
  · rfl
  · rename_i free
    exact same v (mem_freeVars.mpr ⟨member, free⟩)

theorem subst_empty (σ : Scheme) : σ.subst ∅ = σ := by
  have same : (fun v => if v ∈ σ.bound then Ty.var v else (∅ : Subst).value v) = Ty.var := by
    funext v
    rw [Subst.value_empty, ite_self]
  simp [subst, same, Ty.bind_var]

theorem subst_mono (s : Subst) (t : Ty) : (mono t).subst s = mono (s.apply t) := by
  have none (v : TyVar) : v ∉ (mono t).bound := by simp [mem_bound, mono]
  simp only [subst, none, if_false, Subst.apply_eq_bind]
  rfl

end Scheme

namespace Env

theorem mem_freeVars {Γ : Env} {v : TyVar} :
    v ∈ Γ.freeVars ↔ ∃ (name : String) (σ : Scheme), Γ[name]? = some σ ∧ v ∈ σ.freeVars := by
  have fold (entries : List (String × Scheme)) (vars : VarSet) :
      v ∈ entries.foldl (fun vars entry => vars ∪ entry.2.freeVars) vars ↔
        v ∈ vars ∨ ∃ entry ∈ entries, v ∈ entry.2.freeVars := by
    induction entries generalizing vars with
    | nil => simp
    | cons entry entries ih => simp [ih, Std.ExtTreeSet.mem_union_iff, or_assoc]
  rw [freeVars, Std.ExtTreeMap.foldl_eq_foldl_toList, fold]
  simp [Std.ExtTreeMap.mem_toList_iff_getElem?_eq_some]

/-- Some scheme quantifies over the variable. -/
def Binds (Γ : Env) (v : TyVar) : Prop :=
  ∃ (name : String) (σ : Scheme), Γ[name]? = some σ ∧ v ∈ σ.vars

theorem getElem?_subst (s : Subst) (Γ : Env) (name : String) : (Γ.subst s)[name]? = Γ[name]?.map (Scheme.subst s) := by
  unfold subst
  split
  · rename_i none
    simp [Std.ExtTreeMap.isEmpty_iff.mp none, funext Scheme.subst_empty]
  · simp

theorem mem_freeVars_subst {s : Subst} {Γ : Env} {w : TyVar} (found : w ∈ (Γ.subst s).freeVars) :
    ∃ v ∈ Γ.freeVars, w ∈ (s.value v).freeVars := by
  obtain ⟨name, τ, look, free⟩ := mem_freeVars.mp found
  rw [getElem?_subst, Option.map_eq_some_iff] at look
  obtain ⟨σ, look, rfl⟩ := look
  obtain ⟨v, inside, stands⟩ := Scheme.mem_freeVars_subst free
  exact ⟨v, mem_freeVars.mpr ⟨name, σ, look, inside⟩, stands⟩

theorem binds_subst {s : Subst} {Γ : Env} {v : TyVar} : (Γ.subst s).Binds v ↔ Γ.Binds v := by
  simp only [Binds, getElem?_subst, Option.map_eq_some_iff]
  constructor
  · rintro ⟨name, _, ⟨σ, look, rfl⟩, member⟩
    exact ⟨name, σ, look, member⟩
  · rintro ⟨name, σ, look, member⟩
    exact ⟨name, σ.subst s, ⟨σ, look, rfl⟩, member⟩

/-- No type that `s` puts for a free variable of a scheme mentions a variable that the scheme
    quantifies. -/
def Safe (s : Subst) (Γ : Env) : Prop :=
  ∀ (name : String) (σ : Scheme), Γ[name]? = some σ → σ.Safe s

theorem subst_after {s r : Subst} {Γ : Env} (safe : Γ.Safe s) : Γ.subst (r.after s) = (Γ.subst s).subst r := by
  apply Std.ExtTreeMap.ext_getElem?
  intro name
  simp only [getElem?_subst]
  cases look : Γ[name]? with
  | none => rfl
  | some σ => simp [Scheme.subst_after (safe name σ look)]

theorem Safe.after {s r : Subst} {Γ : Env} (inner : Γ.Safe s) (outer : (Γ.subst s).Safe r) : Γ.Safe (r.after s) :=
  fun name σ look => (inner name σ look).after (outer name (σ.subst s) (by rw [getElem?_subst, look, Option.map_some]))

theorem safe_empty (Γ : Env) : Γ.Safe ∅ := by
  intro name σ _ v free w stands
  rw [Subst.value_empty, Ty.mem_freeVars_var] at stands
  exact stands ▸ (Scheme.mem_freeVars.mp free).2

theorem subst_empty (Γ : Env) : Γ.subst ∅ = Γ := by
  rw [subst, if_pos Std.ExtTreeMap.isEmpty_empty]

theorem subst_congr {s r : Subst} {Γ : Env} (same : ∀ v ∈ Γ.freeVars, s.value v = r.value v) :
    Γ.subst s = Γ.subst r := by
  apply Std.ExtTreeMap.ext_getElem?
  intro name
  rw [getElem?_subst, getElem?_subst]
  cases look : Γ[name]? with
  | none => rfl
  | some σ =>
    rw [Option.map_some, Option.map_some, Scheme.subst_congr]
    exact fun v free => same v (mem_freeVars.mpr ⟨name, σ, look, free⟩)

theorem subst_eq_self {s : Subst} {Γ : Env} (missing : ∀ v ∈ Γ.freeVars, v ∉ s) : Γ.subst s = Γ := by
  rw [subst_congr fun v free => (Subst.value_of_notMem (missing v free)).trans (Subst.value_empty v).symm, subst_empty]

/-- A substitution whose types mention nothing that is quantified captures nothing. -/
theorem safe_of_values {s : Subst} {Γ : Env}
    (clear : ∀ (k : TyVar) (t : Ty), s[k]? = some t → ∀ w ∈ t.freeVars, ¬ Γ.Binds w) : Γ.Safe s := by
  intro name σ look v free w stands bound
  cases found : s[v]? with
  | none =>
    rw [Subst.value, found, Option.getD_none, Ty.mem_freeVars_var] at stands
    exact (Scheme.mem_freeVars.mp free).2 (stands ▸ bound)
  | some t =>
    rw [Subst.value, found, Option.getD_some] at stands
    exact clear v t found w stands ⟨name, σ, look, bound⟩

/-! ### Names that are added -/

theorem extend_cons (Γ : Env) (name : String) (σ : Scheme) (entries : List (String × Scheme)) :
    Γ.extend ((name, σ) :: entries) = extend (Γ.insert name σ) entries :=
  rfl

theorem extendMono_cons (Γ : Env) (name : String) (t : Ty) (named : List (String × Ty)) :
    Γ.extendMono ((name, t) :: named) = extendMono (Γ.insert name (.mono t)) named :=
  rfl

theorem getElem?_insert_eq (Γ : Env) (name other : String) (σ : Scheme) :
    (Γ.insert name σ)[other]? = if name = other then some σ else Γ[other]? := by
  rw [Std.ExtTreeMap.getElem?_insert]
  simp [Std.LawfulEqCmp.compare_eq_iff_eq]

/-- A scheme of an extended environment is an added one or was there before. -/
theorem getElem?_extend {Γ : Env} {entries : List (String × Scheme)} {name : String} {σ : Scheme}
    (look : (Γ.extend entries)[name]? = some σ) : Γ[name]? = some σ ∨ (name, σ) ∈ entries := by
  induction entries generalizing Γ with
  | nil => exact .inl look
  | cons entry entries ih =>
    obtain ⟨first, τ⟩ := entry
    rw [extend_cons] at look
    rcases ih look with found | found
    · rw [getElem?_insert_eq] at found
      split at found
      · rename_i same
        cases found
        subst same
        exact .inr List.mem_cons_self
      · exact .inl found
    · exact .inr (List.mem_cons_of_mem _ found)

theorem mem_freeVars_extend {Γ : Env} {entries : List (String × Scheme)} {v : TyVar}
    (free : v ∈ (Γ.extend entries).freeVars) : v ∈ Γ.freeVars ∨ ∃ entry ∈ entries, v ∈ entry.2.freeVars := by
  obtain ⟨name, σ, look, free⟩ := mem_freeVars.mp free
  rcases getElem?_extend look with look | added
  · exact .inl (mem_freeVars.mpr ⟨name, σ, look, free⟩)
  · exact .inr ⟨_, added, free⟩

theorem mem_freeVars_extendMono {Γ : Env} {named : List (String × Ty)} {v : TyVar}
    (free : v ∈ (Γ.extendMono named).freeVars) : v ∈ Γ.freeVars ∨ ∃ entry ∈ named, v ∈ entry.2.freeVars := by
  rcases mem_freeVars_extend free with free | ⟨_, added, free⟩
  · exact .inl free
  · obtain ⟨entry, member, rfl⟩ := List.mem_map.mp added
    exact .inr ⟨entry, member, by simpa using free⟩

theorem binds_extend {Γ : Env} {entries : List (String × Scheme)} {v : TyVar}
    (bound : (Γ.extend entries).Binds v) : Γ.Binds v ∨ ∃ entry ∈ entries, v ∈ entry.2.vars := by
  obtain ⟨name, σ, look, member⟩ := bound
  rcases getElem?_extend look with look | added
  · exact .inl ⟨name, σ, look, member⟩
  · exact .inr ⟨_, added, member⟩

theorem binds_extendMono {Γ : Env} {named : List (String × Ty)} {v : TyVar} (bound : (Γ.extendMono named).Binds v) :
    Γ.Binds v := by
  rcases binds_extend bound with bound | ⟨_, added, member⟩
  · exact bound
  · obtain ⟨entry, _, rfl⟩ := List.mem_map.mp added
    cases member

theorem subst_insert (s : Subst) (Γ : Env) (name : String) (σ : Scheme) :
    subst s (Γ.insert name σ) = (Γ.subst s).insert name (σ.subst s) := by
  apply Std.ExtTreeMap.ext_getElem?
  intro other
  rw [getElem?_subst, getElem?_insert_eq, getElem?_insert_eq, getElem?_subst]
  split <;> rfl

theorem subst_extendMono (s : Subst) (Γ : Env) (named : List (String × Ty)) :
    (Γ.extendMono named).subst s = (Γ.subst s).extendMono (s.applyNamed named) := by
  induction named generalizing Γ with
  | nil => rfl
  | cons entry named ih =>
    rw [extendMono_cons, ih, subst_insert, Scheme.subst_mono]
    rfl

theorem Safe.extendMono {s : Subst} {Γ : Env} (safe : Γ.Safe s) (named : List (String × Ty)) :
    (Γ.extendMono named).Safe s := by
  intro name σ look
  rcases getElem?_extend look with look | added
  · exact safe name σ look
  · obtain ⟨entry, _, same⟩ := List.mem_map.mp added
    cases same
    intro v _ w _ bound
    cases bound

end Env

/-! ### Instances under a replacement -/

/-- The types of names, with variables replaced. -/
def bindNamed (θ : TyVar → Ty) (named : List (String × Ty)) : List (String × Ty) :=
  named.map fun entry => (entry.1, entry.2.bind θ)

theorem bindNamed_append (θ : TyVar → Ty) (named others : List (String × Ty)) :
    bindNamed θ (named ++ others) = bindNamed θ named ++ bindNamed θ others :=
  List.map_append

theorem applyNamed_eq_bindNamed (s : Subst) (named : List (String × Ty)) :
    s.applyNamed named = bindNamed s.value named := by
  simp [Subst.applyNamed, bindNamed, Subst.apply_eq_bind]

namespace Scheme

/-- A type that comes from the scheme by replacing free variables by `θ`, and quantified ones in any
    way. -/
def InstanceUnder (θ : TyVar → Ty) (σ : Scheme) (u : Ty) : Prop :=
  ∃ f : TyVar → Ty, (∀ v ∈ σ.freeVars, f v = θ v) ∧ σ.ty.bind f = u

theorem instance_iff {σ : Scheme} {u : Ty} : σ.Instance u ↔ σ.InstanceUnder .var u := by
  constructor
  · rintro ⟨f, fixed, rfl⟩
    exact ⟨f, fun v free => fixed v (mem_freeVars.mp free).2, rfl⟩
  · rintro ⟨f, fixed, rfl⟩
    refine ⟨fun v => if v ∈ σ.vars then f v else .var v, fun v free => if_neg free, ?_⟩
    apply Ty.bind_congr
    intro v member
    split
    · rfl
    · rename_i free
      exact (fixed v (mem_freeVars.mpr ⟨member, free⟩)).symm

theorem instanceUnder_congr {θ θ' : TyVar → Ty} {σ : Scheme} (same : ∀ v ∈ σ.freeVars, θ v = θ' v) {u : Ty} :
    σ.InstanceUnder θ u ↔ σ.InstanceUnder θ' u := by
  constructor
  · rintro ⟨f, fixed, rfl⟩
    exact ⟨f, fun v free => (fixed v free).trans (same v free), rfl⟩
  · rintro ⟨f, fixed, rfl⟩
    exact ⟨f, fun v free => (fixed v free).trans (same v free).symm, rfl⟩

@[simp] theorem instanceUnder_mono {θ : TyVar → Ty} {t u : Ty} : (mono t).InstanceUnder θ u ↔ t.bind θ = u := by
  constructor
  · rintro ⟨f, fixed, rfl⟩
    exact Ty.bind_congr fun v member => (fixed v (mem_freeVars_mono.mpr member)).symm
  · rintro rfl
    exact ⟨θ, fun _ _ => rfl, rfl⟩

/-- Without capture, substitution and replacement give the same instances. -/
theorem instanceUnder_subst {s : Subst} {θ : TyVar → Ty} {σ : Scheme} (safe : σ.Safe s) {u : Ty} :
    (σ.subst s).InstanceUnder θ u ↔ σ.InstanceUnder (fun v => (s.value v).bind θ) u := by
  constructor
  · rintro ⟨f, fixed, rfl⟩
    refine ⟨fun v => (if v ∈ σ.bound then Ty.var v else s.value v).bind f, ?_, (Ty.bind_bind _ _ _).symm⟩
    intro v free
    obtain ⟨member, unquantified⟩ := mem_freeVars.mp free
    simp only [mem_bound, if_neg unquantified]
    apply Ty.bind_congr
    intro w stands
    apply fixed w
    refine mem_freeVars.mpr ⟨Ty.mem_freeVars_bind.mpr ⟨v, member, ?_⟩, safe v free w stands⟩
    simpa [mem_bound, unquantified] using stands
  · rintro ⟨f, fixed, rfl⟩
    refine ⟨fun w => if w ∈ σ.vars then f w else θ w, ?_, ?_⟩
    · intro w free
      exact if_neg (mem_freeVars.mp free).2
    · simp only [subst, Ty.bind_bind, mem_bound]
      apply Ty.bind_congr
      intro v member
      by_cases quantified : v ∈ σ.vars
      · simp [quantified, Ty.bind]
      · have free : v ∈ σ.freeVars := mem_freeVars.mpr ⟨member, quantified⟩
        rw [if_neg quantified, fixed v free]
        apply Ty.bind_congr
        intro w stands
        rw [if_neg (safe v free w stands)]

/-- What stands for a free variable shows in every instance. -/
theorem InstanceUnder.mem_freeVars {θ : TyVar → Ty} {σ : Scheme} {u : Ty} (inst : σ.InstanceUnder θ u)
    {v w : TyVar} (free : v ∈ σ.freeVars) (stands : w ∈ (θ v).freeVars) : w ∈ u.freeVars := by
  obtain ⟨f, fixed, rfl⟩ := inst
  exact Ty.mem_freeVars_bind.mpr ⟨v, (Scheme.mem_freeVars.mp free).1, by rwa [fixed v free]⟩

/-- Some instance of a scheme has no variables but the free ones. -/
theorem exists_instance (σ : Scheme) : ∃ u, σ.Instance u ∧ ∀ v ∈ u.freeVars, v ∈ σ.freeVars := by
  refine ⟨σ.ty.bind fun v => if v ∈ σ.vars then .unit else .var v, ⟨_, fun v free => if_neg free, rfl⟩, ?_⟩
  intro w found
  obtain ⟨v, member, stands⟩ := Ty.mem_freeVars_bind.mp found
  split at stands
  · simp [Ty.freeVars] at stands
  · rename_i free
    rw [Ty.mem_freeVars_var] at stands
    exact stands ▸ Scheme.mem_freeVars.mpr ⟨member, free⟩

end Scheme

namespace Env

section Related
variable {R S : Scheme → Scheme → Prop} {Γ Δ : Env}

theorem Related.left {name : String} {σ : Scheme} (related : Related R Γ Δ) (look : Γ[name]? = some σ) :
    ∃ τ, Δ[name]? = some τ ∧ R σ τ := by
  have here := related name
  rw [look] at here
  cases found : Δ[name]? with
  | none => rw [found] at here; exact here.elim
  | some τ => rw [found] at here; exact ⟨τ, rfl, here⟩

theorem Related.right {name : String} {τ : Scheme} (related : Related R Γ Δ) (look : Δ[name]? = some τ) :
    ∃ σ, Γ[name]? = some σ ∧ R σ τ := by
  have here := related name
  rw [look] at here
  cases found : Γ[name]? with
  | none => rw [found] at here; exact here.elim
  | some σ => rw [found] at here; exact ⟨σ, rfl, here⟩

theorem Related.imp (related : Related R Γ Δ)
    (stronger : ∀ (name : String) (σ τ : Scheme), Γ[name]? = some σ → Δ[name]? = some τ → R σ τ → S σ τ) :
    Related S Γ Δ := by
  intro name
  have here := related name
  cases left : Γ[name]? <;> cases right : Δ[name]? <;> rw [left, right] at here <;> simp only at here ⊢
  exact stronger name _ _ left right here

theorem related_refl (refl : ∀ (name : String) (σ : Scheme), Γ[name]? = some σ → R σ σ) : Related R Γ Γ := by
  intro name
  cases look : Γ[name]? with
  | none => trivial
  | some σ => exact refl name σ look

theorem Related.subst_left {s : Subst} (related : Related R Γ Δ)
    (stronger : ∀ (name : String) (σ τ : Scheme), Γ[name]? = some σ → R σ τ → S (σ.subst s) τ) :
    Related S (Γ.subst s) Δ := by
  intro name
  have here := related name
  rw [getElem?_subst]
  cases left : Γ[name]? <;> cases right : Δ[name]? <;> rw [left, right] at here <;>
    simp only [Option.map_some, Option.map_none] at here ⊢
  exact stronger name _ _ left here

theorem Related.insert {σ τ : Scheme} (related : Related R Γ Δ) (name : String) (here : R σ τ) :
    Related R (Γ.insert name σ) (Δ.insert name τ) := by
  intro other
  rw [getElem?_insert_eq, getElem?_insert_eq]
  by_cases same : name = other
  · simpa [same] using here
  · simpa [same] using related other

/-- Adding the same names with related schemes keeps environments related. -/
theorem Related.extend_map {ι : Type} {named : List (String × ι)} {f g : String × ι → Scheme}
    (related : Related R Γ Δ) (here : ∀ entry ∈ named, R (f entry) (g entry)) :
    Related R (Γ.extend (named.map fun entry => (entry.1, f entry)))
      (Δ.extend (named.map fun entry => (entry.1, g entry))) := by
  induction named generalizing Γ Δ with
  | nil => exact related
  | cons entry named ih =>
    exact ih (related.insert entry.1 (here entry List.mem_cons_self))
      fun other member => here other (List.mem_cons_of_mem _ member)

end Related

theorem mem_vars_generalize {Γ : Env} {t : Ty} {v : TyVar} :
    v ∈ (Γ.generalize t).vars ↔ v ∈ t.freeVars ∧ v ∉ Γ.freeVars := by
  simp [generalize, Std.ExtTreeSet.mem_diff_iff]

/-- Variables are quantified in ascending order. -/
theorem ascending_generalize (Γ : Env) (t : Ty) : (Γ.generalize t).vars.Pairwise (· < ·) :=
  (Std.ExtTreeSet.ordered_toList (t := t.freeVars \ Γ.freeVars)).imp fun before => Nat.compare_eq_lt.mp before

theorem mem_freeVars_generalize {Γ : Env} {t : Ty} {v : TyVar} :
    v ∈ (Γ.generalize t).freeVars ↔ v ∈ t.freeVars ∧ v ∈ Γ.freeVars := by
  rw [Scheme.mem_freeVars, mem_vars_generalize]
  constructor
  · rintro ⟨member, free⟩
    exact ⟨member, Classical.byContradiction fun other => free ⟨member, other⟩⟩
  · rintro ⟨member, free⟩
    exact ⟨member, fun other => other.2 free⟩

theorem extendMono_bindNamed (Δ : Env) (θ : TyVar → Ty) (named : List (String × Ty)) :
    Δ.extendMono (bindNamed θ named) =
      Δ.extend (named.map fun entry => (entry.1, .mono (entry.2.bind θ))) := by
  rw [extendMono, bindNamed, List.map_map]
  rfl

theorem bodyEnv_bindNamed (Δ : Env) (θ : TyVar → Ty) (named : List (String × Ty)) :
    Typing.bodyEnv Δ (bindNamed θ named) =
      Δ.extend (named.map fun entry => (entry.1, Δ.generalize (entry.2.bind θ))) := by
  rw [Typing.bodyEnv, bindNamed, List.map_map]
  rfl

/-- Every instance of a scheme of `Γ` under `θ` is one of the scheme that `Δ` has for the name. -/
def Admits (θ : TyVar → Ty) (Γ Δ : Env) : Prop :=
  Related (fun σ τ => ∀ u, σ.InstanceUnder θ u → τ.Instance u) Γ Δ

/-- Every instance of a scheme of `Δ` is one under `θ` of the scheme that `Γ` has for the name. -/
def Covers (θ : TyVar → Ty) (Γ Δ : Env) : Prop :=
  Related (fun σ τ => ∀ u, τ.Instance u → σ.InstanceUnder θ u) Γ Δ

section
variable {θ θ' : TyVar → Ty} {Γ Δ : Env}

theorem Admits.congr (admits : Γ.Admits θ Δ) (same : ∀ v ∈ Γ.freeVars, θ' v = θ v) : Γ.Admits θ' Δ :=
  Related.imp admits fun name σ _ look _ here u inst =>
    here u ((Scheme.instanceUnder_congr fun v free => same v (mem_freeVars.mpr ⟨name, σ, look, free⟩)).mp inst)

theorem Covers.congr (covers : Γ.Covers θ Δ) (same : ∀ v ∈ Γ.freeVars, θ' v = θ v) : Γ.Covers θ' Δ :=
  Related.imp covers fun name σ _ look _ here u inst =>
    (Scheme.instanceUnder_congr fun v free => same v (mem_freeVars.mpr ⟨name, σ, look, free⟩)).mpr (here u inst)

theorem Admits.extendMono (admits : Γ.Admits θ Δ) (named : List (String × Ty)) :
    (Γ.extendMono named).Admits θ (Δ.extendMono (bindNamed θ named)) := by
  rw [extendMono_bindNamed]
  refine Related.extend_map (f := fun entry => .mono entry.2) admits fun entry _ u inst => ?_
  rw [Scheme.instance_iff, Scheme.instanceUnder_mono, Ty.bind_var]
  exact Scheme.instanceUnder_mono.mp inst

theorem Covers.extendMono (covers : Γ.Covers θ Δ) (named : List (String × Ty)) :
    (Γ.extendMono named).Covers θ (Δ.extendMono (bindNamed θ named)) := by
  rw [extendMono_bindNamed]
  refine Related.extend_map (f := fun entry => .mono entry.2) covers fun entry _ u inst => ?_
  rw [Scheme.instance_iff, Scheme.instanceUnder_mono, Ty.bind_var] at inst
  exact Scheme.instanceUnder_mono.mpr inst

theorem Admits.valueEnv (admits : Γ.Admits θ Δ) (recursive : Bool) (named : List (String × Ty)) :
    (Typing.valueEnv Γ recursive named).Admits θ (Typing.valueEnv Δ recursive (bindNamed θ named)) := by
  cases recursive
  · exact admits
  · exact admits.extendMono named

/-- A number above all members of a list. -/
theorem exists_above (vars : List TyVar) : ∃ n, ∀ v ∈ vars, v < n := by
  induction vars with
  | nil => exact ⟨0, fun _ member => nomatch member⟩
  | cons v vars ih =>
    obtain ⟨n, above⟩ := ih
    refine ⟨max (v + 1) n, fun w member => ?_⟩
    rcases List.mem_cons.mp member with rfl | member
    · exact Nat.lt_of_lt_of_le (Nat.lt_succ_self w) (Nat.le_max_left _ _)
    · exact Nat.lt_of_lt_of_le (above w member) (Nat.le_max_right _ _)

/-- The names of a group keep their instances when the environment outside is replaced by a more
    general one: the variables that are quantified get new names, above all that come in. -/
theorem Admits.bodyEnv (admits : Γ.Admits θ Δ) (named : List (String × Ty)) :
    ∃ θ', (∀ v ∈ Γ.freeVars, θ' v = θ v) ∧
      (Typing.bodyEnv Γ named).Admits θ (Typing.bodyEnv Δ (bindNamed θ' named)) := by
  obtain ⟨n, above⟩ := exists_above
    (Γ.freeVars.toList.flatMap (fun v => (θ v).freeVars.toList) ++ Δ.freeVars.toList)
  have aboveImage (v : TyVar) (free : v ∈ Γ.freeVars) (w : TyVar) (stands : w ∈ (θ v).freeVars) : w < n := by
    apply above w
    simp only [List.mem_append, List.mem_flatMap, Std.ExtTreeSet.mem_toList]
    exact .inl ⟨v, free, stands⟩
  have aboveOuter (w : TyVar) (free : w ∈ Δ.freeVars) : w < n := by
    apply above w
    simp only [List.mem_append, Std.ExtTreeSet.mem_toList]
    exact .inr free
  refine ⟨fun v => if v ∈ Γ.freeVars then θ v else .var (n + v), fun v free => if_pos free, ?_⟩
  rw [bodyEnv_bindNamed]
  refine Related.extend_map (f := fun entry => Γ.generalize entry.2) admits fun entry _ u inst => ?_
  obtain ⟨f, fixed, rfl⟩ := inst
  -- below `n` nothing changes, and the new name of a quantified variable leads back to it
  refine Scheme.instance_iff.mpr ⟨fun w => if w < n then .var w else f (w - n), ?_, ?_⟩
  · intro w free
    exact if_pos (aboveOuter w (mem_freeVars_generalize.mp free).2)
  · simp only [generalize, Ty.bind_bind]
    apply Ty.bind_congr
    intro v member
    by_cases free : v ∈ Γ.freeVars
    · rw [if_pos free, fixed v (mem_freeVars_generalize.mpr ⟨member, free⟩)]
      calc (θ v).bind _ = (θ v).bind .var := Ty.bind_congr fun w stands => if_pos (aboveImage v free w stands)
        _ = θ v := Ty.bind_var _
    · rw [if_neg free, Ty.bind, if_neg (Nat.not_lt.mpr (Nat.le_add_right n v)), Nat.add_sub_cancel_left]

/-- What stands for a free variable is free in the environment that is covered. -/
theorem Covers.mem_freeVars (covers : Γ.Covers θ Δ) {v w : TyVar} (free : v ∈ Γ.freeVars)
    (stands : w ∈ (θ v).freeVars) : w ∈ Δ.freeVars := by
  obtain ⟨name, σ, look, free⟩ := Env.mem_freeVars.mp free
  obtain ⟨τ, found, here⟩ := covers.left look
  obtain ⟨u, inst, only⟩ := τ.exists_instance
  exact Env.mem_freeVars.mpr ⟨name, τ, found, only w ((here u inst).mem_freeVars free stands)⟩

/-- The names of a group are quantified over at least what any choice of their types is. -/
theorem Covers.bodyEnv (covers : Γ.Covers θ Δ) (named : List (String × Ty)) :
    (Typing.bodyEnv Γ named).Covers θ (Typing.bodyEnv Δ (bindNamed θ named)) := by
  rw [bodyEnv_bindNamed]
  refine Related.extend_map (f := fun entry => Γ.generalize entry.2) covers fun entry _ u inst => ?_
  obtain ⟨g, fixed, rfl⟩ := inst
  refine ⟨fun v => (θ v).bind g, ?_, (Ty.bind_bind _ _ _).symm⟩
  intro v free
  obtain ⟨_, outer⟩ := mem_freeVars_generalize.mp free
  calc (θ v).bind g = (θ v).bind .var := Ty.bind_congr fun w stands => fixed w fun quantified =>
        (mem_vars_generalize.mp quantified).2 (covers.mem_freeVars outer stands)
    _ = θ v := Ty.bind_var _

/-- Without capture, `s` leads from an environment to its substitution. -/
theorem admits_subst {s : Subst} (safe : Γ.Safe s) : Γ.Admits s.value (Γ.subst s) := by
  intro name
  rw [getElem?_subst]
  cases look : Γ[name]? with
  | none => trivial
  | some σ =>
    intro u inst
    rw [Scheme.instance_iff, Scheme.instanceUnder_subst (safe name σ look), funext fun v => Ty.bind_var (s.value v)]
    exact inst

theorem Admits.of_subst {s : Subst} (safe : Γ.Safe s) (admits : Γ.Admits s.value Δ) :
    (Γ.subst s).Admits .var Δ := by
  refine Related.subst_left admits fun name σ τ look here u inst => here u ?_
  rwa [Scheme.instanceUnder_subst (safe name σ look), funext fun v => Ty.bind_var (s.value v)] at inst

/-- A substitution that holds under `θ` leaves what is covered under `θ`. -/
theorem Covers.subst {s : Subst} (covers : Γ.Covers θ Δ) (holds : s.Holds θ) (safe : Γ.Safe s) :
    (Γ.subst s).Covers θ Δ := by
  refine Related.subst_left covers fun name σ τ look here u inst => ?_
  rw [Scheme.instanceUnder_subst (safe name σ look), funext (Subst.holds_iff.mp holds)]
  exact here u inst

end

end Env

end LetPoly
