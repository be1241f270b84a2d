import LetPoly.Proofs.Capture

/-!
Instances of schemes and `let` groups. A group is inferred soundly if its values are, and leaves a
calm environment to its body (`groupOf_sound`). The inference of the values is a parameter here, since
it is recursive in the inference of expressions.
-/
namespace LetPoly.Infer
open State Typing

section
variable {K : TyVar → Prop} {M : Measures} {A : Reading} {Γ : Env} {st st₁ st₂ : State} {s r : Subst} {t : Ty}
  {named : List (String × Ty)}

theorem value_union (s r : Subst) (v : TyVar) : Subst.value (s ∪ r) v = if v ∈ r then r.value v else s.value v := by
  rw [Subst.value, Std.ExtTreeMap.getElem?_union]
  by_cases key : v ∈ r
  · rw [if_pos key, Subst.value, Std.ExtTreeMap.getElem?_eq_some_getElem key]
    rfl
  · rw [if_neg key, Subst.value, Std.ExtTreeMap.getElem?_eq_none key]
    rfl

/-- New variables are put for the given ones, and nothing else is replaced. -/
theorem renewal_sound {vars : List TyVar} (consistent : st.Consistent) (run : renewal vars st = .ok s st₁) :
    Reach K st ∅ st₁ ∧ (∀ v, v ∈ s ↔ v ∈ vars) ∧
      ∀ (k : TyVar) (t : Ty), s[k]? = some t → t.In (Fits K st st₁) := by
  induction vars generalizing K st s with
  | nil =>
    cases run
    exact ⟨.refl consistent, by simp, fun k t found => by simp at found⟩
  | cons v vars ih =>
    obtain ⟨t, st₂, run₁, run⟩ := bind_ok.mp run
    obtain ⟨r, st₃, run₂, done⟩ := bind_ok.mp run
    cases done
    obtain ⟨reach₁, inside⟩ := fresh_reach (K := K) consistent run₁
    obtain ⟨reach₂, keys, values⟩ := ih (K := Fits K st st₂) reach₁.consistent run₂
    refine ⟨reach₁.trans_empty reach₂, fun w => ?_, fun k u found => ?_⟩
    · rw [Std.ExtTreeMap.mem_union_iff, Subst.mem_single, keys, List.mem_cons]
    · rw [Std.ExtTreeMap.getElem?_union, Option.or_eq_some_iff] at found
      rcases found with found | ⟨_, found⟩
      · exact reach₁.gain reach₂ (values k u found)
      · obtain ⟨rfl, rfl⟩ := Subst.getElem?_single.mp found
        exact reach₁.carry_empty reach₂ inside

/-- A scheme is used at an instance by new variables. -/
theorem instantiate_sound {σ : Scheme} (scope : Scope K st) (inside : ∀ v ∈ σ.freeVars, K v)
    (run : instantiate σ st = .ok t st₁) : Reach K st ∅ st₁ ∧ t.In (Fits K st st₁) ∧ σ.Instance t := by
  obtain ⟨s, st₂, run₁, done⟩ := bind_ok.mp run
  obtain ⟨rfl, rfl⟩ := pure_ok.mp done
  obtain ⟨reach, keys, values⟩ := renewal_sound (K := K) scope.consistent run₁
  rw [Subst.apply_eq_bind]
  refine ⟨reach, fun w member => ?_, s.value, fun v free => Subst.value_of_notMem (mt (keys v).mp free), rfl⟩
  obtain ⟨v, found, stands⟩ := Ty.mem_freeVars_bind.mp member
  by_cases key : v ∈ s
  · refine values v _ (Std.ExtTreeMap.getElem?_eq_some_getElem key) w ?_
    simpa [Subst.value, Std.ExtTreeMap.getElem?_eq_some_getElem key] using stands
  · rw [Subst.value_of_notMem key, Ty.mem_freeVars_var] at stands
    have known := inside v (Scheme.mem_freeVars.mpr ⟨found, mt (keys v).mpr key⟩)
    exact stands ▸ reach.keep (scope.live v known) known Std.ExtTreeMap.not_mem_empty

/-! ### Groups -/

/-- The patterns of a recursive group accept the types of their placeholders. -/
theorem inferPlaceholders_sound {patterns : List Pattern} {s' : Subst} {placeholders : List Ty}
    (scope : Scope K st) (solves : st.Solves s)
    (run : inferPlaceholders s patterns st = .ok (s', placeholders, named) st₁) :
    ∃ r, s' = r.after s ∧ Reach K st r st₁ ∧ placeholders.length = patterns.length ∧
      (∀ t ∈ placeholders, (s'.apply t).In (Fits K st st₁)) ∧ NamedIn (Fits K st st₁) (s'.applyNamed named) ∧
      ∀ {M : Measures} {A : Reading} {fin : State}, st₁.Before fin → Allows M A st fin →
        AcceptsAll M A patterns (placeholders.map s'.apply) (s'.applyNamed named) := by
  induction patterns generalizing K st s s' placeholders named with
  | nil =>
    cases run
    exact ⟨∅, (Subst.empty_after s).symm, .refl scope.consistent, rfl, by simp, namedIn_nil _, fun _ _ => .nil⟩
  | cons p ps ih =>
    obtain ⟨t, st₂, run₁, run⟩ := bind_ok.mp run
    obtain ⟨⟨s₁, names⟩, st₃, run₂, run⟩ := bind_ok.mp run
    obtain ⟨⟨s₂, ts, others⟩, st₄, run₃, done⟩ := bind_ok.mp run
    cases done
    obtain ⟨reach₁, inside⟩ := fresh_reach (K := K) scope.consistent run₁
    obtain ⟨_, reach₂, gained, accepts⟩ := inferPattern_sound reach₁.scope inside run₂
    have reach := reach₁.empty_trans reach₂
    obtain ⟨r, rfl, further, length, known, rest, acceptsAll⟩ := ih reach.scope (solves.after reach) run₃
    have fresh : s.apply t = t :=
      (Subst.empty_after s ▸ solves.after reach₁).apply_eq_self inside
    have first : (r.after (s₁.after s)).apply t = r.apply (s₁.apply t) := by
      rw [Subst.apply_after, Subst.apply_after, fresh]
    have here : (r.after (s₁.after s)).applyNamed names = r.applyNamed names := by
      rw [Subst.applyNamed_after, (solves.after reach).applyNamed_eq_self gained]
    refine ⟨r.after s₁, (Subst.after_assoc r s₁ s).symm, reach.trans further, congrArg (· + 1) length, ?_, ?_, ?_⟩
    · simp only [List.mem_cons, forall_eq_or_imp, first]
      exact ⟨reach.carry further (reach₁.carry reach₂ inside), fun u member => reach.gain further (known u member)⟩
    · rw [Subst.applyNamed_append, here, namedIn_append]
      exact ⟨reach.carryNamed further (gained.imp fun _ => reach₁.fits reach₂), rest.imp fun _ => reach.fits further⟩
    · intro M A fin upto allows
      have upto₁ := further.journal.trans upto
      have one := (accepts upto₁ (allows.step reach₁ (reach₂.journal.trans upto₁))).apply allows.stable r
      have all := acceptsAll upto (allows.step reach upto₁)
      rw [Subst.applyNamed_append, here, List.map_cons, first]
      exact .cons one all

/-- The values of a group are typed with the types that its names get. -/
def ValuesSound (K : TyVar → Prop) (Γ : Env) (recursive : Bool) (bindings : List (Binding Expr)) (st : State)
    (s : Subst) (named : List (String × Ty)) (st' : State) : Prop :=
  Reach K st s st' ∧ NamedIn (Fits K st st') named ∧
    ∀ {M : Measures} {A : Reading} {fin : State}, st'.Before fin → Calm K M A Γ st fin →
      ValuesTyped M A (valueEnv (Γ.subst s) recursive named) bindings named

/-- The values of a group that is not recursive are typed under all that is solved, from `s` on. -/
def PlainSound (K : TyVar → Prop) (Γ : Env) (bindings : List (Binding Expr)) (st : State) (s s' : Subst)
    (named : List (String × Ty)) (st' : State) : Prop :=
  ∃ r, s' = r.after s ∧ Reach K st r st' ∧ NamedIn (Fits K st st') (s'.applyNamed named) ∧
    ∀ {M : Measures} {A : Reading} {fin : State}, st'.Before fin → Calm K M A (Γ.subst s) st fin → Γ.Safe s →
      ValuesTyped M A (Γ.subst s') bindings (s'.applyNamed named)

theorem plain_sound {bindings : List (Binding Expr)} (sound : PlainSound K Γ bindings st ∅ s named st₁) :
    ValuesSound K Γ false bindings st s (s.applyNamed named) st₁ := by
  obtain ⟨r, rfl, reach, names, typed⟩ := sound
  rw [Subst.after_empty] at names typed ⊢
  exact ⟨reach, names, fun upto calm => typed upto calm.empty Γ.safe_empty⟩

/-- The values of a recursive group have the types of their placeholders. -/
def PlacesSound (bindings : List (Binding Expr)) (values : Env → Subst → List Ty → Infer Subst) : Prop :=
  ∀ {K : TyVar → Prop} {Γ : Env} {s s' : Subst} {placeholders : List Ty} {st st' : State}, Scope K st →
    st.Solves s → Γ.InUnder K s → (∀ t ∈ placeholders, (s.apply t).In K) → placeholders.length = bindings.length →
    values Γ s placeholders st = .ok s' st' →
    ∃ r, s' = r.after s ∧ Reach K st r st' ∧
      ∀ {M : Measures} {A : Reading} {fin : State}, st'.Before fin → Calm K M A (Γ.subst s) st fin → Γ.Safe s →
        HaveTypes M A (Γ.subst s') (bindings.map Binding.value) (placeholders.map s'.apply)

theorem recursive_sound {bindings : List (Binding Expr)} {values : Env → Subst → List Ty → Infer Subst}
    {placeholders : List Ty} (scope : Scope K st) (inside : Γ.In K) (sound : PlacesSound bindings values)
    (run₁ : inferPlaceholders ∅ (bindings.map Binding.pattern) st = .ok (r, placeholders, named) st₁)
    (run₂ : values (Γ.extendMono named) r placeholders st₁ = .ok s st₂) :
    ValuesSound K Γ true bindings st s (s.applyNamed named) st₂ := by
  obtain ⟨r, rfl, reach₁, length, known, names, accepts⟩ := inferPlaceholders_sound scope (solves_empty st) run₁
  rw [Subst.after_empty] at run₂ known names accepts
  have inside₁ : (Γ.extendMono named).InUnder (Fits K st st₁) r :=
    Env.InUnder.extendMono (fun v free => reach₁.value scope.live (inside v free)) names
  obtain ⟨q, rfl, reach₂, typed⟩ :=
    sound reach₁.scope reach₁.solves inside₁ known (by simpa using length) run₂
  refine ⟨reach₁.trans reach₂, ?_, fun upto calm => ?_⟩
  · rw [Subst.applyNamed_after]
    exact reach₁.carryNamed reach₂ names
  · have upto₁ := reach₂.journal.trans upto
    have safe := calm.safe reach₁ upto₁
    have inner := (calm.step reach₁ upto₁).extendMono (r.applyNamed named)
    rw [← Env.subst_extendMono] at inner
    have values := typed upto inner (safe.extendMono named)
    have patterns := (accepts upto₁ calm.allows).apply calm.allows.stable q
    rw [Env.subst_extendMono] at values
    rw [← Subst.applyNamed_after, ← Subst.map_apply_after] at patterns
    exact valuesTyped_iff.mpr ⟨_, values, patterns⟩

/-- The names of a group are quantified, and nothing is captured then. -/
theorem generalizeAll_sound {Γ' : Env} (scope : Scope K st) (inside : Γ.In K) (names : NamedIn K named)
    (run : generalizeAll Γ named st = .ok Γ' st₁) :
    Γ' = bodyEnv Γ named ∧ Reach K st ∅ st₁ ∧
      ∀ {M : Measures} {A : Reading} {fin : State}, st₁.Before fin → Calm K M A Γ st fin →
        Calm (· ∈ Γ.freeVars) M A Γ' st₁ fin := by
  obtain ⟨_, st₂, run₁, done⟩ := bind_ok.mp run
  obtain ⟨rfl, rfl⟩ := pure_ok.mp done
  have news : st.news st₂ = named.map fun entry => .generalized entry.1 (Γ.generalize entry.2) := by
    cases record_ok.mp run₁
    rw [news_append rfl, List.map_map]
    rfl
  have idle : ∀ event ∈ st.news st₂, event.solution = ∅ := by
    rw [news]
    intro event member
    obtain ⟨entry, _, rfl⟩ := List.mem_map.mp member
    rfl
  have reach := record_reach (K := K) scope.consistent (by simpa [news] using idle) (by simp) run₁
  refine ⟨rfl, reach, fun upto calm => ⟨calm.allows.step reach upto, ?_⟩⟩
  refine calm.kept.bodyEnv scope.live inside names reach upto idle fun entry member => ?_
  rw [news]
  exact List.mem_map.mpr ⟨entry, member, rfl⟩

theorem groupOf_ok {Γ' : Env} {recursive : Bool} {bindings : List (Binding Expr)}
    {plain : Infer (Subst × List (String × Ty))} {values : Env → Subst → List Ty → Infer Subst}
    (run : groupOf Γ recursive bindings plain values st = .ok (s, Γ') st₁) :
    (groupNames bindings).Nodup ∧ ∃ named st₂, generalizeAll (Γ.subst s) (s.applyNamed named) st₂ = .ok Γ' st₁ ∧
      (recursive = false ∧ plain st = .ok (s, named) st₂ ∨
       recursive = true ∧ ∃ r placeholders st₃,
        inferPlaceholders ∅ (bindings.map Binding.pattern) st = .ok (r, placeholders, named) st₃ ∧
        values (Γ.extendMono named) r placeholders st₃ = .ok s st₂) := by
  obtain ⟨_, st₂, run₁, run⟩ := bind_ok.mp run
  obtain ⟨same, distinct⟩ := checkDistinct_ok.mp run₁
  cases same
  refine ⟨by rwa [List.map_flatMap] at distinct, ?_⟩
  cases recursive with
  | false =>
    obtain ⟨⟨q, named⟩, st₃, run₂, run⟩ := bind_ok.mp run
    obtain ⟨Δ, st₄, run₃, done⟩ := bind_ok.mp run
    cases done
    exact ⟨named, st₃, run₃, .inl ⟨rfl, run₂⟩⟩
  | true =>
    obtain ⟨⟨r, placeholders, named⟩, st₃, run₂, run⟩ := bind_ok.mp run
    obtain ⟨q, st₄, run₃, run⟩ := bind_ok.mp run
    obtain ⟨_, _, same, run⟩ := bind_ok.mp run
    cases same
    obtain ⟨Δ, st₅, run₄, done⟩ := bind_ok.mp run
    cases done
    exact ⟨named, st₄, run₄, .inr ⟨rfl, r, placeholders, st₃, run₂, run₃⟩⟩

/-- A group is inferred soundly if its values are, and leaves a calm environment to its body. -/
theorem groupOf_sound {Γ' : Env} {recursive : Bool} {bindings : List (Binding Expr)}
    {plain : Infer (Subst × List (String × Ty))} {values : Env → Subst → List Ty → Infer Subst}
    (scope : Scope K st) (inside : Γ.In K)
    (plainSound : ∀ {s : Subst} {named : List (String × Ty)} {st₁ : State}, plain st = .ok (s, named) st₁ →
      PlainSound K Γ bindings st ∅ s named st₁)
    (valuesSound : PlacesSound bindings values)
    (run : groupOf Γ recursive bindings plain values st = .ok (s, Γ') st₁) :
    ∃ named, (groupNames bindings).Nodup ∧ Γ' = bodyEnv (Γ.subst s) named ∧ Reach K st s st₁ ∧
      ∀ {M : Measures} {A : Reading} {fin : State}, st₁.Before fin → Calm K M A Γ st fin →
        ValuesTyped M A (valueEnv (Γ.subst s) recursive named) bindings named ∧
        Calm (· ∈ (Γ.subst s).freeVars) M A Γ' st₁ fin := by
  obtain ⟨distinct, names, st₂, run₁, runs⟩ := groupOf_ok run
  have sound : ValuesSound K Γ recursive bindings st s (s.applyNamed names) st₂ := by
    rcases runs with ⟨rfl, run₂⟩ | ⟨rfl, r, placeholders, st₃, run₂, run₃⟩
    · exact plain_sound (plainSound run₂)
    · exact recursive_sound scope inside valuesSound run₂ run₃
  obtain ⟨reach, known, typed⟩ := sound
  obtain ⟨same, record, quantified⟩ := generalizeAll_sound reach.scope (reach.subst scope.live inside) known run₁
  refine ⟨s.applyNamed names, distinct, same, reach.trans_empty record, fun upto calm => ?_⟩
  have upto₁ := record.journal.trans upto
  exact ⟨typed upto₁ calm, quantified upto (calm.step reach upto₁)⟩

end

end LetPoly.Infer
