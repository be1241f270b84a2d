import LetPoly.Proofs.PatternSoundness

/-!
What has to hold for a scheme in the environment to keep its meaning while inference goes on: what is
solved must not capture, so that no type with a quantified variable is put for a free one (`Kept`).
Quantified variables are neither known nor new, so the only way back for them is a named variable of
an annotation, which can be read as a type that an earlier `let` has quantified; a run that reads none
captures nothing. Runs that capture nothing are calm (`Calm`), and this carries over from step to step
(`Calm.step`).
-/
namespace LetPoly

/-- Nothing that is solved along the events is captured by the scheme. -/
def Scheme.KeptBy (events : List Event) (σ : Scheme) : Prop :=
  ∀ front, front <+: events → σ.Safe (solvedBy front)

theorem Scheme.KeptBy.subst {σ : Scheme} {events later : List Event} (kept : σ.KeptBy (events ++ later)) :
    (σ.subst (solvedBy events)).KeptBy later := by
  intro front first
  have safe := kept (events ++ front) ((List.prefix_append_right_inj events).mpr first)
  rw [solvedBy_append] at safe
  exact safe.of_after

theorem Scheme.keptBy_of_closed {σ : Scheme} (closed : σ.Closed) (events : List Event) : σ.KeptBy events :=
  fun _ _ v free => absurd free (closed v)

/-- Nothing that is solved along the events is captured by a scheme of the environment. -/
def Env.KeptBy (events : List Event) (Γ : Env) : Prop :=
  ∀ (name : String) (σ : Scheme), Γ[name]? = some σ → σ.KeptBy events

/-- No scheme that a `let` makes captures a variable in what is solved after it: no type with a variable
    that the scheme quantifies is put for one of its free variables. -/
def Uncaptured : List Event → Prop
  | [] => True
  | .generalized _ σ :: later => σ.KeptBy later ∧ Uncaptured later
  | _ :: later => Uncaptured later

theorem Uncaptured.tail {event : Event} {later : List Event} (uncaptured : Uncaptured (event :: later)) :
    Uncaptured later := by
  cases event with
  | generalized name σ => exact uncaptured.2
  | _ => exact uncaptured

theorem Uncaptured.right {events later : List Event} (uncaptured : Uncaptured (events ++ later)) :
    Uncaptured later := by
  induction events with
  | nil => exact uncaptured
  | cons event events ih => exact ih uncaptured.tail

theorem Uncaptured.keptBy {events later : List Event} {name : String} {σ : Scheme}
    (uncaptured : Uncaptured (events ++ later)) (idle : ∀ event ∈ events, event.solution = ∅)
    (member : .generalized name σ ∈ events) : σ.KeptBy later := by
  induction events with
  | nil => cases member
  | cons event events ih =>
    simp only [List.mem_cons, forall_eq_or_imp] at idle
    rcases List.mem_cons.mp member with rfl | member
    · have kept : (σ.subst (solvedBy events)).KeptBy later := uncaptured.1.subst
      rwa [solvedBy_eq_empty idle.2, Scheme.subst_empty] at kept
    · exact ih uncaptured.tail idle.2 member

namespace Infer
open State Typing

/-- What the schemes of `Γ` quantify has been given out, and is not known. -/
def Hidden (K : TyVar → Prop) (Γ : Env) (st : State) : Prop :=
  ∀ v, Γ.Binds v → v < st.next ∧ ¬ K v

/-- The schemes of `Γ`, and those made until `fin`, do not capture anything that is solved until
    `fin`: either as can be seen from what happens, or since no named variable is read. -/
def Kept (K : TyVar → Prop) (Γ : Env) (st fin : State) : Prop :=
  Uncaptured (st.news fin) ∧ Γ.KeptBy (st.news fin) ∨ st.Silent fin ∧ Hidden K Γ st

/-- From `st` until `fin` schemes keep their meaning, and the reading of annotations fits. -/
structure Calm (K : TyVar → Prop) (M : Measures) (A : Reading) (Γ : Env) (st fin : State) : Prop where
  allows : Allows M A st fin
  kept : Kept K Γ st fin

section
variable {K K' : TyVar → Prop} {M : Measures} {A : Reading} {Γ : Env} {st st₁ st₂ fin : State} {s r : Subst} {t : Ty}
  {named : List (String × Ty)}

/-- A run that reads no named variable does not bring quantified variables back. -/
theorem Hidden.not_fits {v : TyVar} (hidden : Hidden K Γ st) (silent : st.Silent st₁) (bound : Γ.Binds v) :
    ¬ Fits K st st₁ v := by
  obtain ⟨given, unknown⟩ := hidden v bound
  rintro ⟨_, known | new | read⟩
  · exact unknown known
  · exact Nat.lt_irrefl _ (Nat.lt_of_lt_of_le given new)
  · exact silent.not_reads v read

theorem Hidden.safe (hidden : Hidden K Γ st) (silent : st.Silent st₁) (reach : Reach K st s st₁) : Γ.Safe s :=
  Env.safe_of_values fun k t found w member bound => hidden.not_fits silent bound (reach.values k t found w member)

theorem Hidden.step (hidden : Hidden K Γ st) (silent : st.Silent st₁) (reach : Reach K st s st₁) :
    Hidden (Fits K st st₁) (Γ.subst s) st₁ := by
  intro v bound
  have bound := Env.binds_subst.mp bound
  exact ⟨Nat.lt_of_lt_of_le (hidden v bound).1 reach.next, hidden.not_fits silent bound⟩

theorem Hidden.extendMono (hidden : Hidden K Γ st) (named : List (String × Ty)) : Hidden K (Γ.extendMono named) st :=
  fun v bound => hidden v (Env.binds_extendMono bound)

theorem binds_bodyEnv {v : TyVar} (bound : (bodyEnv Γ named).Binds v) :
    Γ.Binds v ∨ ∃ entry ∈ named, v ∈ (Γ.generalize entry.2).vars := by
  rcases Env.binds_extend bound with bound | ⟨_, added, member⟩
  · exact .inl bound
  · obtain ⟨entry, found, rfl⟩ := List.mem_map.mp added
    exact .inr ⟨entry, found, member⟩

theorem mem_freeVars_bodyEnv {v : TyVar} (free : v ∈ (bodyEnv Γ named).freeVars) : v ∈ Γ.freeVars := by
  rcases Env.mem_freeVars_extend free with free | ⟨_, added, free⟩
  · exact free
  · obtain ⟨entry, _, rfl⟩ := List.mem_map.mp added
    exact (Env.mem_freeVars_generalize.mp free).2

/-- A group quantifies over known variables that are not free outside. -/
theorem Hidden.bodyEnv (hidden : Hidden K Γ st) (live : ∀ v, K v → st.Live v) (inside : Γ.In K)
    (names : NamedIn K named) : Hidden (· ∈ Γ.freeVars) (bodyEnv Γ named) st := by
  intro v bound
  rcases binds_bodyEnv bound with bound | ⟨entry, member, quantified⟩
  · exact ⟨(hidden v bound).1, fun free => (hidden v bound).2 (inside v free)⟩
  · obtain ⟨found, unquantified⟩ := Env.mem_vars_generalize.mp quantified
    exact ⟨(live v (names entry member v found)).1, unquantified⟩

/-- What is solved in a step is not captured. -/
theorem Kept.safe (kept : Kept K Γ st fin) (reach : Reach K st s st₁) (upto : st₁.Before fin) : Γ.Safe s := by
  rcases kept with ⟨_, kept⟩ | ⟨silent, hidden⟩
  · intro name σ look
    have safe := kept name σ look (st.news st₁) (news_trans reach.journal upto ▸ List.prefix_append _ _)
    rwa [reach.news] at safe
  · exact hidden.safe (silent.left reach.journal upto) reach

/-- Nothing is captured after a step. -/
theorem Kept.step (kept : Kept K Γ st fin) (reach : Reach K st s st₁) (upto : st₁.Before fin) :
    Kept (Fits K st st₁) (Γ.subst s) st₁ fin := by
  rcases kept with ⟨uncaptured, kept⟩ | ⟨silent, hidden⟩
  · rw [news_trans reach.journal upto] at uncaptured kept
    refine .inl ⟨uncaptured.right, fun name τ look => ?_⟩
    rw [Env.getElem?_subst, Option.map_eq_some_iff] at look
    obtain ⟨σ, look, rfl⟩ := look
    exact reach.news ▸ (kept name σ look).subst
  · exact .inr ⟨silent.right reach.journal upto, hidden.step (silent.left reach.journal upto) reach⟩

theorem Kept.extendMono (kept : Kept K Γ st fin) (named : List (String × Ty)) : Kept K (Γ.extendMono named) st fin := by
  rcases kept with ⟨uncaptured, kept⟩ | ⟨silent, hidden⟩
  · refine .inl ⟨uncaptured, fun name σ look front first => ?_⟩
    exact Env.Safe.extendMono (fun name σ look => kept name σ look front first) named name σ look
  · exact .inr ⟨silent, hidden.extendMono named⟩

/-- Nothing is captured in the body of a group whose schemes have just been made. -/
theorem Kept.bodyEnv (kept : Kept K Γ st fin) (live : ∀ v, K v → st.Live v) (inside : Γ.In K) (names : NamedIn K named)
    (reach : Reach K st ∅ st₁) (upto : st₁.Before fin) (idle : ∀ event ∈ st.news st₁, event.solution = ∅)
    (made : ∀ entry ∈ named, .generalized entry.1 (Γ.generalize entry.2) ∈ st.news st₁) :
    Kept (· ∈ Γ.freeVars) (bodyEnv Γ named) st₁ fin := by
  rcases kept with ⟨uncaptured, kept⟩ | ⟨silent, hidden⟩
  · rw [news_trans reach.journal upto] at uncaptured kept
    refine .inl ⟨uncaptured.right, fun name σ look => ?_⟩
    rcases Env.getElem?_extend look with look | added
    · have kept := (kept name σ look).subst
      rwa [reach.news, Scheme.subst_empty] at kept
    · obtain ⟨entry, member, same⟩ := List.mem_map.mp added
      cases same
      exact uncaptured.keptBy idle (made entry member)
  · refine .inr ⟨silent.right reach.journal upto, fun v bound => ?_⟩
    obtain ⟨given, unknown⟩ := hidden.bodyEnv live inside names v bound
    exact ⟨Nat.lt_of_lt_of_le given reach.next, unknown⟩

theorem Kept.forget (kept : Kept K Γ st fin) (fewer : ∀ v, K' v → K v) : Kept K' Γ st fin :=
  kept.imp_right fun ⟨silent, hidden⟩ => ⟨silent, fun v bound => (hidden v bound).imp_right (mt (fewer v))⟩

theorem Calm.safe (calm : Calm K M A Γ st fin) (reach : Reach K st s st₁) (upto : st₁.Before fin) : Γ.Safe s :=
  calm.kept.safe reach upto

/-- After a step inference is calm under what is solved. -/
theorem Calm.step (calm : Calm K M A Γ st fin) (reach : Reach K st s st₁) (upto : st₁.Before fin) :
    Calm (Fits K st st₁) M A (Γ.subst s) st₁ fin :=
  ⟨calm.allows.step reach upto, calm.kept.step reach upto⟩

/-- The same for parts that are inferred in turn, from what is solved before them. -/
theorem Calm.next (calm : Calm K M A (Γ.subst s) st fin) (safe : Γ.Safe s) (reach : Reach K st r st₁)
    (upto : st₁.Before fin) : Calm (Fits K st st₁) M A (Γ.subst (r.after s)) st₁ fin ∧ Γ.Safe (r.after s) :=
  ⟨Env.subst_after safe ▸ calm.step reach upto, safe.after (calm.safe reach upto)⟩

theorem Calm.empty (calm : Calm K M A Γ st fin) : Calm K M A (Γ.subst ∅) st fin :=
  Γ.subst_empty.symm ▸ calm

theorem Calm.extendMono (calm : Calm K M A Γ st fin) (named : List (String × Ty)) :
    Calm K M A (Γ.extendMono named) st fin :=
  ⟨calm.allows, calm.kept.extendMono named⟩

/-- What two steps solve goes into the environment one after the other, and the second part is not captured
    either. -/
theorem Calm.subst_after (calm : Calm K M A Γ st fin) (reach : Reach K st s st₁)
    (further : Reach (Fits K st st₁) st₁ r st₂) (upto : st₂.Before fin) :
    Γ.subst (r.after s) = (Γ.subst s).subst r ∧ (Γ.subst s).Safe r := by
  have upto₁ := further.journal.trans upto
  exact ⟨Env.subst_after (calm.safe reach upto₁), (calm.step reach upto₁).safe further upto⟩

theorem Calm.admits (calm : Calm K M A Γ st fin) (reach : Reach K st s st₁)
    (further : Reach (Fits K st st₁) st₁ r st₂) (upto : st₂.Before fin) :
    (Γ.subst s).Admits r.value (Γ.subst (r.after s)) := by
  obtain ⟨same, safe⟩ := calm.subst_after reach further upto
  rw [same]
  exact Env.admits_subst safe

/-- What is typed before a step is typed after it. -/
theorem Calm.carry {e : Expr} (calm : Calm K M A Γ st fin) (reach : Reach K st s st₁)
    (further : Reach (Fits K st st₁) st₁ r st₂) (upto : st₂.Before fin) (typed : HasType M A (Γ.subst s) e t) :
    HasType M A (Γ.subst (r.after s)) e (r.apply t) := by
  obtain ⟨same, safe⟩ := calm.subst_after reach further upto
  rw [same]
  exact typed.subst calm.allows.stable safe

end

end Infer

end LetPoly
