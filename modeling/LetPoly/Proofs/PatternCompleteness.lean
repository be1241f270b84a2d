import LetPoly.Proofs.PatternSoundness

/-!
Inference does not fail where the rules give a type, and finds the most general one. A choice of types
by the rules is a replacement `θ` of the variables that have been given out; `Progress` says that what
is solved on the way agrees with it, once it is extended to the new variables. Steps that make
progress compose (`Progress.trans`, `Completes.bind`). A pattern that accepts a type is inferred
against every type that stands for it (`matchPattern_complete`).
-/
namespace LetPoly.Infer
open State Typing

/-- Inference that goes from `st` to `st₁` and solves `s` agrees with `θ`: without a named variable
    being read, `θ` extends to a replacement `θ₁` under which `s` holds. -/
structure Progress (K : TyVar → Prop) (st : State) (θ : TyVar → Ty) (s : Subst) (st₁ : State) (θ₁ : TyVar → Ty) :
    Prop where
  reach : Reach K st s st₁
  unread : st.Unread st₁
  agree : ∀ v, v < st.next → θ₁ v = θ v
  holds : s.Holds θ₁

/-- The type is known and stands for `u`. -/
def Stands (P : TyVar → Prop) (θ : TyVar → Ty) (t u : Ty) : Prop :=
  t.In P ∧ t.bind θ = u

/-- The types are known and stand for `us` one by one. -/
def StandAll (P : TyVar → Prop) (θ : TyVar → Ty) (ts us : List Ty) : Prop :=
  (∀ t ∈ ts, t.In P) ∧ ts.map (·.bind θ) = us

/-- The types of the names are known and stand for those of `others`. -/
def NamedStands (P : TyVar → Prop) (θ : TyVar → Ty) (named others : List (String × Ty)) : Prop :=
  NamedIn P named ∧ bindNamed θ named = others

/-- The run has a result with the property, unless it stops where no number is left for a new
    variable. -/
def Completes {α : Type} (R : α → State → (TyVar → Ty) → Prop) : EStateM.Result Failure State α → Prop
  | .ok a st => ∃ θ, R a st θ
  | .error e st => e = .outOfVariables ∧ varLimit ≤ st.next + 1

section
variable {α β : Type} {Q : α → State → (TyVar → Ty) → Prop} {R : β → State → (TyVar → Ty) → Prop} {st : State}

theorem Completes.bind {m : Infer α} {f : α → Infer β} (first : Completes Q (m st))
    (next : ∀ a st₁ θ₁, Q a st₁ θ₁ → Completes R (f a st₁)) : Completes R ((m >>= f) st) := by
  show Completes R (EStateM.bind m f st)
  unfold EStateM.bind
  cases run : m st with
  | ok a st₁ =>
    rw [run] at first
    obtain ⟨θ₁, here⟩ := first
    exact next a st₁ θ₁ here
  | error e st₁ =>
    rw [run] at first
    exact first

theorem Completes.mono {Q : β → State → (TyVar → Ty) → Prop} {result : EStateM.Result Failure State β}
    (completes : Completes Q result) (stronger : ∀ b st₁ θ₁, Q b st₁ θ₁ → R b st₁ θ₁) : Completes R result := by
  cases result with
  | ok b st₁ =>
    obtain ⟨θ₁, here⟩ := completes
    exact ⟨θ₁, stronger b st₁ θ₁ here⟩
  | error e st₁ => exact completes

theorem Completes.of_run {m : Infer β} {b : β} {st₁ : State} (θ : TyVar → Ty) (run : m st = .ok b st₁) (here : R b st₁ θ) :
    Completes R (m st) := by
  rw [run]
  exact ⟨θ, here⟩

theorem Completes.bind_run {m : Infer α} {f : α → Infer β} {a : α} {st₁ : State} (run : m st = .ok a st₁)
    (next : Completes R (f a st₁)) : Completes R ((m >>= f) st) := by
  show Completes R (EStateM.bind m f st)
  rw [EStateM.bind, run]
  exact next

theorem completes_pure {b : β} (θ : TyVar → Ty) (here : R b st θ) : Completes R ((pure b : Infer β) st) :=
  ⟨θ, here⟩

end

section
variable {K K' : TyVar → Prop} {st st₁ st₂ : State} {θ θ₁ θ₂ : TyVar → Ty} {s r : Subst} {t u : Ty}
  {named others : List (String × Ty)}

theorem progress_refl (consistent : st.Consistent) (θ : TyVar → Ty) : Progress K st θ ∅ st θ where
  reach := .refl consistent
  unread := unread_self st
  agree _ _ := rfl
  holds := Subst.holds_empty θ

/-- What is solved still holds when the replacement is extended to new variables. -/
theorem Progress.extend (progress : Progress K st θ s st₁ θ₁) (agree : ∀ v, v < st₁.next → θ₂ v = θ₁ v) :
    s.Holds θ₂ := by
  intro k t found
  have key : k < st₁.next :=
    progress.reach.consistent.keys k (progress.reach.solves k (Std.ExtTreeMap.mem_iff_isSome_getElem?.mpr (by simp [found])))
  rw [agree k key, progress.holds k t found]
  exact Ty.bind_congr fun v member => (agree v (progress.reach.values k t found v member).1.1).symm

theorem Progress.trans (progress : Progress K st θ s st₁ θ₁) (step : Progress (Fits K st st₁) st₁ θ₁ r st₂ θ₂) :
    Progress K st θ (r.after s) st₂ θ₂ where
  reach := progress.reach.trans step.reach
  unread := progress.unread.trans step.unread
  agree v given :=
    (step.agree v (Nat.lt_of_lt_of_le given progress.reach.next)).trans (progress.agree v given)
  holds := step.holds.after (progress.extend step.agree)

theorem Progress.mono (fewer : ∀ v, K' v → K v) (progress : Progress K' st θ s st₁ θ₁) : Progress K st θ s st₁ θ₁ :=
  { progress with reach := progress.reach.mono fewer }

theorem Progress.trans_empty (progress : Progress K st θ s st₁ θ₁) (step : Progress (Fits K st st₁) st₁ θ₁ ∅ st₂ θ₂) :
    Progress K st θ s st₂ θ₂ :=
  Subst.empty_after s ▸ progress.trans step

theorem Progress.empty_trans (progress : Progress K st θ ∅ st₁ θ₁) (step : Progress (Fits K st st₁) st₁ θ₁ r st₂ θ₂) :
    Progress K st θ r st₂ θ₂ :=
  Subst.after_empty r ▸ progress.trans step

/-- A type stands for the same under what is solved. -/
theorem Stands.apply (stands : Stands K θ t u) (live : ∀ v, K v → st.Live v) (step : Progress K st θ r st₁ θ₁) :
    Stands (Fits K st st₁) θ₁ (r.apply t) u := by
  refine ⟨step.reach.apply live stands.1, ?_⟩
  rw [step.holds.bind_apply, ← stands.2]
  exact Ty.bind_congr fun v member => step.agree v (live v (stands.1 v member)).1

theorem Stands.gain (stands : Stands (Fits (Fits K st st₁) st₁ st₂) θ t u) (reach : Reach K st s st₁)
    (further : Reach (Fits K st st₁) st₁ r st₂) : Stands (Fits K st st₂) θ t u :=
  ⟨reach.gain further stands.1, stands.2⟩

theorem Stands.carry (stands : Stands (Fits K st st₁) θ₁ t u) (reach : Reach K st s st₁)
    (step : Progress (Fits K st st₁) st₁ θ₁ r st₂ θ₂) : Stands (Fits K st st₂) θ₂ (r.apply t) u :=
  (stands.apply reach.scope.live step).gain reach step.reach

theorem Stands.carry_empty (stands : Stands (Fits K st st₁) θ₁ t u) (reach : Reach K st s st₁)
    (step : Progress (Fits K st st₁) st₁ θ₁ ∅ st₂ θ₂) : Stands (Fits K st st₂) θ₂ t u :=
  Subst.apply_empty t ▸ stands.carry reach step

theorem Stands.keep (stands : Stands K θ t u) (live : ∀ v, K v → st.Live v) (step : Progress K st θ ∅ st₁ θ₁) :
    Stands (Fits K st st₁) θ₁ t u :=
  Subst.apply_empty t ▸ stands.apply live step

theorem stands_wrap {P : TyVar → Prop} {w : Wrapper} (stands : Stands P θ t u) : Stands P θ (.wrap w t) (.wrap w u) :=
  ⟨Ty.in_wrap.mpr stands.1, by rw [Ty.bind, stands.2]⟩

theorem stands_func {P : TyVar → Prop} {a b a' b' : Ty} (left : Stands P θ a a') (right : Stands P θ b b') :
    Stands P θ (.func a b) (.func a' b') :=
  ⟨Ty.in_func.mpr ⟨left.1, right.1⟩, by rw [Ty.bind, left.2, right.2]⟩

theorem stands_prim {P : TyVar → Prop} (p : Prim) : Stands P θ (.prim p) (.prim p) :=
  ⟨Ty.in_prim p, rfl⟩

theorem standAll_cons {P : TyVar → Prop} {ts us : List Ty} :
    StandAll P θ (t :: ts) (u :: us) ↔ Stands P θ t u ∧ StandAll P θ ts us := by
  simp only [StandAll, Stands, List.mem_cons, forall_eq_or_imp, List.map_cons, List.cons.injEq]
  grind

theorem stands_tuple {P : TyVar → Prop} {a b a' b' : Ty} {ts us : List Ty}
    (all : StandAll P θ (a :: b :: ts) (a' :: b' :: us)) : Stands P θ (.tuple a b ts) (.tuple a' b' us) := by
  obtain ⟨first, rest⟩ := standAll_cons.mp all
  obtain ⟨second, rest⟩ := standAll_cons.mp rest
  exact ⟨Ty.in_tuple.mpr ⟨first.1, second.1, rest.1⟩,
    by rw [Ty.bind, first.2, second.2, Ty.bindList_eq_map, ← rest.2]⟩

theorem standAll_const {α : Type} {P : TyVar → Prop} (stands : Stands P θ (s.apply t) u) (xs : List α) :
    StandAll P θ ((xs.map fun _ => t).map s.apply) (xs.map fun _ => u) := by
  refine ⟨?_, ?_⟩
  · simp only [List.map_map, List.mem_map]
    rintro _ ⟨_, _, rfl⟩
    exact stands.1
  · rw [List.map_map, List.map_map, ← stands.2]
    rfl

theorem StandAll.two {P : TyVar → Prop} {ts us : List Ty} {a b : Ty} (all : StandAll P θ ts (a :: b :: us)) :
    ∃ x y rest, ts = x :: y :: rest := by
  match ts, all.2 with
  | x :: y :: rest, _ => exact ⟨x, y, rest, rfl⟩

theorem StandAll.apply {ts us : List Ty} (all : StandAll K θ ts us) (live : ∀ v, K v → st.Live v)
    (step : Progress K st θ r st₁ θ₁) : StandAll (Fits K st st₁) θ₁ (ts.map r.apply) us := by
  induction ts generalizing us with
  | nil => exact ⟨by simp, all.2⟩
  | cons t ts ih =>
    cases us with
    | nil => simp [StandAll] at all
    | cons u us =>
      obtain ⟨first, rest⟩ := standAll_cons.mp all
      exact standAll_cons.mpr ⟨first.apply live step, ih rest⟩

theorem StandAll.gain {ts us : List Ty} (all : StandAll (Fits (Fits K st st₁) st₁ st₂) θ ts us) (reach : Reach K st s st₁)
    (further : Reach (Fits K st st₁) st₁ r st₂) : StandAll (Fits K st st₂) θ ts us :=
  ⟨fun t member => reach.gain further (all.1 t member), all.2⟩

theorem NamedStands.apply (stands : NamedStands K θ named others) (live : ∀ v, K v → st.Live v)
    (step : Progress K st θ r st₁ θ₁) : NamedStands (Fits K st st₁) θ₁ (r.applyNamed named) others := by
  have here (entry : String × Ty) (member : entry ∈ named) :=
    Stands.apply (t := entry.2) ⟨stands.1 entry member, rfl⟩ live step
  constructor
  · intro entry member
    obtain ⟨before, found, rfl⟩ := List.mem_map.mp member
    exact (here before found).1
  · rw [← stands.2, Subst.applyNamed, bindNamed, bindNamed, List.map_map]
    exact List.map_congr_left fun entry member => congrArg (Prod.mk entry.1) (here entry member).2

theorem NamedStands.keep (stands : NamedStands K θ named others) (live : ∀ v, K v → st.Live v)
    (step : Progress K st θ ∅ st₁ θ₁) : NamedStands (Fits K st st₁) θ₁ named others :=
  Subst.applyNamed_empty named ▸ stands.apply live step

theorem NamedStands.gain (stands : NamedStands (Fits (Fits K st st₁) st₁ st₂) θ named others) (reach : Reach K st s st₁)
    (further : Reach (Fits K st st₁) st₁ r st₂) : NamedStands (Fits K st st₂) θ named others :=
  ⟨stands.1.imp fun _ => reach.fits further, stands.2⟩

theorem NamedStands.carry (stands : NamedStands (Fits K st st₁) θ₁ named others) (reach : Reach K st s st₁)
    (step : Progress (Fits K st st₁) st₁ θ₁ r st₂ θ₂) : NamedStands (Fits K st st₂) θ₂ (r.applyNamed named) others :=
  (stands.apply reach.scope.live step).gain reach step.reach

theorem namedStands_append {P : TyVar → Prop} {named' others' : List (String × Ty)} (first : NamedStands P θ named others)
    (second : NamedStands P θ named' others') : NamedStands P θ (named ++ named') (others ++ others') :=
  ⟨namedIn_append.mpr ⟨first.1, second.1⟩, by rw [bindNamed_append, first.2, second.2]⟩

theorem namedStands_nil (P : TyVar → Prop) (θ : TyVar → Ty) : NamedStands P θ [] [] :=
  ⟨namedIn_nil P, rfl⟩

/-! ### Elementary steps -/

/-- A new variable may stand for any type. -/
theorem fresh_complete (scope : Scope K st) (θ : TyVar → Ty) (u : Ty) :
    Completes (fun t st₁ θ₁ => Progress K st θ ∅ st₁ θ₁ ∧ Stands (Fits K st st₁) θ₁ t u) (fresh st) := by
  rw [fresh_run]
  split
  · rename_i enough
    obtain ⟨reach, inside⟩ := fresh_reach (K := K) scope.consistent ((fresh_run st).trans (if_pos enough))
    refine ⟨fun v => if v = st.next then u else θ v, ⟨reach, ?_, fun v given => ?_, Subst.holds_empty _⟩, inside, ?_⟩
    · exact unread_same rfl
    · exact if_neg (Nat.ne_of_lt given)
    · exact if_pos rfl
  · rename_i exhausted
    exact ⟨rfl, Nat.not_lt.mp exhausted⟩

/-- Types that stand for the same can be made equal. -/
theorem equate_complete {span : Span} {a b : Ty} {note : Option String} (scope : Scope K st) (left : Stands K θ a u)
    (right : Stands K θ b u) :
    Completes (fun s st₁ θ₁ => Progress K st θ s st₁ θ₁) (equate span a b note st) := by
  obtain ⟨s, solution, holds⟩ := unify_complete (left.2.trans right.2.symm)
  have run := equate_run span a b note st
  rw [solution] at run
  refine .of_run θ run ⟨equate_reach scope.consistent scope.live left.1 right.1 run, ?_, fun _ _ => rfl, holds⟩
  exact unread_append rfl (by simp)

theorem freshList_complete (scope : Scope K st) (θ : TyVar → Ty) (us : List Ty) :
    Completes (fun ts st₁ θ₁ => Progress K st θ ∅ st₁ θ₁ ∧ StandAll (Fits K st st₁) θ₁ ts us)
      (freshList us.length st) := by
  induction us generalizing K st θ with
  | nil => exact completes_pure θ ⟨progress_refl scope.consistent θ, by simp, rfl⟩
  | cons u us ih =>
    refine (fresh_complete scope θ u).bind ?_
    rintro t st₁ θ₁ ⟨progress, stands⟩
    refine (ih progress.reach.scope θ₁).bind ?_
    rintro ts st₂ θ₂ ⟨step, all⟩
    have first := stands.carry progress.reach step
    rw [Subst.apply_empty] at first
    exact completes_pure θ₂ ⟨progress.trans_empty step, standAll_cons.mpr ⟨first, all.gain progress.reach step.reach⟩⟩

theorem stands_literal {P : TyVar → Prop} {M : Measures} {value : Literal} (typed : LiteralType M value u) :
    Stands P θ u u :=
  ⟨in_of_literalType typed, typed.bind_eq θ⟩

theorem stands_means {P : TyVar → Prop} {M : Measures} {a : TypeExpr} (means : Means M a u) : Stands P θ u u :=
  ⟨in_of_bind_eq fun θ => means.bind_eq θ, means.bind_eq θ⟩

/-- A new variable stands for the part of a type that a constructor leaves open. -/
theorem open_complete {β : Type} {R : β → State → (TyVar → Ty) → Prop} {f : Ty → Subst → Infer β} {span : Span}
    {w : Wrapper} {note : Option String} (scope : Scope K st) (stands : Stands K θ t (.wrap w u))
    (next : ∀ elem s st₁ θ₁, Progress K st θ s st₁ θ₁ → Stands (Fits K st st₁) θ₁ (s.apply elem) u →
      Completes R (f elem s st₁)) :
    Completes R ((fresh >>= fun elem => equate span t (.wrap w elem) note >>= f elem) st) := by
  refine (fresh_complete scope θ u).bind ?_
  rintro elem st₁ θ₁ ⟨progress, known⟩
  refine (equate_complete progress.reach.scope (stands.keep scope.live progress) (stands_wrap known)).bind ?_
  rintro s st₂ θ₂ step
  exact next elem s st₂ θ₂ (progress.empty_trans step) (known.carry progress.reach step)

theorem acceptsAll_length {M : Measures} {A : Reading} {ps : List Pattern} {us : List Ty}
    (accepts : AcceptsAll M A ps us named) : ps.length = us.length := by
  induction ps generalizing us named with
  | nil =>
    cases accepts
    rfl
  | cons p ps ih =>
    cases accepts with
    | cons first rest => exact congrArg (· + 1) (ih rest)

theorem checkArity_run {span : Span} {a b : Ty} {us : List Ty} {n : Nat} (same : t.bind θ = .tuple a b us)
    (length : n = us.length + 2) : checkArity span t n st = .ok () st := by
  unfold checkArity
  cases t with
  | tuple x y ts =>
    rw [Ty.bind, Ty.tuple.injEq, Ty.bindList_eq_map] at same
    simp only [Ty.components?]
    rw [if_pos (by simp [length, ← same.2.2])]
    rfl
  | _ => rfl

mutual

/-- A pattern that accepts a type is inferred against whatever stands for it. -/
theorem matchPattern_complete {K : TyVar → Prop} {M : Measures} {θ : TyVar → Ty} {p : Pattern} {t u : Ty}
    {named : List (String × Ty)} {st : State} (scope : Scope K st) (measures : st.measures = M) (stands : Stands K θ t u) :
    Accepts M (Means M) p u named →
      Completes (fun out st₁ θ₁ => Progress K st θ out.1 st₁ θ₁ ∧ NamedStands (Fits K st st₁) θ₁ out.2 named)
        (matchPattern t p st)
  | .wild span _ => completes_pure θ ⟨progress_refl scope.consistent θ, namedStands_nil _ _⟩
  | .ident id _ => by
    have progress := progress_refl (K := K) scope.consistent θ
    refine completes_pure θ ⟨progress, ?_, ?_⟩
    · simpa [NamedIn] using progress.reach.keep_empty scope.live stands.1
    · simp [bindNamed, stands.2]
  | .const span typed => by
    refine .bind_run (literalType_ok.mpr ⟨rfl, measures ▸ typed⟩) ?_
    refine (equate_complete scope stands (stands_literal typed)).bind ?_
    rintro s st₁ θ₁ progress
    exact completes_pure θ₁ ⟨progress, namedStands_nil _ _⟩
  | .tuple span elements => by
    have length := acceptsAll_length elements
    refine .bind_run (checkArity_run stands.2 length) ?_
    rw [length]
    refine (freshList_complete scope θ _).bind ?_
    rintro vars st₁ θ₁ ⟨progress, all⟩
    obtain ⟨x, y, rest, rfl⟩ := all.two
    refine .bind_run (a := .tuple x y rest) rfl ?_
    refine (equate_complete progress.reach.scope (stands.keep scope.live progress) (stands_tuple all)).bind ?_
    rintro s st₂ θ₂ step
    have total := progress.empty_trans step
    have carried := (all.apply progress.reach.scope.live step).gain progress.reach step.reach
    refine (matchPatterns_complete total.reach.scope (total.reach.measures.trans measures) total.reach.solves carried
      elements).mono ?_
    rintro ⟨s', names⟩ st₃ θ₃ ⟨r, rfl, further, namesStand⟩
    exact ⟨total.trans further, namesStand.gain total.reach further.reach⟩
  | .list span elements => by
    refine open_complete scope stands ?_
    rintro elem s st₁ θ₁ progress known
    refine (matchPatterns_complete progress.reach.scope (progress.reach.measures.trans measures) progress.reach.solves
      (standAll_const known _) elements).mono ?_
    rintro ⟨s', names⟩ st₂ θ₂ ⟨r, rfl, step, namesStand⟩
    exact ⟨progress.trans step, namesStand.gain progress.reach step.reach⟩
  | .cons span head tail => by
    refine open_complete scope stands ?_
    rintro elem s₁ st₁ θ₁ progress known
    refine (matchPattern_complete progress.reach.scope (progress.reach.measures.trans measures) known head).bind ?_
    rintro ⟨s₂, heads⟩ st₂ θ₂ ⟨step, headsStand⟩
    have both := progress.trans step
    have listStands := stands_wrap (w := .list) (known.carry progress.reach step)
    rw [← Subst.apply_wrap, ← Subst.apply_wrap, ← Subst.apply_after] at listStands
    refine (matchPattern_complete both.reach.scope (both.reach.measures.trans measures) listStands tail).bind ?_
    rintro ⟨s₃, tails⟩ st₃ θ₃ ⟨step', tailsStand⟩
    have total := both.trans step'
    have fixed : (s₃.after (s₂.after s₁)).applyNamed (heads ++ tails) = s₃.applyNamed heads ++ tails := by
      rw [Subst.applyNamed_append, total.reach.solves.applyNamed_eq_self tailsStand.1,
        Subst.applyNamed_after, both.reach.solves.applyNamed_eq_self headsStand.1]
    refine completes_pure θ₃ ⟨total, fixed.symm ▸ namedStands_append ?_ (tailsStand.gain both.reach step'.reach)⟩
    exact (headsStand.gain progress.reach step.reach).carry both.reach step'
  | .some span inner => by
    refine open_complete scope stands ?_
    rintro elem s₁ st₁ θ₁ progress known
    refine (matchPattern_complete progress.reach.scope (progress.reach.measures.trans measures) known inner).bind ?_
    rintro ⟨s₂, names⟩ st₂ θ₂ ⟨step, namesStand⟩
    have total := progress.trans step
    have fixed := total.reach.solves.applyNamed_eq_self namesStand.1
    exact completes_pure θ₂ ⟨total, fixed.symm ▸ namesStand.gain progress.reach step.reach⟩
  | .none span _ => by
    refine open_complete scope stands ?_
    rintro elem s st₁ θ₁ progress _
    exact completes_pure θ₁ ⟨progress, namedStands_nil _ _⟩
  | .typed span means inner => by
    refine .bind_run (resolve_of_means (measures ▸ means)) ?_
    refine (equate_complete scope stands (stands_means means)).bind ?_
    rintro s₁ st₁ θ₁ progress
    have known := (stands_means means).apply scope.live progress
    refine (matchPattern_complete progress.reach.scope (progress.reach.measures.trans measures) known inner).bind ?_
    rintro ⟨s₂, names⟩ st₂ θ₂ ⟨step, namesStand⟩
    have total := progress.trans step
    have fixed := total.reach.solves.applyNamed_eq_self namesStand.1
    exact completes_pure θ₂ ⟨total, fixed.symm ▸ namesStand.gain progress.reach step.reach⟩

/-- Patterns that accept types one by one are inferred against whatever stands for these. -/
theorem matchPatterns_complete {K : TyVar → Prop} {M : Measures} {θ : TyVar → Ty} {ps : List Pattern} {ts us : List Ty}
    {named : List (String × Ty)} {s : Subst} {st : State} (scope : Scope K st) (measures : st.measures = M)
    (solves : st.Solves s) (all : StandAll K θ (ts.map s.apply) us) :
    AcceptsAll M (Means M) ps us named →
      Completes (fun out st₁ θ₁ => ∃ r, out.1 = r.after s ∧ Progress K st θ r st₁ θ₁ ∧
        NamedStands (Fits K st st₁) θ₁ out.2 named) (matchPatterns s ts ps st)
  | .nil => by
    cases ts with
    | cons t ts => simp [StandAll] at all
    | nil =>
      exact completes_pure θ ⟨∅, (Subst.empty_after s).symm, progress_refl scope.consistent θ, namedStands_nil _ _⟩
  | .cons first rest => by
    cases ts with
    | nil => simp [StandAll] at all
    | cons t ts =>
      obtain ⟨stands, others⟩ := standAll_cons.mp all
      refine (matchPattern_complete scope measures stands first).bind ?_
      rintro ⟨s₁, names⟩ st₁ θ₁ ⟨progress, namesStand⟩
      have carried := others.apply scope.live progress
      rw [← Subst.map_apply_after] at carried
      refine (matchPatterns_complete progress.reach.scope (progress.reach.measures.trans measures)
        (solves.after progress.reach) carried rest).bind ?_
      rintro ⟨s₂, more⟩ st₂ θ₂ ⟨r, rfl, step, moreStand⟩
      have fixed : (r.after (s₁.after s)).applyNamed names = r.applyNamed names := by
        rw [Subst.applyNamed_after,
          (solves.after progress.reach).applyNamed_eq_self namesStand.1]
      refine completes_pure θ₂ ⟨r.after s₁, (Subst.after_assoc r s₁ s).symm, progress.trans step, ?_⟩
      rw [fixed]
      exact namedStands_append (namesStand.carry progress.reach step) (moreStand.gain progress.reach step.reach)

end

/-- A pattern that accepts a type and binds no name twice is inferred against whatever stands for the
    type. -/
theorem inferPattern_complete {M : Measures} {p : Pattern} (scope : Scope K st) (measures : st.measures = M)
    (stands : Stands K θ t u) (distinct : p.names.Nodup) (accepts : Accepts M (Means M) p u named) :
    Completes (fun out st₁ θ₁ => Progress K st θ out.1 st₁ θ₁ ∧ NamedStands (Fits K st st₁) θ₁ out.2 named)
      (inferPattern t p st) :=
  .bind_run (checkDistinct_ok.mpr ⟨rfl, distinct⟩) (matchPattern_complete scope measures stands accepts)

end

end LetPoly.Infer
