import Mathlib.Data.Nat.Basic
import Std.Internal.Do.WP.Lemmas
import LetPoly.Proofs.Instances
import LetPoly.Infer.Program

/-!
What a run of inference leaves behind. A variable is live in a state if it has been given out and
nothing is solved for it. `Reach K st s st'` says what happens between two states when `s` is solved
on the way and `K` holds of the variables that are known before: nothing is taken back, every variable
that `s` speaks of is known, new, or read from a named annotation variable, and no variable that has
been solved is left in a type. The journal tells what `s` is (`solvedBy`). Steps compose
(`Reach.trans`), so the invariant of a run follows from the elementary steps: new variables
(`fresh_reach`) and equations (`equate_reach`). The elementary steps themselves are kept too, as a
path (`Path`) along which further invariants of a run are proved by induction.
-/
namespace LetPoly

/-- All variables of a type satisfy `P`. -/
def Ty.In (P : TyVar → Prop) (t : Ty) : Prop :=
  ∀ v ∈ t.freeVars, P v

namespace Ty
variable {P Q : TyVar → Prop}

theorem In.imp {t : Ty} (inside : t.In P) (weaker : ∀ v, P v → Q v) : t.In Q :=
  fun v member => weaker v (inside v member)

@[simp] theorem in_prim (p : Prim) : (Ty.prim p).In P := by
  intro v member
  simp [freeVars] at member

@[simp] theorem in_var {v : TyVar} : (Ty.var v).In P ↔ P v := by
  simp [In]

@[simp] theorem in_wrap {w : Wrapper} {t : Ty} : (Ty.wrap w t).In P ↔ t.In P :=
  Iff.rfl

@[simp] theorem in_func {a b : Ty} : (Ty.func a b).In P ↔ a.In P ∧ b.In P := by
  simp [In, freeVars, Std.ExtTreeSet.mem_union_iff, or_imp, forall_and]

@[simp] theorem in_tuple {a b : Ty} {ts : List Ty} :
    (Ty.tuple a b ts).In P ↔ a.In P ∧ b.In P ∧ ∀ t ∈ ts, t.In P := by
  simp only [In, freeVars, Std.ExtTreeSet.mem_union_iff, mem_freeVarsList, or_imp, forall_and, and_assoc,
    forall_exists_index, and_imp]
  refine and_congr_right fun _ => and_congr_right fun _ => ?_
  exact ⟨fun all t member v found => all v t member found, fun all v t member found => all t member v found⟩

end Ty

/-- All variables in the types of names satisfy `P`. -/
def NamedIn (P : TyVar → Prop) (named : List (String × Ty)) : Prop :=
  ∀ entry ∈ named, entry.2.In P

theorem NamedIn.imp {P Q : TyVar → Prop} {named : List (String × Ty)} (inside : NamedIn P named)
    (weaker : ∀ v, P v → Q v) : NamedIn Q named :=
  fun entry member => (inside entry member).imp weaker

theorem namedIn_nil (P : TyVar → Prop) : NamedIn P [] := by
  simp [NamedIn]

theorem namedIn_append {P : TyVar → Prop} {named others : List (String × Ty)} :
    NamedIn P (named ++ others) ↔ NamedIn P named ∧ NamedIn P others := by
  simp [NamedIn, or_imp, forall_and]

/-- All free variables of an environment satisfy `P` once `s` is applied. -/
def Env.InUnder (P : TyVar → Prop) (s : Subst) (Γ : Env) : Prop :=
  ∀ v ∈ Γ.freeVars, (s.value v).In P

/-- All free variables of an environment satisfy `P`. -/
def Env.In (P : TyVar → Prop) (Γ : Env) : Prop :=
  ∀ v ∈ Γ.freeVars, P v

namespace Env
variable {P : TyVar → Prop} {Γ : Env} {s : Subst}

theorem InUnder.subst (inside : Γ.InUnder P s) : (Γ.subst s).In P := by
  intro w free
  obtain ⟨v, member, stands⟩ := mem_freeVars_subst free
  exact inside v member w stands

theorem inUnder_empty : Γ.InUnder P ∅ ↔ Γ.In P := by
  simp [InUnder, In, Subst.value_empty]

theorem InUnder.extendMono {named : List (String × Ty)} (inside : Γ.InUnder P s)
    (others : NamedIn P (s.applyNamed named)) : (Γ.extendMono named).InUnder P s := by
  intro v free
  rcases mem_freeVars_extendMono free with free | ⟨entry, member, free⟩
  · exact inside v free
  · intro w stands
    refine others (entry.1, s.apply entry.2) (List.mem_map.mpr ⟨entry, member, rfl⟩) w ?_
    rw [Subst.apply_eq_bind]
    exact Ty.mem_freeVars_bind.mpr ⟨v, free, stands⟩

theorem In.extendMono {named : List (String × Ty)} (inside : Γ.In P) (others : NamedIn P named) :
    (Γ.extendMono named).In P := by
  intro v free
  rcases mem_freeVars_extendMono free with free | ⟨entry, member, free⟩
  · exact inside v free
  · exact others entry member v free

end Env

/-- The event reads a named variable as a type with `v` in it. -/
def Event.Reads (v : TyVar) : Event → Prop
  | .resolved _ t => v ∈ t.freeVars
  | _ => False

/-- What an event solves. -/
def Event.solution : Event → Subst
  | .equated left right => (unify left right).toOption.getD ∅
  | _ => ∅

/-- What events solve one after the other. -/
def solvedBy : List Event → Subst
  | [] => ∅
  | event :: events => (solvedBy events).after event.solution

theorem solvedBy_append (events others : List Event) :
    solvedBy (events ++ others) = (solvedBy others).after (solvedBy events) := by
  induction events with
  | nil => exact (Subst.after_empty _).symm
  | cons event events ih => rw [List.cons_append, solvedBy, ih, solvedBy, Subst.after_assoc]

theorem solvedBy_eq_empty {events : List Event} (idle : ∀ event ∈ events, event.solution = ∅) :
    solvedBy events = ∅ := by
  induction events with
  | nil => rfl
  | cons event events ih =>
    simp only [List.mem_cons, forall_eq_or_imp] at idle
    rw [solvedBy, idle.1, ih idle.2, Subst.after_empty]

namespace State

/-- The journal at `st'` goes on from that at `st`. -/
def Before (st st' : State) : Prop :=
  st.journal.toList <+: st'.journal.toList

/-- What the journal has at `st'` and not yet at `st`. -/
def news (st st' : State) : List Event :=
  st'.journal.toList.drop st.journal.size

/-- Between the states some named variable is read as a type with `v` in it. -/
def Reads (st st' : State) (v : TyVar) : Prop :=
  ∃ event ∈ st.news st', event.Reads v

/-- Between the states no named variable is read. -/
def Silent (st st' : State) : Prop :=
  ∀ (name : String) (t : Ty), .resolved name t ∉ st.news st'

/-- The variable has been given out, and nothing is solved for it. -/
def Live (st : State) (v : TyVar) : Prop :=
  v < st.next ∧ v ∉ st.solved

/-- What is solved speaks of variables that have been given out, and no solved variable is left in
    it. -/
structure Consistent (st : State) : Prop where
  keys : ∀ k ∈ st.solved, k < st.next
  values : ∀ (k : TyVar) (t : Ty), st.solved[k]? = some t → t.In st.Live
  named : ∀ (name : String) (v : TyVar), st.named[name]? = some v → v < st.next

/-- A variable that was known, is new, or has been read since `st`. -/
def Met (K : TyVar → Prop) (st st' : State) (v : TyVar) : Prop :=
  K v ∨ st.next ≤ v ∨ st.Reads st' v

/-- A variable that is live in `st'` and was known, is new, or has been read since `st`. -/
def Fits (K : TyVar → Prop) (st st' : State) (v : TyVar) : Prop :=
  st'.Live v ∧ Met K st st' v

/-- The known variables are live, in a consistent state. -/
structure Scope (K : TyVar → Prop) (st : State) : Prop where
  consistent : st.Consistent
  live : ∀ v, K v → st.Live v

/-- An elementary step of inference, where `K` is known: variables are given out, something is noted
    that is no reading of a named variable, two known types are made equal, or a named variable is
    read, again or for the first time. -/
inductive Step (K : TyVar → Prop) (st : State) : State → Prop where
  | supply {n : Nat} : st.next ≤ n → Step K st { st with next := n }
  | note {events : List Event} : (∀ (name : String) (t : Ty), .resolved name t ∉ events) →
    Step K st { st with journal := st.journal ++ events }
  | solve {a b : Ty} {s : Subst} : a.In K → b.In K → unify a b = .ok s →
    Step K st { st with journal := st.journal ++ [Event.equated a b], solved := s.after st.solved }
  | reread {name : String} {v : TyVar} : st.named[name]? = some v →
    Step K st { st with journal := st.journal ++ [Event.resolved name (st.solved.value v)] }
  | read {name : String} : st.named[name]? = none →
    Step K st { st with next := st.next + 1, named := st.named.insert name st.next,
                        journal := st.journal ++ [Event.resolved name (.var st.next)] }

/-- Elementary steps in turn, each from a consistent state and where that is known which was known
    before or has been met on the way. -/
inductive Path (K : TyVar → Prop) (st : State) : State → Prop where
  | refl : Path K st st
  | tail {st₁ st₂ : State} : Path K st st₁ → st₁.Consistent → Step (Fits K st st₁) st₁ st₂ → Path K st st₂

/-- What inference keeps between two states, where `s` is solved on the way and `K` holds of the
    variables that are known before. -/
structure Reach (K : TyVar → Prop) (st : State) (s : Subst) (st' : State) : Prop where
  next : st.next ≤ st'.next
  measures : st'.measures = st.measures
  journal : st.Before st'
  solved : st'.solved = s.after st.solved
  news : solvedBy (st.news st') = s
  consistent : st'.Consistent
  keys : ∀ k ∈ s, Met K st st' k
  values : ∀ (k : TyVar) (t : Ty), s[k]? = some t → t.In (Fits K st st')
  path : Path K st st'

theorem before_self (st : State) : st.Before st :=
  List.prefix_refl _

theorem Before.trans {st st₁ st₂ : State} (first : st.Before st₁) (second : st₁.Before st₂) : st.Before st₂ :=
  List.IsPrefix.trans first second

theorem before_append {st st' : State} {events : List Event} (h : st'.journal = st.journal ++ events) :
    st.Before st' :=
  ⟨events, by simp [h]⟩

theorem news_self (st : State) : st.news st = [] := by
  simp [news]

theorem news_of_split {st st' : State} {events : List Event} (h : st.journal.toList ++ events = st'.journal.toList) :
    st.news st' = events := by
  rw [news, ← h, ← Array.length_toList, List.drop_left]

theorem news_append {st st' : State} {events : List Event} (h : st'.journal = st.journal ++ events) :
    st.news st' = events :=
  news_of_split (by simp [h])

theorem news_trans {st st₁ st₂ : State} (first : st.Before st₁) (second : st₁.Before st₂) :
    st.news st₂ = st.news st₁ ++ st₁.news st₂ := by
  obtain ⟨xs, one⟩ := first
  obtain ⟨ys, two⟩ := second
  rw [news_of_split one, news_of_split two]
  apply news_of_split
  rw [← two, ← one, List.append_assoc]

theorem silent_self (st : State) : st.Silent st := by
  simp [Silent, news_self]

section
variable {K : TyVar → Prop} {st st₁ st₂ : State} {s r : Subst} {v : TyVar} {t : Ty}

theorem Silent.left (silent : st.Silent st₂) (first : st.Before st₁)
    (second : st₁.Before st₂) : st.Silent st₁ :=
  fun name t member => silent name t (news_trans first second ▸ List.mem_append_left _ member)

theorem Silent.right (silent : st.Silent st₂) (first : st.Before st₁)
    (second : st₁.Before st₂) : st₁.Silent st₂ :=
  fun name t member => silent name t (news_trans first second ▸ List.mem_append_right _ member)

theorem Silent.trans (before : st.Silent st₁) (after : st₁.Silent st₂) (first : st.Before st₁)
    (second : st₁.Before st₂) : st.Silent st₂ := by
  intro name t member
  rw [news_trans first second, List.mem_append] at member
  exact member.elim (before name t) (after name t)

theorem Silent.not_reads (silent : st.Silent st₁) (v : TyVar) : ¬ st.Reads st₁ v := by
  rintro ⟨event, member, read⟩
  cases event with
  | resolved name t => exact silent name t member
  | _ => exact read

/-- The journal goes on, without a named variable being read. -/
def Unread (st st' : State) : Prop :=
  st.Before st' ∧ st.Silent st'

theorem unread_self (st : State) : st.Unread st :=
  ⟨before_self st, silent_self st⟩

theorem Unread.trans (first : st.Unread st₁) (second : st₁.Unread st₂) : st.Unread st₂ :=
  ⟨first.1.trans second.1, first.2.trans second.2 first.1 second.1⟩

theorem unread_append {events : List Event} (h : st₁.journal = st.journal ++ events)
    (unread : ∀ (name : String) (t : Ty), .resolved name t ∉ events) : st.Unread st₁ :=
  ⟨before_append h, by simpa [Silent, news_append h] using unread⟩

theorem unread_same (h : st₁.journal = st.journal) : st.Unread st₁ :=
  unread_append (by rw [h, Array.appendList_nil]) fun _ _ => List.not_mem_nil

theorem Met.left (first : st.Before st₁)
    (second : st₁.Before st₂) (met : Met K st st₁ v) : Met K st st₂ v := by
  rcases met with known | new | ⟨event, member, read⟩
  · exact .inl known
  · exact .inr (.inl new)
  · exact .inr (.inr ⟨event, news_trans first second ▸ List.mem_append_left _ member, read⟩)

theorem Met.trans {K' : TyVar → Prop} (further : st.next ≤ st₁.next) (first : st.Before st₁)
    (second : st₁.Before st₂) (known : ∀ v, K' v → Met K st st₁ v)
    (met : Met K' st₁ st₂ v) : Met K st st₂ v := by
  rcases met with met | new | ⟨event, member, read⟩
  · exact (known v met).left first second
  · exact .inr (.inl (Nat.le_trans further new))
  · exact .inr (.inr ⟨event, news_trans first second ▸ List.mem_append_right _ member, read⟩)

theorem Reach.scope (reach : Reach K st s st₁) : Scope (Fits K st st₁) st₁ :=
  ⟨reach.consistent, fun _ fits => fits.1⟩

theorem Met.mono {K' : TyVar → Prop} (fewer : ∀ v, K' v → K v) (met : Met K' st st₁ v) : Met K st st₁ v :=
  met.imp_left (fewer v)

theorem Fits.mono {K' : TyVar → Prop} (fewer : ∀ v, K' v → K v) (fits : Fits K' st st₁ v) : Fits K st st₁ v :=
  ⟨fits.1, fits.2.mono fewer⟩

/-! ### Elementary steps in turn -/

theorem Step.next (step : Step K st st₁) : st.next ≤ st₁.next := by
  cases step with
  | supply more => exact more
  | read _ => exact Nat.le_succ _
  | note _ | solve _ _ _ | reread _ => exact Nat.le_refl _

theorem Step.before (step : Step K st st₁) : st.Before st₁ := by
  cases step with
  | supply _ => exact before_self st
  | note _ | solve _ _ _ | reread _ | read _ => exact before_append rfl

theorem Step.mono {K' : TyVar → Prop} (fewer : ∀ v, K' v → K v) (step : Step K' st st₁) : Step K st st₁ := by
  cases step with
  | supply more => exact .supply more
  | note unread => exact .note unread
  | solve left right solution => exact .solve (left.imp fewer) (right.imp fewer) solution
  | reread known => exact .reread known
  | read unknown => exact .read unknown

theorem Path.next (path : Path K st st₁) : st.next ≤ st₁.next := by
  induction path with
  | refl => exact Nat.le_refl _
  | tail _ _ step ih => exact Nat.le_trans ih step.next

theorem Path.before (path : Path K st st₁) : st.Before st₁ := by
  induction path with
  | refl => exact before_self st
  | tail _ _ step ih => exact ih.trans step.before

theorem Path.mono {K' : TyVar → Prop} (fewer : ∀ v, K' v → K v) (path : Path K' st st₁) : Path K st st₁ := by
  induction path with
  | refl => exact .refl
  | tail _ consistent step ih => exact ih.tail consistent (step.mono fun _ => Fits.mono fewer)

theorem Path.trans (path : Path K st st₁) (further : Path (Fits K st st₁) st₁ st₂) : Path K st st₂ := by
  induction further with
  | refl => exact path
  | tail further consistent step ih =>
    refine ih.tail consistent (step.mono fun v fits => ⟨fits.1, ?_⟩)
    exact fits.2.trans path.next path.before further.before fun _ fits => fits.2

/-- A step from a consistent state, in which all that is known is live, is a path. -/
theorem Step.path (consistent : st.Consistent) (live : ∀ v, K v → st.Live v) (step : Step K st st₁) : Path K st st₁ :=
  .tail .refl consistent (step.mono fun v known => ⟨live v known, .inl known⟩)

/-! ### Steps of inference -/

theorem Reach.mono {K' : TyVar → Prop} (fewer : ∀ v, K' v → K v) (reach : Reach K' st s st₁) : Reach K st s st₁ :=
  { reach with
    keys := fun k key => (reach.keys k key).mono fewer
    values := fun k t found => (reach.values k t found).imp fun _ => Fits.mono fewer
    path := reach.path.mono fewer }

theorem Reach.refl (consistent : st.Consistent) : Reach K st ∅ st where
  next := Nat.le_refl _
  measures := rfl
  journal := before_self _
  solved := (Subst.empty_after _).symm
  news := by rw [news_self, solvedBy]
  consistent := consistent
  keys k member := absurd member Std.ExtTreeMap.not_mem_empty
  values k t found := by simp at found
  path := .refl

/-- A variable that is not replaced stays where it was. -/
theorem Reach.keep (reach : Reach K st s st₁) (live : st.Live v) (known : K v) (other : v ∉ s) :
    Fits K st st₁ v := by
  refine ⟨⟨Nat.lt_of_lt_of_le live.1 reach.next, ?_⟩, .inl known⟩
  rw [reach.solved, Subst.mem_after, not_or]
  exact ⟨live.2, other⟩

theorem Reach.value (reach : Reach K st s st₁) (live : ∀ v, K v → st.Live v) (known : K v) :
    (s.value v).In (Fits K st st₁) := by
  by_cases key : v ∈ s
  · apply reach.values v
    simp [Subst.value, Std.ExtTreeMap.getElem?_eq_some_getElem key]
  · rw [Subst.value_of_notMem key, Ty.in_var]
    exact reach.keep (live v known) known key

/-- What was known before is known after `s` is applied. -/
theorem Reach.apply (reach : Reach K st s st₁) (live : ∀ v, K v → st.Live v) (inside : t.In K) :
    (s.apply t).In (Fits K st st₁) := by
  intro w found
  rw [Subst.apply_eq_bind] at found
  obtain ⟨v, member, stands⟩ := Ty.mem_freeVars_bind.mp found
  exact reach.value live (inside v member) w stands

theorem Reach.inUnder {Γ : Env} (reach : Reach K st r st₁) (live : ∀ v, K v → st.Live v) (inside : Γ.InUnder K s) :
    Γ.InUnder (Fits K st st₁) (r.after s) := by
  intro v free
  rw [Subst.value_after, ← Subst.apply_eq_bind]
  exact reach.apply live (inside v free)

theorem Reach.subst {Γ : Env} (reach : Reach K st s st₁) (live : ∀ v, K v → st.Live v) (inside : Γ.In K) :
    (Γ.subst s).In (Fits K st st₁) :=
  Env.InUnder.subst fun _ free => reach.value live (inside _ free)

/-- All that `s` replaces is solved. -/
def Solves (st : State) (s : Subst) : Prop :=
  ∀ k ∈ s, k ∈ st.solved

theorem solves_empty (st : State) : st.Solves ∅ :=
  fun _ key => absurd key Std.ExtTreeMap.not_mem_empty

theorem Reach.solves (reach : Reach K st s st₁) : st₁.Solves s := by
  intro k key
  rw [reach.solved, Subst.mem_after]
  exact .inr key

theorem Solves.after (solves : st.Solves s) (reach : Reach K st r st₁) : st₁.Solves (r.after s) := by
  intro k key
  rw [reach.solved, Subst.mem_after]
  exact (Subst.mem_after.mp key).imp_left (solves k)

/-- No solved variable is left in a type that fits, so it is not changed any more. -/
theorem Solves.apply_eq_self (solves : st₁.Solves s) (inside : t.In (Fits K st st₁)) : s.apply t = t :=
  Subst.apply_eq_self fun v member key => (inside v member).1.2 (solves v key)

theorem Solves.subst_after {Γ : Env} (solves : st₁.Solves s) (inside : Γ.In (Fits K st st₁)) (r : Subst) :
    Γ.subst (r.after s) = Γ.subst r := by
  apply Env.subst_congr
  intro v free
  rw [Subst.value_after, Subst.value_of_notMem fun key => (inside v free).1.2 (solves v key), Ty.bind]

theorem Solves.applyNamed_eq_self {named : List (String × Ty)} (solves : st₁.Solves s)
    (inside : NamedIn (Fits K st st₁) named) : s.applyNamed named = named := by
  rw [Subst.applyNamed, List.map_congr_left (g := id) fun entry member => ?_, List.map_id]
  show (entry.1, s.apply entry.2) = entry
  rw [solves.apply_eq_self (inside entry member)]

theorem Reach.apply_eq_self {K' : TyVar → Prop} (reach : Reach K st s st₁) (inside : t.In (Fits K' st₂ st₁)) :
    s.apply t = t :=
  reach.solves.apply_eq_self inside

theorem Reach.met (reach : Reach K st s st₁) (further : Reach (Fits K st st₁) st₁ r st₂)
    (met : Met (Fits K st st₁) st₁ st₂ v) : Met K st st₂ v :=
  met.trans reach.next reach.journal further.journal fun _ fits => fits.2

theorem Reach.fits (reach : Reach K st s st₁) (further : Reach (Fits K st st₁) st₁ r st₂)
    (fits : Fits (Fits K st st₁) st₁ st₂ v) : Fits K st st₂ v :=
  ⟨fits.1, reach.met further fits.2⟩

/-- Steps compose, the second one from what is known after the first. -/
theorem Reach.trans (reach : Reach K st s st₁) (further : Reach (Fits K st st₁) st₁ r st₂) :
    Reach K st (r.after s) st₂ where
  next := Nat.le_trans reach.next further.next
  measures := further.measures.trans reach.measures
  journal := reach.journal.trans further.journal
  solved := by rw [further.solved, reach.solved, Subst.after_assoc]
  news := by rw [news_trans reach.journal further.journal, solvedBy_append, reach.news, further.news]
  consistent := further.consistent
  keys k member := by
    rcases Subst.mem_after.mp member with key | key
    · exact (reach.keys k key).left reach.journal further.journal
    · exact reach.met further (further.keys k key)
  values k t found := by
    rw [Subst.getElem?_after] at found
    cases first : s[k]? with
    | none =>
      rw [first] at found
      exact (further.values k t found).imp fun v => reach.fits further
    | some u =>
      rw [first] at found
      cases found
      exact (further.apply (fun v fits => fits.1) (reach.values k u first)).imp fun v => reach.fits further
  path := reach.path.trans further.path

/-- What was known between two steps is known after the second one. -/
theorem Reach.carry (reach : Reach K st s st₁) (further : Reach (Fits K st st₁) st₁ r st₂)
    (inside : t.In (Fits K st st₁)) : (r.apply t).In (Fits K st st₂) :=
  (further.apply (fun _ fits => fits.1) inside).imp fun _ => reach.fits further

/-- What the second of two steps finds is known after both. -/
theorem Reach.gain (reach : Reach K st s st₁) (further : Reach (Fits K st st₁) st₁ r st₂)
    (inside : t.In (Fits (Fits K st st₁) st₁ st₂)) : t.In (Fits K st st₂) :=
  inside.imp fun _ => reach.fits further

theorem Reach.carryNamed {named : List (String × Ty)} (reach : Reach K st s st₁)
    (further : Reach (Fits K st st₁) st₁ r st₂) (inside : NamedIn (Fits K st st₁) named) :
    NamedIn (Fits K st st₂) (r.applyNamed named) := by
  intro entry member
  obtain ⟨before, found, rfl⟩ := List.mem_map.mp member
  exact reach.carry further (inside before found)

theorem Reach.empty_trans (reach : Reach K st ∅ st₁) (further : Reach (Fits K st st₁) st₁ r st₂) :
    Reach K st r st₂ :=
  Subst.after_empty r ▸ reach.trans further

theorem Reach.trans_empty (reach : Reach K st s st₁) (further : Reach (Fits K st st₁) st₁ ∅ st₂) :
    Reach K st s st₂ :=
  Subst.empty_after s ▸ reach.trans further

theorem Reach.carry_empty (reach : Reach K st s st₁) (further : Reach (Fits K st st₁) st₁ ∅ st₂)
    (inside : t.In (Fits K st st₁)) : t.In (Fits K st st₂) :=
  Subst.apply_empty t ▸ reach.carry further inside

theorem Reach.keep_empty (reach : Reach K st ∅ st₁) (live : ∀ v, K v → st.Live v) (inside : t.In K) :
    t.In (Fits K st st₁) :=
  Subst.apply_empty t ▸ reach.apply live inside

end

end State

namespace Infer
open State

/-! ### Elementary steps -/

theorem bind_ok {α β : Type} {m : Infer α} {f : α → Infer β} {st st' : State} {b : β} :
    (m >>= f) st = .ok b st' ↔ ∃ a st₁, m st = .ok a st₁ ∧ f a st₁ = .ok b st' := by
  show EStateM.bind m f st = _ ↔ _
  unfold EStateM.bind
  cases m st with
  | ok a st₁ =>
    constructor
    · intro run
      exact ⟨a, st₁, rfl, run⟩
    · rintro ⟨_, _, same, run⟩
      cases same
      exact run
  | error e st₁ => simp

theorem bind_error {α β : Type} {m : Infer α} {f : α → Infer β} {st st' : State} {e : Failure} :
    (m >>= f) st = .error e st' ↔ m st = .error e st' ∨ ∃ a st₁, m st = .ok a st₁ ∧ f a st₁ = .error e st' := by
  show EStateM.bind m f st = _ ↔ _
  unfold EStateM.bind
  cases m st with
  | ok a st₁ =>
    constructor
    · intro run
      exact .inr ⟨a, st₁, rfl, run⟩
    · rintro (run | ⟨_, _, same, run⟩)
      · cases run
      · cases same
        exact run
  | error e st₁ => simp

theorem get_bind {α : Type} {f : State → Infer α} {st : State} : (get >>= f) st = f st st :=
  rfl

theorem pure_ok {α : Type} {a b : α} {st st' : State} : (pure a : Infer α) st = .ok b st' ↔ a = b ∧ st = st' := by
  show EStateM.pure a st = _ ↔ _
  simp [EStateM.pure]

theorem fail_ne_ok {α : Type} {span : Span} {cause : TypeError.Cause} {a : α} {st st' : State} :
    (fail span cause : Infer α) st ≠ .ok a st' :=
  nofun

theorem record_ok {events : List Event} {st st' : State} :
    record events st = .ok () st' ↔ st' = { st with journal := st.journal ++ events } := by
  constructor
  · intro run
    cases run
    rfl
  · rintro rfl
    rfl

theorem freshVar_run (st : State) : freshVar st =
    if st.next + 1 < varLimit then .ok st.next { st with next := st.next + 1 } else .error .outOfVariables st := by
  show (if st.next + 1 < varLimit then _ else _ : Infer TyVar) st = _
  split <;> rfl

theorem fresh_run (st : State) : fresh st =
    if st.next + 1 < varLimit then .ok (.var st.next) { st with next := st.next + 1 }
    else .error .outOfVariables st := by
  show EStateM.bind freshVar (fun v => pure (Ty.var v)) st = _
  rw [EStateM.bind, freshVar_run]
  by_cases enough : st.next + 1 < varLimit
  · rw [if_pos enough, if_pos enough]
    rfl
  · rw [if_neg enough, if_neg enough]

theorem freshVar_ok {v : TyVar} {st st' : State} (run : freshVar st = .ok v st') :
    v = st.next ∧ st' = { st with next := st.next + 1 } := by
  rw [freshVar_run] at run
  split at run
  · cases run
    exact ⟨rfl, rfl⟩
  · cases run

theorem fresh_ok {t : Ty} {st st' : State} (run : fresh st = .ok t st') :
    t = .var st.next ∧ st' = { st with next := st.next + 1 } := by
  obtain ⟨v, st₁, run, done⟩ := bind_ok.mp run
  obtain ⟨rfl, rfl⟩ := freshVar_ok run
  obtain ⟨rfl, rfl⟩ := pure_ok.mp done
  exact ⟨rfl, rfl⟩

theorem equate_run (span : Span) (a b : Ty) (note : Option String) (st : State) :
    equate span a b note st =
      let st' := { st with journal := st.journal ++ [Event.equated a b] }
      match unify a b with
      | .ok s => .ok s { st' with solved := s.after st.solved }
      | .error e =>
        .error (.illTyped (match note with
          | some note => (TypeError.ofUnify span e).withNote note
          | none => TypeError.ofUnify span e)) st' := by
  unfold equate
  cases unify a b <;> rfl

theorem equate_ok {span : Span} {a b : Ty} {note : Option String} {s : Subst} {st st' : State}
    (run : equate span a b note st = .ok s st') :
    unify a b = .ok s ∧
      st' = { st with journal := st.journal ++ [Event.equated a b], solved := s.after st.solved } := by
  rw [equate_run] at run
  cases solution : unify a b with
  | ok r =>
    rw [solution] at run
    cases run
    exact ⟨rfl, rfl⟩
  | error e =>
    rw [solution] at run
    cases run

section
variable {K : TyVar → Prop} {st st' : State}

/-- Giving out variables solves nothing. -/
theorem reach_next {n : Nat} (consistent : st.Consistent) (more : st.next ≤ n) :
    Reach K st ∅ { st with next := n } where
  next := more
  measures := rfl
  journal := before_self _
  solved := (Subst.empty_after _).symm
  news := congrArg solvedBy (news_self st)
  consistent :=
    { keys := fun k key => Nat.lt_of_lt_of_le (consistent.keys k key) more
      values := fun k t found => (consistent.values k t found).imp fun _ live =>
        ⟨Nat.lt_of_lt_of_le live.1 more, live.2⟩
      named := fun name v found => Nat.lt_of_lt_of_le (consistent.named name v found) more }
  keys k key := absurd key Std.ExtTreeMap.not_mem_empty
  values k t found := by simp at found
  path := .tail .refl consistent (.supply more)

theorem fresh_reach {t : Ty} (consistent : st.Consistent) (run : fresh st = .ok t st') :
    Reach K st ∅ st' ∧ t.In (Fits K st st') := by
  obtain ⟨rfl, rfl⟩ := fresh_ok run
  refine ⟨reach_next consistent (Nat.le_succ _), Ty.in_var.mpr ⟨⟨Nat.lt_succ_self _, ?_⟩, .inr (.inl (Nat.le_refl _))⟩⟩
  intro key
  exact Nat.lt_irrefl _ (consistent.keys _ key)

theorem record_reach {events : List Event} (consistent : st.Consistent) (idle : ∀ event ∈ events, event.solution = ∅)
    (unread : ∀ (name : String) (t : Ty), .resolved name t ∉ events) (run : record events st = .ok () st') :
    Reach K st ∅ st' := by
  cases record_ok.mp run
  exact {
    next := Nat.le_refl _
    measures := rfl
    journal := before_append rfl
    solved := (Subst.empty_after _).symm
    news := by rw [news_append rfl, solvedBy_eq_empty idle]
    consistent := ⟨consistent.keys, consistent.values, consistent.named⟩
    keys := fun k key => absurd key Std.ExtTreeMap.not_mem_empty
    values := fun k t found => by simp at found
    path := .tail .refl consistent (.note unread) }

/-- An equation of known types solves known variables by types of others. -/
theorem equate_reach {span : Span} {a b : Ty} {note : Option String} {s : Subst} (consistent : st.Consistent)
    (live : ∀ v, K v → st.Live v) (left : a.In K) (right : b.In K) (run : equate span a b note st = .ok s st') :
    Reach K st s st' := by
  obtain ⟨solution, rfl⟩ := equate_ok run
  have known {k : TyVar} {t : Ty} (found : s[k]? = some t) : K k ∧ t.In K := by
    obtain ⟨key, value⟩ := unify_inside solution found
    exact ⟨key.elim (left k) (right k), fun v member => (value v member).elim (left v) (right v)⟩
  have kept {v : TyVar} (before : st.Live v) (other : v ∉ s) : v < st.next ∧ v ∉ s.after st.solved :=
    ⟨before.1, by rw [Subst.mem_after, not_or]; exact ⟨before.2, other⟩⟩
  have apart {k : TyVar} {t : Ty} (found : s[k]? = some t) : t.In fun v => v < st.next ∧ v ∉ s.after st.solved :=
    fun v member => kept (live v ((known found).2 v member)) ((unify_solution solution).apart k t found v member)
  exact {
    next := Nat.le_refl _
    measures := rfl
    journal := before_append rfl
    solved := rfl
    news := by
      rw [news_append rfl, solvedBy, solvedBy, Subst.empty_after, Event.solution, solution]
      rfl
    consistent :=
      { keys := by
          intro k key
          rcases Subst.mem_after.mp key with key | key
          · exact consistent.keys k key
          · exact (live k (known (Std.ExtTreeMap.getElem?_eq_some_getElem key)).1).1
        values := by
          intro k t found
          rw [Subst.getElem?_after] at found
          cases before : st.solved[k]? with
          | none =>
            rw [before] at found
            exact apart found
          | some u =>
            rw [before] at found
            cases found
            intro w stands
            rw [Subst.apply_eq_bind] at stands
            obtain ⟨v, member, stands⟩ := Ty.mem_freeVars_bind.mp stands
            by_cases key : v ∈ s
            · refine apart (k := v) ?_ w stands
              simp [Subst.value, Std.ExtTreeMap.getElem?_eq_some_getElem key]
            · rw [Subst.value_of_notMem key, Ty.mem_freeVars_var] at stands
              subst stands
              exact kept (consistent.values k u before w member) key
        named := consistent.named }
    keys := fun k key => .inl (known (Std.ExtTreeMap.getElem?_eq_some_getElem key)).1
    values := fun k t found v member => ⟨apart found v member, .inl ((known found).2 v member)⟩
    path := Step.path consistent live (.solve left right solution) }

end

end Infer

end LetPoly
