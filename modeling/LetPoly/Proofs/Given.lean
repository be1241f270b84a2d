import Mathlib.Order.Basic
import LetPoly.Proofs.FreeNames
import LetPoly.Proofs.Freshness
import LetPoly.Proofs.Matching

/-!
What runs without named annotation variables leave behind, in any state. They do not look at the item so far
(`Stepwise.blind`), so what soundness says of runs from the start of an item holds of them too: only
variables that are free in the environment or new occur in what is inferred, and no variable that is
replaced is left (`inferExpr_given`, `groupTypes_given`). Bounds on variables follow (`Subst.Below`,
`Scheme.Below`).
-/
namespace LetPoly

/-! ### Bounds -/

/-- The variables in the types that stand for variables are below `n`. -/
def Subst.Below (n : Nat) (s : Subst) : Prop :=
  ∀ (k : TyVar) (t : Ty), s[k]? = some t → t.In (· < n)

/-- The variables that a scheme mentions are below `n`. -/
structure Scheme.Below (n : Nat) (σ : Scheme) : Prop where
  ty : σ.ty.In (· < n)
  vars : ∀ v ∈ σ.vars, v < n

section
variable {n m : Nat} {s r : Subst} {t : Ty} {σ : Scheme} {Γ : Env} {named : List (String × Ty)}

theorem Ty.In.later (inside : t.In (· < n)) (more : n ≤ m) : t.In (· < m) :=
  inside.imp fun _ below => Nat.lt_of_lt_of_le below more

theorem NamedIn.later (inside : NamedIn (· < n) named) (more : n ≤ m) : NamedIn (· < m) named :=
  inside.imp fun _ below => Nat.lt_of_lt_of_le below more

namespace Subst

theorem below_empty : (∅ : Subst).Below n := fun k t found => by simp at found

theorem Below.later (below : s.Below n) (more : n ≤ m) : s.Below m :=
  fun k t found => (below k t found).later more

theorem Below.value (below : s.Below n) {v : TyVar} (known : v < n) : (s.value v).In (· < n) := by
  cases found : s[v]? with
  | some t => simpa [Subst.value, found] using below v t found
  | none => simpa [Subst.value, found] using known

theorem Below.apply (below : s.Below n) (inside : t.In (· < n)) : (s.apply t).In (· < n) := by
  intro w stands
  rw [apply_eq_bind] at stands
  obtain ⟨v, member, stands⟩ := Ty.mem_freeVars_bind.mp stands
  exact below.value (inside v member) w stands

theorem Below.after (outer : s.Below n) (inner : r.Below n) : (s.after r).Below n := by
  intro k u found
  rw [getElem?_after, Option.or_eq_some_iff, Option.map_eq_some_iff] at found
  rcases found with ⟨t, found, rfl⟩ | ⟨_, found⟩
  · exact outer.apply (inner k t found)
  · exact outer k u found

end Subst

theorem below_of_unify {a b : Ty} (first : a.In (· < n)) (second : b.In (· < n)) (h : unify a b = .ok s) : s.Below n :=
  fun _ _ found v member => ((unify_inside h found).2 v member).elim (first v) (second v)

namespace Scheme

theorem below_mono (inside : t.In (· < n)) : (mono t).Below n :=
  ⟨inside, by simp [mono]⟩

theorem Below.subst (below : σ.Below n) (values : s.Below n) : (σ.subst s).Below n where
  ty w stands := by
    obtain ⟨v, member, stands⟩ := Ty.mem_freeVars_bind.mp stands
    split at stands
    · rw [Ty.mem_freeVars_var] at stands
      exact stands ▸ below.ty v member
    · exact values.value (below.ty v member) w stands
  vars := below.vars

end Scheme

namespace Env

theorem below_iff : Γ.Below n ↔ ∀ (name : String) (σ : Scheme), Γ[name]? = some σ → σ.Below n := by
  constructor
  · intro below name σ look
    exact ⟨fun v member => below v (mem_mentioned.mpr ⟨name, σ, look, .inl member⟩),
      fun v member => below v (mem_mentioned.mpr ⟨name, σ, look, .inr member⟩)⟩
  · intro below v mentioned
    obtain ⟨name, σ, look, member⟩ := mem_mentioned.mp mentioned
    exact member.elim ((below name σ look).ty v) ((below name σ look).vars v)

theorem below_generalize (inside : t.In (· < n)) : (Γ.generalize t).Below n :=
  ⟨inside, fun v member => inside v (mem_vars_generalize.mp member).1⟩

theorem Below.later (below : Γ.Below n) (more : n ≤ m) : Γ.Below m :=
  fun v mentioned => Nat.lt_of_lt_of_le (below v mentioned) more

theorem Below.subst (below : Γ.Below n) (values : s.Below n) : (Γ.subst s).Below n := by
  rw [below_iff] at below ⊢
  intro name τ look
  rw [getElem?_subst, Option.map_eq_some_iff] at look
  obtain ⟨σ, look, rfl⟩ := look
  exact (below name σ look).subst values

theorem Below.extend {entries : List (String × Scheme)} (below : Γ.Below n)
    (added : ∀ entry ∈ entries, entry.2.Below n) :
    (Γ.extend entries).Below n := by
  rw [below_iff] at below ⊢
  intro name σ look
  rcases getElem?_extend look with look | member
  · exact below name σ look
  · exact added _ member

theorem Below.extendMono (below : Γ.Below n) (added : NamedIn (· < n) named) : (Γ.extendMono named).Below n := by
  refine below.extend fun entry member => ?_
  obtain ⟨entry, found, rfl⟩ := List.mem_map.mp member
  exact Scheme.below_mono (added entry found)

end Env

end

namespace Infer
open State

/-! ### Runs in any state -/

/-- No annotation among them has a named variable. -/
abbrev Unnamed (written : List Written) : Prop :=
  VarNamesIn (fun _ => False) written

section
variable {α : Type} {Γ : Env} {st st' : State} {s : Subst} {t : Ty} {named : List (String × Ty)}

/-- What has no look at the item so far can be taken to run at its start. -/
theorem Blind.run {m : Infer α} {a : α} (blind : Blind m) (run : m st = .ok a st') :
    ∃ st₁, m st.restarted = .ok a st₁ ∧ st₁.next = st'.next := by
  have same := blind st
  rw [run] at same
  cases start : m st.restarted <;> rw [start] at same
  case ok b st₁ =>
    simp only [forgetItem, EStateM.Result.ok.injEq] at same
    obtain ⟨rfl, same⟩ := same
    exact ⟨st₁, rfl, (congrArg State.next same).symm⟩
  case error => cases same

theorem SolvedForm.below {n n' : Nat} (below : Γ.Below n) (form : SolvedForm Γ n n' s t) :
    s.Below n' ∧ t.In (· < n') := by
  have given (v : TyVar) (given : Given Γ n n' v) : v < n' := by
    rcases given with free | ⟨_, known⟩
    · exact Nat.lt_of_lt_of_le (below v (Env.mem_mentioned_of_free free)) form.supply
    · exact known
  exact ⟨fun k u found => (form.values k u found).imp given, form.type.imp given⟩

theorem fresh_below (run : fresh st = .ok t st') : st.next ≤ st'.next ∧ t.In (· < st'.next) := by
  obtain ⟨rfl, _, rfl⟩ := fresh_ok run
  exact ⟨Nat.le_succ _, Ty.in_var.mpr (Nat.lt_succ_self _)⟩

theorem equate_below {span : Span} {a b : Ty} {note : Option String} (first : a.In (· < st.next))
    (second : b.In (· < st.next)) (run : equate span a b note st = .ok s st') :
    st.next ≤ st'.next ∧ s.Below st'.next := by
  obtain ⟨solution, rfl⟩ := equate_ok run
  exact ⟨Nat.le_refl _, below_of_unify first second solution⟩

/-! ### Patterns -/

theorem inferPattern_below {p : Pattern} (inside : t.In (· < st.next)) (unnamed : Unnamed p.written)
    (run : inferPattern t p st = .ok (s, named) st') :
    st.next ≤ st'.next ∧ s.Below st'.next ∧ NamedIn (· < st'.next) named := by
  obtain ⟨st₁, run, next⟩ := (stepwise_inferPattern t p unnamed).blind.run run
  obtain ⟨_, reach, known, _⟩ := inferPattern_sound (scope_restarted (K := (· < st.next)) fun _ => id) inside run
  rw [← next]
  exact ⟨reach.next, fun k u found => (reach.values k u found).imp fun _ fits => fits.1.1,
    known.imp fun _ fits => fits.1.1⟩

theorem inferPlaceholders_below {ps : List Pattern} {s' : Subst} {placeholders : List Ty} (below : s.Below st.next)
    (unnamed : Unnamed (Pattern.writtenList ps))
    (run : inferPlaceholders s ps st = .ok (s', placeholders, named) st') :
    st.next ≤ st'.next ∧ s'.Below st'.next ∧ (∀ t ∈ placeholders, t.In (· < st'.next)) ∧
      NamedIn (· < st'.next) named := by
  induction ps generalizing s s' placeholders named st with
  | nil =>
    cases run
    exact ⟨Nat.le_refl _, below, by simp, namedIn_nil _⟩
  | cons p ps ih =>
    obtain ⟨first, rest⟩ := varNamesIn_append.mp unnamed
    obtain ⟨t, st₁, run₁, run⟩ := bind_ok.mp run
    obtain ⟨⟨s₁, names⟩, st₂, run₂, run⟩ := bind_ok.mp run
    obtain ⟨⟨s₂, ts, others⟩, st₃, run₃, done⟩ := bind_ok.mp run
    cases done
    obtain ⟨more₁, inside⟩ := fresh_below run₁
    obtain ⟨more₂, below₁, known⟩ := inferPattern_below inside first run₂
    obtain ⟨more₃, below₂, later, rest⟩ := ih (below₁.after (below.later (more₁.trans more₂))) rest run₃
    refine ⟨(more₁.trans more₂).trans more₃, below₂, ?_, namedIn_append.mpr ⟨known.later more₃, rest⟩⟩
    exact List.forall_mem_cons.mpr ⟨inside.later (more₂.trans more₃), later⟩

/-! ### Expressions and groups -/

theorem inferExpr_given {e : Expr} (below : Γ.Below st.next) (unnamed : Unnamed e.written)
    (run : inferExpr Γ e st = .ok (s, t) st') : SolvedForm Γ st.next st'.next s t := by
  obtain ⟨st₁, run, next⟩ := (stepwise_inferExpr Γ e unnamed).blind.run run
  have scope : Scope (· ∈ Γ.freeVars) st.restarted := scope_of_below below rfl rfl
  obtain ⟨reach, known, _⟩ := inferExpr_sound scope (fun _ free => free) e run
  have form := solvedForm_of_reach reach rfl rfl known
  exact next ▸ form

theorem inferExpr_below {e : Expr} (below : Γ.Below st.next) (unnamed : Unnamed e.written)
    (run : inferExpr Γ e st = .ok (s, t) st') : st.next ≤ st'.next ∧ s.Below st'.next ∧ t.In (· < st'.next) := by
  have form := inferExpr_given below unnamed run
  exact ⟨form.supply, form.below below⟩

theorem inferGuard_below {guard : Option Expr} (below : Γ.Below st.next) (unnamed : Unnamed (Expr.writtenOption guard))
    (run : inferGuard Γ guard st = .ok s st') : st.next ≤ st'.next ∧ s.Below st'.next := by
  cases guard with
  | none =>
    cases run
    exact ⟨Nat.le_refl _, Subst.below_empty⟩
  | some e =>
    obtain ⟨⟨s₁, t⟩, st₁, run₁, run⟩ := bind_ok.mp run
    obtain ⟨s₂, st₂, run₂, done⟩ := bind_ok.mp run
    cases done
    obtain ⟨more, below₁, inside⟩ := inferExpr_below below unnamed run₁
    obtain ⟨more₂, below₂⟩ := equate_below (Ty.in_prim .bool) inside run₂
    exact ⟨more.trans more₂, below₂.after (below₁.later more₂)⟩

theorem stepwise_groupTypes (Γ : Env) (recursive : Bool) {bindings : List (Binding Expr)} {N : String → Prop}
    (names : VarNamesIn N (Expr.writtenBindings bindings)) : Stepwise N (groupTypes Γ recursive bindings) := by
  refine (stepwise_checkDistinct _).bind fun _ => ?_
  cases recursive with
  | false => exact stepwise_inferPlain Γ ∅ bindings names
  | true =>
    exact (stepwise_inferPlaceholders _ _ (varNamesIn_patterns names)).bind fun _ =>
      (stepwise_inferValues _ _ _ bindings names).bind fun _ => stepwise_pure _

/-- The types of the names of a group, once what is solved is applied, speak of given variables only. -/
theorem groupTypes_given {recursive : Bool} {bindings : List (Binding Expr)} (below : Γ.Below st.next)
    (unnamed : Unnamed (Expr.writtenBindings bindings))
    (run : groupTypes Γ recursive bindings st = .ok (s, named) st') :
    SolvedForm Γ st.next st'.next s .unit ∧ ∀ entry ∈ s.applyNamed named, SolvedForm Γ st.next st'.next s entry.2 := by
  obtain ⟨st₁, run, next⟩ := (stepwise_groupTypes Γ recursive unnamed).blind.run run
  have scope : Scope (· ∈ Γ.freeVars) st.restarted := scope_of_below below rfl rfl
  have inside : Γ.In (· ∈ Γ.freeVars) := fun _ free => free
  obtain ⟨reach, known⟩ : Reach (· ∈ Γ.freeVars) st.restarted s st₁ ∧
      NamedIn (Fits (· ∈ Γ.freeVars) st.restarted st₁) (s.applyNamed named) := by
    obtain ⟨_, st₂, check, run⟩ := bind_ok.mp run
    obtain ⟨rfl, _⟩ := checkDistinct_ok.mp check
    cases recursive with
    | false =>
      have sound := plain_sound (inferPlain_sound scope (solves_empty _) (Env.inUnder_empty.mpr inside) bindings run)
      exact ⟨sound.1, sound.2.1⟩
    | true =>
      obtain ⟨⟨r, placeholders, names⟩, st₃, run₁, run⟩ := bind_ok.mp run
      obtain ⟨q, st₄, run₂, done⟩ := bind_ok.mp run
      cases done
      have places : PlacesSound bindings fun Γ s placeholders => inferValues Γ s placeholders bindings :=
        fun scope solves inside known length => inferValues_sound scope solves inside known bindings length
      have sound := recursive_sound scope inside places run₁ run₂
      exact ⟨sound.1, sound.2.1⟩
  have none := solvedForm_of_reach reach rfl rfl (Ty.in_prim .unit)
  have form (entry) (member) := solvedForm_of_reach reach rfl rfl (known entry member)
  exact next ▸ ⟨none, form⟩

end

end Infer

end LetPoly
