import LetPoly.Proofs.Freshness
import LetPoly.Proofs.ProgramSoundness

/-!
What is solved is recorded twice: in the substitutions that are returned and composed from part to
part, and in the state, which named annotation variables are read under. The two agree. A step of
inference extends both by one and the same substitution (`Tracks`), and such steps are closed under the
ways in which inference composes substitutions, so this follows the program text. In the state, all
readings of a named variable stand for what is known of the variable behind it (`Agrees`), which one
elementary step keeps (`Step.agrees`) and so does a run (`Path.agrees`).
-/
namespace LetPoly

namespace Infer
open State

section
variable {α β : Type} {of : α → Subst} {out : β → Subst} {s : Subst}

/-- A step that solves nothing. -/
def Idle (m : Infer α) : Prop :=
  ∀ (st : State) (a : α) (st' : State), m st = .ok a st' → st'.solved = st.solved

/-- A step that is given the substitution `s` and returns one, `of a`: what it puts after `s` is also
    put after what is solved. -/
def Tracks (of : α → Subst) (s : Subst) (m : Infer α) : Prop :=
  ∀ (st : State) (a : α) (st' : State), m st = .ok a st' →
    ∃ r : Subst, of a = r.after s ∧ st'.solved = r.after st.solved

theorem idle_pure (a : α) : Idle (pure a : Infer α) := by
  intro st b st' run
  obtain ⟨_, rfl⟩ := pure_ok.mp run
  rfl

theorem Idle.bind {m : Infer α} {f : α → Infer β} (first : Idle m) (next : ∀ a, Idle (f a)) : Idle (m >>= f) := by
  intro st b st' run
  obtain ⟨a, st₁, run₁, run₂⟩ := bind_ok.mp run
  rw [next a st₁ b st' run₂, first st a st₁ run₁]

theorem tracks_pure (a : α) (same : of a = s) : Tracks of s (pure a : Infer α) := by
  intro st b st' run
  obtain ⟨rfl, rfl⟩ := pure_ok.mp run
  exact ⟨∅, by rw [Subst.empty_after, same], (Subst.empty_after _).symm⟩

/-- After a step that solves nothing. -/
theorem Idle.before {m : Infer α} {f : α → Infer β} (first : Idle m) (next : ∀ a, Tracks out s (f a)) :
    Tracks out s (m >>= f) := by
  intro st b st' run
  obtain ⟨a, st₁, run₁, run₂⟩ := bind_ok.mp run
  rw [← first st a st₁ run₁]
  exact next a st₁ b st' run₂

/-- The first step goes on from `s`, and the second from what the first returns. -/
theorem Tracks.bind {m : Infer α} {f : α → Infer β} (first : Tracks of s m) (next : ∀ a, Tracks out (of a) (f a)) :
    Tracks out s (m >>= f) := by
  intro st b st' run
  obtain ⟨a, st₁, run₁, run₂⟩ := bind_ok.mp run
  obtain ⟨r, same, solved⟩ := first st a st₁ run₁
  obtain ⟨q, same', solved'⟩ := next a st₁ b st' run₂
  exact ⟨q.after r, by rw [same', same, Subst.after_assoc], by rw [solved', solved, Subst.after_assoc]⟩

/-- A step that starts anew goes on from `s` if what it returns is put after that. -/
theorem Tracks.onto {m : Infer α} (anew : Tracks of ∅ m) (s : Subst) : Tracks (fun a => (of a).after s) s m := by
  intro st a st' run
  obtain ⟨r, same, solved⟩ := anew st a st' run
  rw [Subst.after_empty] at same
  exact ⟨r, congrArg (·.after s) same, solved⟩

/-- The first step starts anew, and what it returns is put after `s`. -/
theorem Tracks.compose {m : Infer α} {f : α → Infer β} (first : Tracks of ∅ m)
    (next : ∀ a, Tracks out ((of a).after s) (f a)) : Tracks out s (m >>= f) :=
  (first.onto s).bind next

/-- What a step that starts anew returns is what it solves. -/
theorem Tracks.solved {m : Infer α} {a : α} {st st' : State} (tracks : Tracks of ∅ m) (run : m st = .ok a st') :
    st'.solved = (of a).after st.solved := by
  obtain ⟨r, same, solved⟩ := tracks st a st' run
  rw [solved, same, Subst.after_empty]

end

/-! ### Steps that solve nothing -/

/-- Elementary steps without equations solve nothing. -/
theorem Elementary.idle {α : Type} {m : Infer α} (elementary : Elementary (fun _ => True) False m) : Idle m := by
  induction elementary with
  | pure a => exact idle_pure a
  | fail _ => exact fun _ _ _ run => absurd run fail_ne_ok
  | record _ =>
    intro st _ st' run
    rw [record_ok.mp run]
  | freshVar =>
    intro st v st' run
    rw [(freshVar_ok run).2]
  | measure span name place =>
    intro st t st' run
    rw [measure_run] at run
    split at run <;> cases run
    rfl
  | read _ =>
    intro st t st' run
    rcases resolveVar_ok run with ⟨v, known, same, rfl⟩ | ⟨unknown, same, rfl⟩ <;> rfl
  | equate _ _ _ _ none => exact none.elim
  | bind _ _ first next => exact first.bind next

theorem idle_fresh : Idle fresh :=
  elementary_fresh.idle

theorem idle_checkDistinct (ids : List Ident) : Idle (checkDistinct ids) := by
  intro st _ st' run
  rw [(checkDistinct_ok.mp run).1]

/-! ### Patterns -/

theorem tracks_equate (span : Span) (a b : Ty) (note : Option String) : Tracks id ∅ (equate span a b note) := by
  intro st s st' run
  obtain ⟨_, rfl⟩ := equate_ok run
  exact ⟨s, (Subst.after_empty s).symm, rfl⟩

mutual

theorem tracks_matchPattern (t : Ty) : (p : Pattern) → Tracks Prod.fst ∅ (matchPattern t p)
  | .wild _ => tracks_pure _ rfl
  | .ident _ => tracks_pure _ rfl
  | .const value span =>
    (elementary_literalType span value).idle.before fun _ => (tracks_equate _ _ _ _).bind fun _ => tracks_pure _ rfl
  | .tuple elements span =>
    (elementary_checkArity _ _ _).idle.before fun _ => (elementary_freshList _).idle.before fun vars =>
      (elementary_tupleShape span vars).idle.before fun _ => (tracks_equate _ _ _ _).bind fun s =>
      tracks_matchPatterns s vars elements
  | .list elements _ =>
    idle_fresh.before fun _ => (tracks_equate _ _ _ _).bind fun s => tracks_matchPatterns s _ elements
  | .cons head tail _ =>
    idle_fresh.before fun _ => (tracks_equate _ _ _ _).bind fun _ => (tracks_matchPattern _ head).compose
      fun _ => (tracks_matchPattern _ tail).compose fun _ => tracks_pure _ rfl
  | .some inner _ =>
    idle_fresh.before fun _ => (tracks_equate _ _ _ _).bind fun _ => (tracks_matchPattern _ inner).compose
      fun _ => tracks_pure _ rfl
  | .none _ => idle_fresh.before fun _ => (tracks_equate _ _ _ _).bind fun _ => tracks_pure _ rfl
  | .typed inner ascribed _ =>
    (elementary_resolve ascribed fun _ _ => trivial).idle.before fun _ => (tracks_equate _ _ _ _).bind fun _ =>
      (tracks_matchPattern _ inner).compose fun _ => tracks_pure _ rfl

theorem tracks_matchPatterns (s : Subst) (ts : List Ty) :
    (ps : List Pattern) → Tracks Prod.fst s (matchPatterns s ts ps)
  | [] => by
    cases ts <;> exact tracks_pure _ rfl
  | p :: ps => by
    cases ts with
    | nil => exact tracks_pure _ rfl
    | cons t ts =>
      exact (tracks_matchPattern _ p).compose fun _ => (tracks_matchPatterns _ ts ps).bind fun _ => tracks_pure _ rfl

end

theorem tracks_inferPattern (t : Ty) (p : Pattern) : Tracks Prod.fst ∅ (inferPattern t p) :=
  (idle_checkDistinct _).before fun _ => tracks_matchPattern t p

/-! ### Expressions -/

theorem tracks_inferPlaceholders (s : Subst) (ps : List Pattern) : Tracks Prod.fst s (inferPlaceholders s ps) := by
  induction ps generalizing s with
  | nil => exact tracks_pure _ rfl
  | cons p ps ih =>
    exact idle_fresh.before fun t => (tracks_inferPattern t p).compose fun _ => (ih _).bind fun _ => tracks_pure _ rfl

theorem tracks_groupOf (Γ : Env) (recursive : Bool) (bindings : List (Binding Expr))
    {plain : Infer (Subst × List (String × Ty))} {values : Env → Subst → List Ty → Infer Subst}
    (plainTracks : Tracks Prod.fst ∅ plain) (valuesTrack : ∀ Γ s placeholders, Tracks id s (values Γ s placeholders)) :
    Tracks Prod.fst ∅ (groupOf Γ recursive bindings plain values) := by
  refine (idle_checkDistinct _).before fun _ => ?_
  cases recursive with
  | false =>
    exact plainTracks.bind fun _ => (elementary_generalizeAll _ _).idle.before fun _ => tracks_pure _ rfl
  | true =>
    exact (tracks_inferPlaceholders _ _).bind fun _ => (valuesTrack _ _ _).bind fun _ =>
      (elementary_generalizeAll _ _).idle.before fun _ => tracks_pure _ rfl

mutual

/-- What is solved for an expression is what is returned for it. -/
theorem tracks_inferExpr (Γ : Env) : (e : Expr) → Tracks Prod.fst ∅ (inferExpr Γ e)
  | .const value span => (elementary_literalType span value).idle.before fun _ => tracks_pure _ rfl
  | .ident id => by
    rw [inferExpr.eq_def]
    simp only
    split
    · exact (elementary_instantiate _).idle.before fun _ => tracks_pure _ rfl
    · exact fun _ _ _ run => absurd run fail_ne_ok
  | .lambda param body _ =>
    idle_fresh.before fun t => (tracks_inferPattern t param).bind fun _ =>
      (tracks_inferExpr _ body).compose fun _ => tracks_pure _ rfl
  | .apply func arg _ =>
    (tracks_inferExpr Γ func).bind fun _ => (tracks_inferExpr _ arg).compose fun _ =>
      idle_fresh.before fun _ => (tracks_equate _ _ _ _).compose fun _ => tracks_pure _ (Subst.after_assoc _ _ _)
  | .letIn recursive bindings body _ =>
    (tracks_groupOf Γ recursive bindings (tracks_inferPlain Γ ∅ bindings)
      fun Γ s placeholders => tracks_inferValues Γ s placeholders bindings).bind fun _ =>
      (tracks_inferExpr _ body).compose fun _ => tracks_pure _ rfl
  | .ifThenElse condition yes no _ =>
    (tracks_inferExpr Γ condition).bind fun _ => (tracks_equate _ _ _ _).compose fun _ =>
      (tracks_inferExpr _ yes).compose fun _ => (tracks_inferElse _ no).compose fun _ =>
      (tracks_equate _ _ _ _).compose fun _ => tracks_pure _ rfl
  | .matchWith scrutinee rules _ =>
    (tracks_inferExpr Γ scrutinee).bind fun _ => idle_fresh.before fun _ =>
      (tracks_inferRules Γ _ _ _ rules).bind fun _ => tracks_pure _ rfl
  | .function rules _ =>
    idle_fresh.before fun _ => idle_fresh.before fun _ => (tracks_inferRules Γ _ _ _ rules).bind fun _ =>
      tracks_pure _ rfl
  | .tuple elements span =>
    (tracks_inferSequence Γ ∅ elements).bind fun _ => (elementary_tupleType span _).idle.before fun _ => tracks_pure _ rfl
  | .list elements _ =>
    idle_fresh.before fun _ => (tracks_inferElements Γ _ ∅ elements).bind fun _ => tracks_pure _ rfl
  | .cons head tail _ =>
    (tracks_inferExpr Γ head).bind fun _ => (tracks_inferExpr _ tail).compose fun _ =>
      (tracks_equate _ _ _ _).compose fun _ => tracks_pure _ (Subst.after_assoc _ _ _)
  | .some value _ => (tracks_inferExpr Γ value).bind fun _ => tracks_pure _ rfl
  | .none _ => idle_fresh.before fun _ => tracks_pure _ rfl
  | .typed value ascribed _ =>
    (tracks_inferExpr Γ value).bind fun _ => (elementary_resolve ascribed fun _ _ => trivial).idle.before fun _ =>
      (tracks_equate _ _ _ _).compose fun _ => tracks_pure _ rfl

theorem tracks_inferElse (Γ : Env) : (no : Option Expr) → Tracks Prod.fst ∅ (inferElse Γ no)
  | some e => tracks_inferExpr Γ e
  | none => tracks_pure _ rfl

theorem tracks_inferGuard (Γ : Env) : (guard : Option Expr) → Tracks id ∅ (inferGuard Γ guard)
  | some e => (tracks_inferExpr Γ e).bind fun _ => (tracks_equate _ _ _ _).compose fun _ => tracks_pure _ rfl
  | none => tracks_pure _ rfl

theorem tracks_inferRules (Γ : Env) (input result : Ty) (s : Subst) :
    (rules : List (Rule Expr)) → Tracks id s (inferRules Γ input result s rules)
  | [] => tracks_pure _ rfl
  | ⟨pattern, guard, body⟩ :: rules =>
    (tracks_inferPattern _ pattern).compose fun _ => (tracks_inferGuard _ guard).compose fun _ =>
      (tracks_inferExpr _ body).compose fun _ => (tracks_equate _ _ _ _).compose fun _ =>
      tracks_inferRules Γ input result _ rules

theorem tracks_inferElements (Γ : Env) (elem : Ty) (s : Subst) :
    (es : List Expr) → Tracks id s (inferElements Γ elem s es)
  | [] => tracks_pure _ rfl
  | e :: es =>
    (tracks_inferExpr _ e).compose fun _ => (tracks_equate _ _ _ _).compose fun _ => tracks_inferElements Γ elem _ es

theorem tracks_inferSequence (Γ : Env) (s : Subst) : (es : List Expr) → Tracks Prod.fst s (inferSequence Γ s es)
  | [] => tracks_pure _ rfl
  | e :: es =>
    (tracks_inferExpr _ e).compose fun _ => (tracks_inferSequence Γ _ es).bind fun _ => tracks_pure _ rfl

theorem tracks_inferPlain (Γ : Env) (s : Subst) :
    (bindings : List (Binding Expr)) → Tracks Prod.fst s (inferPlain Γ s bindings)
  | [] => tracks_pure _ rfl
  | ⟨pattern, value⟩ :: bindings =>
    (tracks_inferExpr _ value).compose fun _ => (tracks_inferPattern _ pattern).compose fun _ =>
      (tracks_inferPlain Γ _ bindings).bind fun _ => tracks_pure _ rfl

theorem tracks_inferValues (Γ : Env) (s : Subst) (placeholders : List Ty) :
    (bindings : List (Binding Expr)) → Tracks id s (inferValues Γ s placeholders bindings)
  | [] => by
    cases placeholders <;> exact tracks_pure _ rfl
  | ⟨pattern, value⟩ :: bindings => by
    cases placeholders with
    | nil => exact tracks_pure _ rfl
    | cons placeholder placeholders =>
      exact (tracks_inferExpr _ value).compose fun _ => (tracks_equate _ _ _ _).compose fun _ =>
        tracks_inferValues Γ _ placeholders bindings

end

theorem tracks_inferGroup (Γ : Env) (recursive : Bool) (bindings : List (Binding Expr)) :
    Tracks Prod.fst ∅ (inferGroup Γ recursive bindings) :=
  tracks_groupOf Γ recursive bindings (tracks_inferPlain Γ ∅ bindings)
    fun Γ s placeholders => tracks_inferValues Γ s placeholders bindings

end Infer

/-! ### Readings of named variables -/

namespace State

/-- All readings of named variables since `base` agree: under what is solved, each is what is known of
    the variable behind the name. -/
def Agrees (base st : State) : Prop :=
  ∀ (name : String) (t : Ty), .resolved name t ∈ base.news st →
    ∃ v, st.named[name]? = some v ∧ st.solved.apply t = st.solved.value v

section
variable {K : TyVar → Prop} {base st st' : State}

theorem agrees_self (st : State) : st.Agrees st :=
  fun name t member => absurd member (silent_self st name t)

/-- An elementary step keeps the agreement of the readings before it, and its own reading agrees. -/
theorem Step.agrees (step : Step K st st') (before : base.Before st) (consistent : st.Consistent)
    (agrees : base.Agrees st) : base.Agrees st' := by
  intro name t member
  rw [news_trans before step.before, List.mem_append] at member
  cases step with
  | supply _ => exact member.elim (agrees name t) fun member => absurd member ((unread_same rfl).2 name t)
  | note silent => exact member.elim (agrees name t) fun member => absurd member ((unread_append rfl silent).2 name t)
  | @solve a b s left right solution =>
    rcases member with member | member
    · obtain ⟨v, found, same⟩ := agrees name t member
      refine ⟨v, found, ?_⟩
      rw [Subst.apply_after, same, Subst.value_after, Subst.apply_eq_bind]
    · rw [news_append rfl, List.mem_singleton] at member
      cases member
  | @reread name v found =>
    rcases member with member | member
    · exact agrees _ t member
    · rw [news_append rfl, List.mem_singleton] at member
      cases member
      exact ⟨v, found, consistent.apply_value v⟩
  | @read other unknown =>
    rcases member with member | member
    · obtain ⟨v, found, same⟩ := agrees name t member
      refine ⟨v, ?_, same⟩
      have differ : other ≠ name := by
        rintro rfl
        rw [unknown] at found
        cases found
      rw [Std.ExtTreeMap.getElem?_insert, if_neg (by simpa using differ), found]
    · rw [news_append rfl, List.mem_singleton] at member
      cases member
      exact ⟨st.next, Std.ExtTreeMap.getElem?_insert_self, Subst.apply_eq_bind _ _⟩

/-- Along a run all readings of named variables agree. -/
theorem Path.agrees (path : Path K st st') : st.Agrees st' := by
  induction path with
  | refl => exact agrees_self st
  | tail path consistent step ih => exact step.agrees path.before consistent ih

end

end State

namespace Infer
open State

theorem resolve_var_journal {name : String} {span : Span} {t : Ty} {st st' : State}
    (run : resolve (.var name span) st = .ok t st') : st'.journal = st.journal ++ [Event.resolved name t] := by
  rcases resolveVar_ok run with ⟨v, known, same, rfl⟩ | ⟨unknown, same, rfl⟩ <;> rfl

/-- All readings of named variables in an item agree. -/
theorem inferItem_agrees {Γ Γ' : Env} {item : Item} {st st' : State} (below : Γ.Below st.next)
    (run : inferItem Γ item st = .ok Γ' st') : st.Before st' ∧ st.Agrees st' := by
  obtain ⟨_, st₁, start, run⟩ := bind_ok.mp run
  cases start
  have scope : Scope (· ∈ Γ.freeVars) { st with named := ∅, solved := ∅ } := scope_of_below below rfl rfl
  have inside : Γ.In (· ∈ Γ.freeVars) := fun _ free => free
  cases item with
  | expr value =>
    obtain ⟨⟨s, t⟩, st₂, run₁, run⟩ := bind_ok.mp run
    obtain ⟨_, st₃, run₂, done⟩ := bind_ok.mp run
    cases done
    obtain ⟨reach₁, _, _⟩ := inferExpr_sound scope inside value run₁
    have reach := reach₁.trans_empty (record_reach reach₁.consistent (by simp [Event.solution]) (by simp) run₂)
    exact ⟨reach.journal, reach.path.agrees⟩
  | letGroup recursive bindings =>
    obtain ⟨⟨s, Δ⟩, st₂, run₁, done⟩ := bind_ok.mp run
    cases done
    obtain ⟨_, _, _, reach, _⟩ := inferGroup_sound scope inside run₁
    exact ⟨reach.journal, reach.path.agrees⟩
  | measure name definition span =>
    obtain ⟨_, st₂, run₁, run⟩ := bind_ok.mp run
    obtain ⟨_, st₃, run₂, run⟩ := bind_ok.mp run
    obtain ⟨rfl, _⟩ := checkDefinition_ok.mp run₁
    cases record_ok.mp run₂
    cases run
    refine ⟨before_append rfl, fun name t member => ?_⟩
    rw [news_append rfl, List.mem_singleton] at member
    cases member

end Infer

open Infer

/-- What is solved is what is returned, for expressions, patterns and groups in every state. Every
    occurrence of a named variable is recorded as it is read, and the readings in an item are the same
    type under what is solved in it. -/
theorem solved_agrees :
    (∀ (Γ : Env) (e : Expr) (st st' : State) (s : Subst) (t : Ty),
      inferExpr Γ e st = .ok (s, t) st' → st'.solved = s.after st.solved) ∧
    (∀ (t : Ty) (p : Pattern) (st st' : State) (s : Subst) (named : List (String × Ty)),
      inferPattern t p st = .ok (s, named) st' → st'.solved = s.after st.solved) ∧
    (∀ (Γ : Env) (recursive : Bool) (bindings : List (Binding Expr)) (st st' : State) (s : Subst) (Γ' : Env),
      inferGroup Γ recursive bindings st = .ok (s, Γ') st' → st'.solved = s.after st.solved) ∧
    (∀ (name : String) (span : Span) (st st' : State) (t : Ty),
      resolve (.var name span) st = .ok t st' → st'.journal = st.journal ++ [Event.resolved name t]) ∧
    (∀ (Γ : Env) (item : Item) (st st' : State) (Γ' : Env), Γ.Below st.next → inferItem Γ item st = .ok Γ' st' →
      st.Before st' ∧ ∀ (name : String) (t u : Ty), .resolved name t ∈ st.news st' →
        .resolved name u ∈ st.news st' → st'.solved.apply t = st'.solved.apply u) := by
  refine ⟨fun Γ e _ _ _ _ run => (tracks_inferExpr Γ e).solved run,
    fun t p _ _ _ _ run => (tracks_inferPattern t p).solved run,
    fun Γ recursive bindings _ _ _ _ run => (tracks_inferGroup Γ recursive bindings).solved run,
    fun _ _ _ _ _ run => resolve_var_journal run, fun Γ item st st' Γ' below run => ?_⟩
  obtain ⟨before, agrees⟩ := inferItem_agrees below run
  refine ⟨before, fun name t u first second => ?_⟩
  obtain ⟨v, found, same⟩ := agrees name t first
  obtain ⟨w, found', same'⟩ := agrees name u second
  rw [found] at found'
  cases found'
  rw [same, same']

/-- In `fun y -> [(x : 'a); (y : 'a)]` the two readings of `'a` are different variables, and one type in
    the end. -/
theorem sharedExpr_agrees : ∃ st', inferItem sharedEnv (.expr sharedExpr) { next := 1 } =
    .ok (sharedEnv.subst sharedSolution) st' ∧ sharedEnv.Below 1 ∧ st'.solved.apply (.var 3) = st'.solved.apply (.var 0) := by
  have below : sharedEnv.Below 1 := by
    unfold Env.Below
    decide
  have run : inferItem sharedEnv (.expr sharedExpr) { next := 1 } =
      .ok (sharedEnv.subst sharedSolution)
        { next := 4, named := (∅ : Std.ExtTreeMap String TyVar compare).insert "a" 3, solved := sharedSolution,
          journal := #[.resolved "a" (.var 3), .equated (.var 3) (.var 0), .equated (.var 2) (.var 0),
            .resolved "a" (.var 0), .equated (.var 0) (.var 1), .equated (.var 1) (.var 1),
            .typed (.func (.var 1) (.list (.var 1)))] } := by
    cbv
  exact ⟨_, run, below, (solved_agrees.2.2.2.2 _ _ _ _ _ below run).2 "a" (.var 3) (.var 0) (by decide) (by decide)⟩

end LetPoly
