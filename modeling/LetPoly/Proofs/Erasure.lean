import LetPoly.Proofs.Principality
import LetPoly.Syntax.Erase

/-!
What annotations do to inference. By the rules they only restrict: a derivation stays one when the
annotations are dropped (`HasType.erase`), so by completeness the program without them is inferred,
with schemes that are at least as general. Inference itself follows the rules, whatever the named
variables of annotations are read as, if no scheme captures a variable (`runInfer_erase`). A scheme can
capture one: a named variable that is read again after an inner `let` has quantified it may be put for
a free variable of the quantified scheme, and then a name gets a type that it does not have without
the annotations (`captureItems_not_general`).
-/
namespace LetPoly

namespace Pattern

theorem eraseList_eq_map (ps : List Pattern) : eraseList ps = ps.map erase := by
  induction ps with
  | nil => rfl
  | cons p ps ih => rw [eraseList, ih, List.map_cons]

mutual

theorem idents_erase : (p : Pattern) → p.erase.idents = p.idents
  | .wild _ | .ident _ | .const _ _ | .none _ => rfl
  | .tuple elements span | .list elements span => identsList_eraseList elements
  | .cons head tail span => by rw [erase, idents, idents_erase head, idents_erase tail, idents]
  | .some inner span => by rw [erase, idents, idents_erase inner, idents]
  | .typed inner ascribed span => by rw [erase, idents_erase inner, idents]

theorem identsList_eraseList : (ps : List Pattern) → identsList (eraseList ps) = identsList ps
  | [] => rfl
  | p :: ps => by rw [eraseList, identsList, idents_erase p, identsList_eraseList ps, identsList]

end

theorem names_erase (p : Pattern) : p.erase.names = p.names := by
  rw [names, idents_erase, names]

end Pattern

namespace Expr

theorem eraseList_eq_map (es : List Expr) : eraseList es = es.map erase := by
  induction es with
  | nil => rfl
  | cons e es ih => rw [eraseList, ih, List.map_cons]

theorem groupNames_eraseBindings (bindings : List (Binding Expr)) :
    groupNames (eraseBindings bindings) = groupNames bindings := by
  induction bindings with
  | nil => rfl
  | cons binding bindings ih =>
    show binding.pattern.erase.names ++ groupNames (eraseBindings bindings) =
      binding.pattern.names ++ groupNames bindings
    rw [binding.pattern.names_erase, ih]

end Expr

namespace Typing

section
variable {M : Measures} {A : Reading}

mutual

/-- A pattern accepts without its annotations what it accepts with them. -/
theorem Accepts.erase (A' : Reading) {p : Pattern} {t : Ty} {named : List (String × Ty)} :
    Accepts M A p t named → Accepts M A' p.erase t named
  | .wild span t => .wild span t
  | .ident id t => .ident id t
  | .const span typed => .const span typed
  | .tuple span elements => .tuple span (elements.erase A')
  | .list span elements => by
    have accepts := elements.erase A'
    refine .list span ?_
    rwa [Pattern.eraseList_eq_map, List.map_map] at *
  | .cons span head tail => .cons span (head.erase A') (tail.erase A')
  | .some span inner => .some span (inner.erase A')
  | .none span t => .none span t
  | .typed span _ inner => inner.erase A'

theorem AcceptsAll.erase (A' : Reading) {ps : List Pattern} {ts : List Ty} {named : List (String × Ty)} :
    AcceptsAll M A ps ts named → AcceptsAll M A' (Pattern.eraseList ps) ts named
  | .nil => .nil
  | .cons first rest => .cons (first.erase A') (rest.erase A')

end

mutual

/-- An expression has the same types without its annotations. -/
theorem HasType.erase (A' : Reading) {Γ : Env} {e : Expr} {t : Ty} :
    HasType M A Γ e t → HasType M A' Γ e.erase t
  | .const span typed => .const span typed
  | .ident look inst => .ident look inst
  | .lambda span distinct accepts body =>
    .lambda span ((Pattern.names_erase _).symm ▸ distinct) (accepts.erase A') (body.erase A')
  | .apply span func arg => .apply span (func.erase A') (arg.erase A')
  | .letIn span distinct values body =>
    .letIn span ((Expr.groupNames_eraseBindings _).symm ▸ distinct) (values.erase A') (body.erase A')
  | .ifThenElse span condition yes no => .ifThenElse span (condition.erase A') (yes.erase A') (no.erase A')
  | .ifThen span condition yes => .ifThen span (condition.erase A') (yes.erase A')
  | .matchWith span scrutinee rules => .matchWith span (scrutinee.erase A') (rules.erase A')
  | .function span rules => .function span (rules.erase A')
  | .tuple span elements => .tuple span (elements.erase A')
  | .list span elements => by
    have typed := elements.erase A'
    refine .list span ?_
    rwa [Expr.eraseList_eq_map, List.map_map] at *
  | .cons span head tail => .cons span (head.erase A') (tail.erase A')
  | .some span value => .some span (value.erase A')
  | .none span t => .none span t
  | .typed span _ value => value.erase A'

theorem HaveTypes.erase (A' : Reading) {Γ : Env} {es : List Expr} {ts : List Ty} :
    HaveTypes M A Γ es ts → HaveTypes M A' Γ (Expr.eraseList es) ts
  | .nil => .nil
  | .cons first rest => .cons (first.erase A') (rest.erase A')

theorem ValuesTyped.erase (A' : Reading) {Γ : Env} {bindings : List (Binding Expr)} {named : List (String × Ty)} :
    ValuesTyped M A Γ bindings named → ValuesTyped M A' Γ (Expr.eraseBindings bindings) named
  | .nil => .nil
  | .cons value accepts rest => .cons (value.erase A') (accepts.erase A') (rest.erase A')

theorem RulesTyped.erase (A' : Reading) {Γ : Env} {rules : List (Rule Expr)} {a b : Ty} :
    RulesTyped M A Γ rules a b → RulesTyped M A' Γ (Expr.eraseRules rules) a b
  | .nil => .nil
  | .cons distinct accepts guard body rest =>
    .cons ((Pattern.names_erase _).symm ▸ distinct) (accepts.erase A') (guard.erase A') (body.erase A') (rest.erase A')

theorem GuardTyped.erase (A' : Reading) {Γ : Env} {guard : Option Expr} :
    GuardTyped M A Γ guard → GuardTyped M A' Γ (Expr.eraseOption guard)
  | .missing => .missing
  | .bool typed => .bool (typed.erase A')

end

end

/-- An item has the same typings without its annotations. -/
theorem ItemTyped.erase {R : Measures → Reading} (R' : Measures → Reading) {M M' : Measures} {Γ Γ' : Env} {item : Item}
    (typed : ItemTyped R M Γ item M' Γ') : ItemTyped R' M Γ item.erase M' Γ' := by
  cases typed with
  | expr typed => exact .expr (typed.erase (R' M))
  | letGroup distinct values =>
    exact .letGroup ((Expr.groupNames_eraseBindings _).symm ▸ distinct) (values.erase (R' M))
  | measure span declared => exact .measure span declared

/-- A program has the same typings without its annotations. -/
theorem ItemsTyped.erase {R : Measures → Reading} (R' : Measures → Reading) {M : Measures} {Γ Γ' : Env}
    {items : List Item} (typed : ItemsTyped R M Γ items Γ') : ItemsTyped R' M Γ (items.map Item.erase) Γ' := by
  induction typed with
  | nil => exact .nil
  | cons first _ ih => exact .cons (first.erase R') ih

end Typing

open Infer Typing

/-- What happens in a run of a program, until its end or the first error. -/
def runJournal (Γ : Env) (items : List Item) : List Event :=
  match (inferFrom Γ items).run {} with
  | .ok _ st | .error _ st => st.journal.toList

/-- A run in which no scheme captures a variable gives schemes that follow the rules, whatever
    annotations are taken to allow. -/
theorem itemsTyped_of_uncaptured {Γ Γ' : Env} {items : List Item} (closed : Γ.Closed) (run : runInfer Γ items = .ok Γ')
    (uncaptured : Uncaptured (runJournal Γ items)) : ItemsTyped (fun _ _ _ => True) ∅ Γ items Γ' := by
  obtain ⟨enough, st, run⟩ := runInfer_ok.mp run
  obtain ⟨before, typed⟩ := inferItems_sound closed run
  have journal : runJournal Γ items = (startState Γ items).journal.toList ++ (startState Γ items).news st := by
    have same : runJournal Γ items = st.journal.toList := by
      show (match inferFrom Γ items {} with | .ok _ st | .error _ st => st.journal.toList) = _
      rw [inferFrom_run, if_pos enough, run]
    obtain ⟨later, split⟩ := before
    rw [same, State.news_of_split split, split]
  rw [journal] at uncaptured
  refine typed (State.before_self st) ⟨fun _ _ _ _ _ => trivial, fun _ _ _ _ => trivial, .inl ⟨uncaptured.right, ?_⟩⟩
  exact fun name σ look => Scheme.keptBy_of_closed (closed name σ look) _

/-- A program is inferred without its annotations if it is inferred with them and no scheme captures a
    variable, unless the numbers for variables run out, and its schemes are at least as general then. -/
theorem runInfer_erase (Γ : Env) (items : List Item) (closed : Γ.Closed) (Γ' : Env) (run : runInfer Γ items = .ok Γ')
    (uncaptured : Uncaptured (runJournal Γ items))
    (enough : ¬ Exhausts Γ (items.map Item.erase)) :
    ∃ Δ, runInfer Γ (items.map Item.erase) = .ok Δ ∧ Δ.Related Scheme.Generalizes Γ' :=
  runInfer_complete closed ((itemsTyped_of_uncaptured closed run uncaptured).erase Means) enough

/-- The program `let f = fun x -> let h = fun (y : 'a) -> y in (h 1, (x : 'a))`, which reads `'a` again
    after `h` is quantified over it. -/
def rereadItems : List Item :=
  let h : Expr := .lambda (.typed (.ident ⟨"y", {}⟩) (.var "a" {}) {}) (.ident ⟨"y", {}⟩) {}
  let use : Expr := .apply (.ident ⟨"h", {}⟩) (.const (.number (.int 1)) {}) {}
  let body : Expr := .tuple [use, .typed (.ident ⟨"x", {}⟩) (.var "a" {}) {}] {}
  [.letGroup false [⟨.ident ⟨"f", {}⟩, .lambda (.ident ⟨"x", {}⟩) (.letIn false [⟨.ident ⟨"h", {}⟩, h⟩] body {}) {}⟩]]

theorem rereadItems_uncaptured : Uncaptured (runJournal ∅ rereadItems) := by
  have journal : runJournal ∅ rereadItems =
      [.began 1, .resolved "a" (.var 2), .equated (.var 1) (.var 2),
        .generalized "h" ⟨[2], .func (.var 2) (.var 2)⟩,
        .equated (.func (.var 3) (.var 3)) (.func .int (.var 4)), .resolved "a" (.var 2), .equated (.var 2) (.var 0),
        .generalized "f" ⟨[0], .func (.var 0) (.tuple .int (.var 0) [])⟩] := by cbv
  have closed {σ : Scheme} (none : σ.freeVars = ∅) : σ.Closed := by simp [Scheme.Closed, none]
  rw [journal]
  exact ⟨Scheme.keptBy_of_closed (closed (by cbv)) _, Scheme.keptBy_of_closed (closed (by cbv)) _, trivial⟩

theorem rereadItems_erase :
    ∃ Γ Δ, runInfer ∅ rereadItems = .ok Γ ∧ runInfer ∅ (rereadItems.map Item.erase) = .ok Δ ∧
      Δ.Related Scheme.Generalizes Γ := by
  have run : runInfer ∅ rereadItems =
      .ok ((∅ : Env).insert "f" ⟨[0], .func (.var 0) (.tuple .int (.var 0) [])⟩) := by cbv
  have erased : runInfer ∅ (rereadItems.map Item.erase) =
      .ok ((∅ : Env).insert "f" ⟨[0], .func (.var 0) (.tuple .int (.var 0) [])⟩) := by cbv
  obtain ⟨Δ, again, general⟩ := runInfer_erase ∅ rereadItems Env.closed_empty _ run rereadItems_uncaptured
    (not_exhausts_of_ok erased)
  exact ⟨_, Δ, run, again, general⟩

/-- The program `let f = fun x -> let h = fun y -> ((y : 'a), x) in match x with (z : 'a) -> (h 1, h true)`:
    the type of `x` becomes `'a` when `h` is quantified over `'a` already. -/
def captureItems : List Item :=
  let h : Expr := .lambda (.ident ⟨"y", {}⟩)
    (.tuple [.typed (.ident ⟨"y", {}⟩) (.var "a" {}) {}, .ident ⟨"x", {}⟩] {}) {}
  let use (arg : Literal) : Expr := .apply (.ident ⟨"h", {}⟩) (.const arg {}) {}
  let rule : Rule Expr :=
    ⟨.typed (.ident ⟨"z", {}⟩) (.var "a" {}) {}, none, .tuple [use (.number (.int 1)), use (.bool true)] {}⟩
  let body : Expr := .matchWith (.ident ⟨"x", {}⟩) [rule] {}
  [.letGroup false [⟨.ident ⟨"f", {}⟩, .lambda (.ident ⟨"x", {}⟩) (.letIn false [⟨.ident ⟨"h", {}⟩, h⟩] body {}) {}⟩]]

/-- With a capture, annotations let a name have a type that it does not have without them. -/
theorem captureItems_not_general :
    ∃ Γ Δ, runInfer ∅ captureItems = .ok Γ ∧ runInfer ∅ (captureItems.map Item.erase) = .ok Δ ∧
      ¬ Δ.Related Scheme.Generalizes Γ := by
  have run : runInfer ∅ captureItems =
      .ok ((∅ : Env).insert "f" ⟨[1], .func (.var 1) (.tuple (.tuple .int .int []) (.tuple .bool .bool []) [])⟩) := by cbv
  have again : runInfer ∅ (captureItems.map Item.erase) =
      .ok ((∅ : Env).insert "f"
        ⟨[0], .func (.var 0) (.tuple (.tuple .int (.var 0) []) (.tuple .bool (.var 0) []) [])⟩) := by cbv
  refine ⟨_, _, run, again, fun general => ?_⟩
  obtain ⟨σ, found, here⟩ := general.right Std.ExtTreeMap.getElem?_insert_self
  rw [Std.ExtTreeMap.getElem?_insert_self] at found
  cases found
  obtain ⟨g, _, same⟩ := here _ ⟨.var, fun _ _ => rfl, Ty.bind_var _⟩
  simp only [Ty.bind, Ty.bindList, Ty.func.injEq, Ty.tuple.injEq] at same
  have both : Ty.var 1 = .int := same.1.symm.trans same.2.1.2.1
  cases both

end LetPoly
