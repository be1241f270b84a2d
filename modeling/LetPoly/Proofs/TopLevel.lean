import Mathlib.Tactic.Tauto
import LetPoly.Proofs.ProgramSoundness

/-!
The environment at the end of a program. Matching gives a type to exactly the names of a pattern
(`matchPattern_names`), so a group adds exactly its names. In a closed environment an item leaves the
schemes of all other names as they are and quantifies its own over all their variables
(`inferItem_extends`), and so does a program (`inferItems_extends`, `runInfer_extends`).
-/
namespace LetPoly

/-- The scheme quantifies exactly the variables of its type, in ascending order. -/
structure Scheme.Full (σ : Scheme) : Prop where
  ascending : σ.vars.Pairwise (· < ·)
  exact : ∀ v, v ∈ σ.vars ↔ v ∈ σ.ty.freeVars

namespace Env
open Typing

/-- The closed environment `Γ'` has the names of `Γ` and the given ones. The given ones have schemes
    that quantify all their variables, all others those that they have in `Γ`. -/
structure Extends (Γ Γ' : Env) (added : List String) : Prop where
  closed : Γ'.Closed
  names : ∀ name, name ∈ Γ' ↔ name ∈ Γ ∨ name ∈ added
  bound : ∀ name ∈ added, ∃ σ : Scheme, Γ'[name]? = some σ ∧ σ.Full
  kept : ∀ name, name ∉ added → Γ'[name]? = Γ[name]?

section
variable {Γ Δ Γ' : Env} {named : List (String × Ty)}

theorem extends_self (closed : Γ.Closed) : Γ.Extends Γ [] :=
  ⟨closed, by simp, by simp, fun _ _ => rfl⟩

/-- Names that are added twice have the later schemes. -/
theorem Extends.trans {names others : List String} (first : Γ.Extends Δ names) (second : Δ.Extends Γ' others) :
    Γ.Extends Γ' (names ++ others) where
  closed := second.closed
  names name := by rw [second.names, first.names, List.mem_append, or_assoc]
  bound name member := by
    by_cases later : name ∈ others
    · exact second.bound name later
    · rw [second.kept name later]
      exact first.bound name ((List.mem_append.mp member).resolve_right later)
  kept name missing := by
    rw [List.mem_append, not_or] at missing
    rw [second.kept name missing.2, first.kept name missing.1]

theorem full_generalize (closed : Γ.Closed) (t : Ty) : (Γ.generalize t).Full where
  ascending := ascending_generalize Γ t
  exact v := by
    rw [mem_vars_generalize]
    exact and_iff_left (closed.not_mem_freeVars v)

theorem mem_extend {entries : List (String × Scheme)} {name : String} :
    name ∈ Γ.extend entries ↔ name ∈ Γ ∨ name ∈ entries.map Prod.fst := by
  induction entries generalizing Γ with
  | nil => simp [extend]
  | cons entry entries ih =>
    obtain ⟨first, σ⟩ := entry
    rw [extend_cons, ih, Std.ExtTreeMap.mem_insert, List.map_cons, List.mem_cons]
    simp only [Std.LawfulEqCmp.compare_eq_iff_eq, eq_comm (a := first)]
    tauto

theorem getElem?_extend_of_notMem {entries : List (String × Scheme)} {name : String}
    (missing : name ∉ entries.map Prod.fst) : (Γ.extend entries)[name]? = Γ[name]? := by
  induction entries generalizing Γ with
  | nil => rfl
  | cons entry entries ih =>
    obtain ⟨first, σ⟩ := entry
    rw [List.map_cons, List.mem_cons, not_or] at missing
    rw [extend_cons, ih missing.2, getElem?_insert_eq, if_neg (Ne.symm missing.1)]

/-- What is added to an environment is found there. -/
theorem exists_mem_of_extend {entries : List (String × Scheme)} {name : String}
    (member : name ∈ entries.map Prod.fst) : ∃ σ, (Γ.extend entries)[name]? = some σ ∧ (name, σ) ∈ entries := by
  induction entries generalizing Γ with
  | nil => simp at member
  | cons entry entries ih =>
    obtain ⟨first, σ⟩ := entry
    rw [extend_cons]
    by_cases later : name ∈ entries.map Prod.fst
    · obtain ⟨τ, look, found⟩ := ih later
      exact ⟨τ, look, List.mem_cons_of_mem _ found⟩
    · have same : name = first := (List.mem_cons.mp member).resolve_right later
      subst same
      refine ⟨σ, ?_, List.mem_cons_self⟩
      rw [getElem?_extend_of_notMem later, getElem?_insert_eq, if_pos rfl]

/-- A group extends a closed environment by its names. -/
theorem extends_bodyEnv (closed : Γ.Closed) (named : List (String × Ty)) :
    Γ.Extends (bodyEnv Γ named) (named.map Prod.fst) := by
  have names : (named.map fun entry => (entry.1, Γ.generalize entry.2)).map Prod.fst = named.map Prod.fst := by
    rw [List.map_map]
    rfl
  refine ⟨closed.bodyEnv named, fun name => ?_, fun name member => ?_, fun name missing => ?_⟩
  · exact names ▸ mem_extend
  · obtain ⟨σ, look, found⟩ := exists_mem_of_extend (Γ := Γ) (names.symm ▸ member)
    obtain ⟨entry, _, same⟩ := List.mem_map.mp found
    cases same
    exact ⟨_, look, full_generalize closed entry.2⟩
  · exact getElem?_extend_of_notMem (names.symm ▸ missing)

end

end Env

namespace Infer
open State Typing

/-! ### Names of patterns -/

theorem map_fst_applyNamed (s : Subst) (named : List (String × Ty)) :
    (s.applyNamed named).map Prod.fst = named.map Prod.fst := by
  rw [Subst.applyNamed, List.map_map]
  rfl

mutual

/-- Matching gives types to the names of a pattern, in their order. -/
theorem matchPattern_names {t : Ty} {s : Subst} {named : List (String × Ty)} {st st' : State} :
    (p : Pattern) → matchPattern t p st = .ok (s, named) st' → named.map Prod.fst = p.names
  | .wild _, run => by
    cases run
    rfl
  | .ident _, run => by
    cases run
    rfl
  | .const _ _, run => by
    obtain ⟨found, st₁, _, run⟩ := bind_ok.mp run
    obtain ⟨r, st₂, _, done⟩ := bind_ok.mp run
    cases done
    rfl
  | .tuple elements _, run => by
    obtain ⟨_, st₁, _, run⟩ := bind_ok.mp run
    obtain ⟨vars, st₂, run₁, run⟩ := bind_ok.mp run
    obtain ⟨shape, st₃, _, run⟩ := bind_ok.mp run
    obtain ⟨r, st₄, _, run₂⟩ := bind_ok.mp run
    exact matchPatterns_names elements (freshList_length run₁) run₂
  | .list elements _, run => by
    obtain ⟨elem, st₁, _, run⟩ := bind_ok.mp run
    obtain ⟨r, st₂, _, run₁⟩ := bind_ok.mp run
    exact matchPatterns_names elements (List.length_map _) run₁
  | .cons head tail _, run => by
    obtain ⟨elem, st₁, _, run⟩ := bind_ok.mp run
    obtain ⟨r, st₂, _, run⟩ := bind_ok.mp run
    obtain ⟨⟨q, heads⟩, st₃, run₁, run⟩ := bind_ok.mp run
    obtain ⟨⟨q', tails⟩, st₄, run₂, done⟩ := bind_ok.mp run
    cases done
    rw [map_fst_applyNamed, List.map_append, matchPattern_names head run₁, matchPattern_names tail run₂]
    exact List.map_append.symm
  | .some inner _, run => by
    obtain ⟨elem, st₁, _, run⟩ := bind_ok.mp run
    obtain ⟨r, st₂, _, run⟩ := bind_ok.mp run
    obtain ⟨⟨q, names⟩, st₃, run₁, done⟩ := bind_ok.mp run
    cases done
    rw [map_fst_applyNamed, matchPattern_names inner run₁]
    rfl
  | .none _, run => by
    obtain ⟨elem, st₁, _, run⟩ := bind_ok.mp run
    obtain ⟨r, st₂, _, done⟩ := bind_ok.mp run
    cases done
    rfl
  | .typed inner _ _, run => by
    obtain ⟨annotated, st₁, _, run⟩ := bind_ok.mp run
    obtain ⟨r, st₂, _, run⟩ := bind_ok.mp run
    obtain ⟨⟨q, names⟩, st₃, run₁, done⟩ := bind_ok.mp run
    cases done
    rw [map_fst_applyNamed, matchPattern_names inner run₁]
    rfl

theorem matchPatterns_names {s s' : Subst} {ts : List Ty} {named : List (String × Ty)} {st st' : State} :
    (ps : List Pattern) → ts.length = ps.length → matchPatterns s ts ps st = .ok (s', named) st' →
      named.map Prod.fst = (Pattern.identsList ps).map Ident.name
  | [], length, run => by
    cases ts with
    | nil =>
      cases run
      rfl
    | cons t ts => cases length
  | p :: ps, length, run => by
    cases ts with
    | nil => cases length
    | cons t ts =>
      obtain ⟨⟨q, names⟩, st₁, run₁, run⟩ := bind_ok.mp run
      obtain ⟨⟨q', others⟩, st₂, run₂, done⟩ := bind_ok.mp run
      cases done
      rw [List.map_append, map_fst_applyNamed, matchPattern_names p run₁,
        matchPatterns_names ps (Nat.succ.inj length) run₂, Pattern.identsList, List.map_append]
      rfl

end

theorem inferPattern_names {t : Ty} {p : Pattern} {s : Subst} {named : List (String × Ty)} {st st' : State}
    (run : inferPattern t p st = .ok (s, named) st') : named.map Prod.fst = p.names := by
  obtain ⟨_, st₁, _, run⟩ := bind_ok.mp run
  exact matchPattern_names p run

/-! ### Names of groups -/

theorem inferPlaceholders_names {ps : List Pattern} {s s' : Subst} {placeholders : List Ty}
    {named : List (String × Ty)} {st st' : State}
    (run : inferPlaceholders s ps st = .ok (s', placeholders, named) st') :
    named.map Prod.fst = ps.flatMap Pattern.names := by
  induction ps generalizing s s' placeholders named st with
  | nil =>
    cases run
    rfl
  | cons p ps ih =>
    obtain ⟨t, st₁, _, run⟩ := bind_ok.mp run
    obtain ⟨⟨q, names⟩, st₂, run₁, run⟩ := bind_ok.mp run
    obtain ⟨⟨q', ts, others⟩, st₃, run₂, done⟩ := bind_ok.mp run
    cases done
    rw [List.map_append, inferPattern_names run₁, ih run₂, List.flatMap_cons]

theorem inferPlaceholders_groupNames {bindings : List (Binding Expr)} {s s' : Subst} {placeholders : List Ty}
    {named : List (String × Ty)} {st st' : State}
    (run : inferPlaceholders s (bindings.map Binding.pattern) st = .ok (s', placeholders, named) st') :
    named.map Prod.fst = groupNames bindings := by
  rw [inferPlaceholders_names run, List.flatMap_map]
  rfl

theorem inferPlain_names {Γ : Env} {bindings : List (Binding Expr)} {s s' : Subst} {named : List (String × Ty)}
    {st st' : State} (run : inferPlain Γ s bindings st = .ok (s', named) st') :
    named.map Prod.fst = groupNames bindings := by
  induction bindings generalizing s s' named st with
  | nil =>
    cases run
    rfl
  | cons binding bindings ih =>
    obtain ⟨pattern, value⟩ := binding
    obtain ⟨⟨q, t⟩, st₁, _, run⟩ := bind_ok.mp run
    obtain ⟨⟨q', names⟩, st₂, run₁, run⟩ := bind_ok.mp run
    obtain ⟨⟨r, others⟩, st₃, run₂, done⟩ := bind_ok.mp run
    cases done
    rw [List.map_append, inferPattern_names run₁, ih run₂]
    rfl

section
variable {Γ Γ' : Env} {st st' : State}

/-- A group adds its names to the environment, and no others. -/
theorem inferGroup_names {recursive : Bool} {bindings : List (Binding Expr)} {s : Subst}
    (run : inferGroup Γ recursive bindings st = .ok (s, Γ') st') :
    ∃ named, Γ' = bodyEnv (Γ.subst s) named ∧ named.map Prod.fst = groupNames bindings := by
  obtain ⟨_, named, st₁, run₁, runs⟩ := groupOf_ok run
  refine ⟨s.applyNamed named, ?_, ?_⟩
  · obtain ⟨_, st₂, _, done⟩ := bind_ok.mp run₁
    exact (pure_ok.mp done).1.symm
  · rw [map_fst_applyNamed]
    rcases runs with ⟨_, run₂⟩ | ⟨_, r, placeholders, st₂, run₂, _⟩
    · exact inferPlain_names run₂
    · exact inferPlaceholders_groupNames run₂

/-- An item extends a closed environment by its names. -/
theorem inferItem_extends {item : Item} (closed : Γ.Closed) (run : inferItem Γ item st = .ok Γ' st') :
    Γ.Extends Γ' item.names := by
  obtain ⟨_, st₁, _, run⟩ := bind_ok.mp run
  cases item with
  | expr value =>
    obtain ⟨⟨s, t⟩, st₂, _, run⟩ := bind_ok.mp run
    obtain ⟨_, st₃, _, done⟩ := bind_ok.mp run
    cases done
    rw [closed.subst_eq_self]
    exact Env.extends_self closed
  | letGroup recursive bindings =>
    obtain ⟨⟨s, Δ⟩, st₂, run₁, done⟩ := bind_ok.mp run
    cases done
    obtain ⟨named, rfl, names⟩ := inferGroup_names run₁
    rw [closed.subst_eq_self, Item.names, ← names]
    exact Env.extends_bodyEnv closed named
  | measure name definition span =>
    obtain ⟨_, st₂, _, run⟩ := bind_ok.mp run
    obtain ⟨_, st₃, _, run⟩ := bind_ok.mp run
    obtain ⟨_, st₄, _, done⟩ := bind_ok.mp run
    cases done
    exact Env.extends_self closed

/-- Items extend a closed environment by all their names. -/
theorem inferItems_extends {items : List Item} (closed : Γ.Closed) (run : inferItems Γ items st = .ok Γ' st') :
    Γ.Extends Γ' (items.flatMap Item.names) := by
  induction items generalizing Γ st with
  | nil =>
    cases run
    exact Env.extends_self closed
  | cons item items ih =>
    obtain ⟨Δ, st₁, run₁, run₂⟩ := bind_ok.mp run
    have first := inferItem_extends closed run₁
    exact first.trans (ih first.closed run₂)

end

end Infer

open Infer

/-- A program extends a closed environment by the names of its `let` items: it has no other names, its
    schemes are closed, those of the items quantify exactly their variables, and the others are as
    before. -/
theorem runInfer_extends (Γ : Env) (items : List Item) (closed : Γ.Closed) (Γ' : Env)
    (run : runInfer Γ items = .ok Γ') : Γ.Extends Γ' (items.flatMap Item.names) := by
  obtain ⟨_, st', run⟩ := runInfer_ok.mp run
  exact inferItems_extends closed run

/-- The program `let (same, one) = (id, 1)`, `let inner = same in inner`, `[<Measure>] type m`. -/
def scopedItems : List Item :=
  let name (id : String) : Ident := ⟨id, {}⟩
  [.letGroup false [⟨.tuple [.ident (name "same"), .ident (name "one")] {},
      .tuple [.ident (name "id"), .const (.number (.int 1)) {}] {}⟩],
    .expr (.letIn false [⟨.ident (name "inner"), .ident (name "same")⟩] (.ident (name "inner")) {}),
    .measure "m" none {}]

theorem scopedItems_extends :
    ∃ Γ, runInfer identityEnv scopedItems = .ok Γ ∧ identityEnv.Extends Γ ["same", "one"] := by
  have run : runInfer identityEnv scopedItems =
      .ok ((identityEnv.insert "same" ⟨[1], .func (.var 1) (.var 1)⟩).insert "one" ⟨[], .int⟩) := by cbv
  exact ⟨_, run, runInfer_extends identityEnv scopedItems identityEnv_closed _ run⟩

end LetPoly
