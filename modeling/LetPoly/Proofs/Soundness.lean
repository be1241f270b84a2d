import LetPoly.Proofs.Groups

/-!
Soundness of inference. An expression has the type that is inferred for it, in the environment under
what is solved on the way (`inferExpr_sound`), if the run is calm; the theorem goes along the program
text, one case for each form of expression, and says for every part what it leaves behind.
-/
namespace LetPoly.Infer
open State Typing

theorem inferExpr_ident {Γ : Env} {id : Ident} {σ : Scheme} (look : Γ[id.name]? = some σ) :
    inferExpr Γ (.ident id) = (do
      let t ← instantiate σ
      return (∅, t)) := by
  rw [inferExpr.eq_def]
  simp only [look]

theorem inferExpr_ident_ok {Γ : Env} {id : Ident} {s : Subst} {t : Ty} {st st' : State}
    (run : inferExpr Γ (.ident id) st = .ok (s, t) st') :
    ∃ σ, Γ[id.name]? = some σ ∧ s = ∅ ∧ instantiate σ st = .ok t st' := by
  cases look : Γ[id.name]? with
  | none =>
    rw [inferExpr.eq_def] at run
    simp only [look] at run
    exact absurd run fail_ne_ok
  | some σ =>
    rw [inferExpr_ident look] at run
    obtain ⟨u, st₁, run₁, done⟩ := bind_ok.mp run
    cases done
    exact ⟨σ, rfl, rfl, run₁⟩

mutual

/-- An expression has the type that is inferred for it. -/
theorem inferExpr_sound {K : TyVar → Prop} {Γ : Env} {s : Subst} {t : Ty} {st st' : State} (scope : Scope K st)
    (inside : Γ.In K) :
    (e : Expr) → inferExpr Γ e st = .ok (s, t) st' →
      Reach K st s st' ∧ t.In (Fits K st st') ∧
      ∀ {M : Measures} {A : Reading} {fin : State}, st'.Before fin → Calm K M A Γ st fin →
        HasType M A (Γ.subst s) e t
  | .const value span, run => by
    obtain ⟨u, st₁, run₁, done⟩ := bind_ok.mp run
    cases done
    obtain ⟨rfl, typed⟩ := literalType_ok.mp run₁
    exact ⟨.refl scope.consistent, in_of_literalType typed, fun _ calm => .const span (calm.allows.measures ▸ typed)⟩
  | .ident id, run => by
    obtain ⟨σ, look, rfl, run₁⟩ := inferExpr_ident_ok run
    obtain ⟨reach, known, inst⟩ :=
      instantiate_sound scope (fun v free => inside v (Env.mem_freeVars.mpr ⟨_, σ, look, free⟩)) run₁
    refine ⟨reach, known, fun _ _ => ?_⟩
    rw [Env.subst_empty]
    exact .ident look inst
  | .lambda param body span, run => by
    obtain ⟨a, st₁, run₁, run⟩ := bind_ok.mp run
    obtain ⟨⟨s₁, named⟩, st₂, run₂, run⟩ := bind_ok.mp run
    obtain ⟨⟨s₂, b⟩, st₃, run₃, done⟩ := bind_ok.mp run
    cases done
    obtain ⟨reach₁, known₁⟩ := fresh_reach (K := K) scope.consistent run₁
    obtain ⟨distinct, reach₂, names, accepts⟩ := inferPattern_sound reach₁.scope known₁ run₂
    have reach := reach₁.empty_trans reach₂
    have inner := (reach.subst scope.live inside).extendMono (names.imp fun _ => reach₁.fits reach₂)
    obtain ⟨further, known₂, typed⟩ := inferExpr_sound reach.scope inner body run₃
    rw [Subst.apply_after]
    refine ⟨reach.trans further, Ty.in_func.mpr ⟨?_, reach.gain further known₂⟩, fun upto calm => ?_⟩
    · exact reach.carry further (reach₁.carry reach₂ known₁)
    · have upto₂ := further.journal.trans upto
      have upto₁ := reach₂.journal.trans upto₂
      have pattern := (accepts upto₂ (calm.allows.step reach₁ upto₁)).apply calm.allows.stable s₂
      have result := typed upto ((calm.step reach upto₂).extendMono named)
      rw [Env.subst_extendMono, ← Env.subst_after (calm.safe reach upto₂)] at result
      exact .lambda span distinct pattern result
  | .apply func arg span, run => by
    obtain ⟨⟨s₁, f⟩, st₁, run₁, run⟩ := bind_ok.mp run
    obtain ⟨⟨s₂, a⟩, st₂, run₂, run⟩ := bind_ok.mp run
    obtain ⟨b, st₃, run₃, run⟩ := bind_ok.mp run
    obtain ⟨s₃, st₄, run₄, done⟩ := bind_ok.mp run
    cases done
    obtain ⟨reach₁, known₁, typed₁⟩ := inferExpr_sound scope inside func run₁
    obtain ⟨reach₂, known₂, typed₂⟩ := inferExpr_sound reach₁.scope (reach₁.subst scope.live inside) arg run₂
    have both := reach₁.trans reach₂
    obtain ⟨reach₃, known₃⟩ := fresh_reach (K := Fits K st st₂) both.consistent run₃
    have reach := both.trans_empty reach₃
    have known := both.gain reach₃ known₃
    have further := equate_reach reach.consistent reach.scope.live
      (both.carry_empty reach₃ (reach₁.carry reach₂ known₁))
      (Ty.in_func.mpr ⟨both.carry_empty reach₃ (reach₁.gain reach₂ known₂), known⟩) run₄
    rw [Subst.after_assoc, Subst.apply_after, reach.apply_eq_self known]
    refine ⟨reach.trans further, reach.carry further known, fun upto calm => ?_⟩
    have upto₃ := further.journal.trans upto
    have upto₂ := reach₃.journal.trans upto₃
    have upto₁ := reach₂.journal.trans upto₂
    have left := calm.carry reach further upto (calm.carry reach₁ reach₂ upto₂ (typed₁ upto₁ calm))
    have right := typed₂ upto₂ (calm.step reach₁ upto₁)
    rw [apply_eq_of_unify (equate_ok run₄).1, Subst.apply_func] at left
    rw [← Env.subst_after (calm.safe reach₁ upto₁)] at right
    exact .apply span left (calm.carry reach further upto right)
  | .letIn recursive bindings body span, run => by
    obtain ⟨⟨s₁, Γ'⟩, st₁, run₁, run⟩ := bind_ok.mp run
    obtain ⟨⟨s₂, u⟩, st₂, run₂, done⟩ := bind_ok.mp run
    cases done
    obtain ⟨named, distinct, rfl, reach, group⟩ := groupOf_sound scope inside
      (inferPlain_sound scope (solves_empty st) (Env.inUnder_empty.mpr inside) bindings)
      (fun scope solves inside known length => inferValues_sound scope solves inside known bindings length) run₁
    have outer := reach.subst scope.live inside
    have inner : Scope (· ∈ (Γ.subst s₁).freeVars) st₁ := ⟨reach.consistent, fun v free => (outer v free).1⟩
    obtain ⟨further, known, typed⟩ := inferExpr_sound inner (fun v free => mem_freeVars_bodyEnv free) body run₂
    have further' := further.mono outer
    refine ⟨reach.trans further', reach.gain further' (known.imp fun _ => Fits.mono outer), fun upto calm => ?_⟩
    obtain ⟨values, calm'⟩ := group (further.journal.trans upto) calm
    have admits := calm.admits reach further' upto
    obtain ⟨θ, same, admitted⟩ := admits.bodyEnv named
    have result := (typed upto calm').under calm.allows.stable (admitted.of_subst (calm'.safe further upto))
    rw [Ty.bind_var] at result
    exact .letIn span distinct (values.under calm.allows.stable ((admits.congr same).valueEnv _ _)) result
  | .ifThenElse condition yes no span, run => by
    obtain ⟨⟨s₁, c⟩, st₁, run₁, run⟩ := bind_ok.mp run
    obtain ⟨s₂, st₂, run₂, run⟩ := bind_ok.mp run
    obtain ⟨⟨s₃, a⟩, st₃, run₃, run⟩ := bind_ok.mp run
    obtain ⟨⟨s₄, b⟩, st₄, run₄, run⟩ := bind_ok.mp run
    obtain ⟨s₅, st₅, run₅, done⟩ := bind_ok.mp run
    cases done
    obtain ⟨reach₁, known₁, typed₁⟩ := inferExpr_sound scope inside condition run₁
    have reach₂ := equate_reach reach₁.consistent reach₁.scope.live (Ty.in_prim .bool) known₁ run₂
    have both := reach₁.trans reach₂
    obtain ⟨reach₃, known₃, typed₃⟩ := inferExpr_sound both.scope (both.subst scope.live inside) yes run₃
    have three := both.trans reach₃
    have known := both.gain reach₃ known₃
    obtain ⟨reach₄, known₄, typed₄⟩ := inferElse_sound three.scope (three.subst scope.live inside) no run₄
    have reach := three.trans reach₄
    have other := three.gain reach₄ known₄
    have first : (s₄.after (s₃.after (s₂.after s₁))).apply a = s₄.apply a := by
      rw [Subst.apply_after, three.apply_eq_self known]
    rw [first, reach.apply_eq_self other] at run₅
    have further := equate_reach reach.consistent reach.scope.live (three.carry reach₄ known) other run₅
    rw [Subst.apply_after, first]
    refine ⟨reach.trans further, reach.carry further (three.carry reach₄ known), fun upto calm => ?_⟩
    have upto₄ := further.journal.trans upto
    have upto₃ := reach₄.journal.trans upto₄
    have upto₂ := reach₃.journal.trans upto₃
    have upto₁ := reach₂.journal.trans upto₂
    have truth := calm.carry reach₁ reach₂ upto₂ (typed₁ upto₁ calm)
    rw [← apply_eq_of_unify (equate_ok run₂).1, Subst.apply_prim] at truth
    have truth := calm.carry reach further upto (calm.carry three reach₄ upto₄ (calm.carry both reach₃ upto₃ truth))
    simp only [Subst.apply_prim] at truth
    have left := typed₃ upto₃ (calm.step both upto₂)
    rw [← Env.subst_after (calm.safe both upto₂)] at left
    have left := calm.carry reach further upto (calm.carry three reach₄ upto₄ left)
    have right := typed₄ upto₄ (calm.step three upto₃)
    cases no with
    | some e =>
      rw [← Env.subst_after (calm.safe three upto₃)] at right
      have right := calm.carry reach further upto right
      rw [← apply_eq_of_unify (equate_ok run₅).1] at right
      exact .ifThenElse span truth left right
    | none =>
      rw [apply_eq_of_unify (equate_ok run₅).1, right, Subst.apply_prim] at left ⊢
      exact .ifThen span truth left
  | .matchWith scrutinee rules span, run => by
    obtain ⟨⟨s₁, a⟩, st₁, run₁, run⟩ := bind_ok.mp run
    obtain ⟨b, st₂, run₂, run⟩ := bind_ok.mp run
    obtain ⟨s₂, st₃, run₃, done⟩ := bind_ok.mp run
    cases done
    obtain ⟨reach₁, known₁, typed₁⟩ := inferExpr_sound scope inside scrutinee run₁
    obtain ⟨reach₂, known₂⟩ := fresh_reach (K := Fits K st st₁) reach₁.consistent run₂
    have reach := reach₁.trans_empty reach₂
    have input := reach₁.carry_empty reach₂ known₁
    have result := reach₁.gain reach₂ known₂
    have same {u : Ty} (known : u.In (Fits K st st₂)) : s₁.apply u = u :=
      reach.apply_eq_self known
    obtain ⟨r, rfl, further, typed⟩ := inferRules_sound reach.scope reach.solves
      (fun v free => reach.value scope.live (inside v free)) ((same input).symm ▸ input) ((same result).symm ▸ result)
      rules run₃
    refine ⟨reach.trans further, ?_, fun upto calm => ?_⟩
    · rw [Subst.apply_after, same result]
      exact reach.carry further result
    · have upto₂ := further.journal.trans upto
      have value := calm.carry reach further upto (typed₁ (reach₂.journal.trans upto₂) calm)
      have rest := typed upto (calm.step reach upto₂) (calm.safe reach upto₂)
      rw [Subst.apply_after r s₁ a, same input] at rest
      exact .matchWith span value rest
  | .function rules span, run => by
    obtain ⟨a, st₁, run₁, run⟩ := bind_ok.mp run
    obtain ⟨b, st₂, run₂, run⟩ := bind_ok.mp run
    obtain ⟨s₁, st₃, run₃, done⟩ := bind_ok.mp run
    cases done
    obtain ⟨reach₁, known₁⟩ := fresh_reach (K := K) scope.consistent run₁
    obtain ⟨reach₂, known₂⟩ := fresh_reach (K := Fits K st st₁) reach₁.consistent run₂
    have reach := reach₁.trans_empty reach₂
    have input := reach₁.carry_empty reach₂ known₁
    have result := reach₁.gain reach₂ known₂
    obtain ⟨r, rfl, further, typed⟩ := inferRules_sound reach.scope reach.solves
      (fun v free => reach.value scope.live (inside v free)) (by rwa [Subst.apply_empty]) (by rwa [Subst.apply_empty])
      rules run₃
    rw [Subst.after_empty] at typed ⊢
    refine ⟨reach.empty_trans further, Ty.in_func.mpr ⟨reach.carry further input, reach.carry further result⟩, ?_⟩
    intro M A fin upto calm
    exact .function span (typed upto (calm.step reach (further.journal.trans upto)) Γ.safe_empty)
  | .tuple elements span, run => by
    obtain ⟨⟨s₁, ts⟩, st₁, run₁, run⟩ := bind_ok.mp run
    obtain ⟨u, st₂, run₂, done⟩ := bind_ok.mp run
    cases done
    obtain ⟨rfl, a, b, rest, rfl, rfl⟩ := tupleType_ok run₂
    obtain ⟨r, rfl, reach, known, typed⟩ :=
      inferSequence_sound scope (solves_empty st) (Env.inUnder_empty.mpr inside) elements run₁
    rw [Subst.after_empty] at typed ⊢
    refine ⟨reach, Ty.in_tuple.mpr (by simpa using known), fun upto calm => ?_⟩
    exact .tuple span (typed upto calm.empty Γ.safe_empty)
  | .list elements span, run => by
    obtain ⟨elem, st₁, run₁, run⟩ := bind_ok.mp run
    obtain ⟨s₁, st₂, run₂, done⟩ := bind_ok.mp run
    cases done
    obtain ⟨reach, known⟩ := fresh_reach (K := K) scope.consistent run₁
    obtain ⟨r, rfl, further, typed⟩ := inferElements_sound reach.scope reach.solves
      (fun v free => reach.value scope.live (inside v free)) (by rwa [Subst.apply_empty]) elements run₂
    rw [Subst.after_empty] at typed ⊢
    refine ⟨reach.empty_trans further, Ty.in_wrap.mpr (reach.carry further known), fun upto calm => ?_⟩
    exact .list span (typed upto (calm.step reach (further.journal.trans upto)) Γ.safe_empty)
  | .cons head tail span, run => by
    obtain ⟨⟨s₁, h⟩, st₁, run₁, run⟩ := bind_ok.mp run
    obtain ⟨⟨s₂, l⟩, st₂, run₂, run⟩ := bind_ok.mp run
    obtain ⟨s₃, st₃, run₃, done⟩ := bind_ok.mp run
    cases done
    obtain ⟨reach₁, known₁, typed₁⟩ := inferExpr_sound scope inside head run₁
    obtain ⟨reach₂, known₂, typed₂⟩ := inferExpr_sound reach₁.scope (reach₁.subst scope.live inside) tail run₂
    have reach := reach₁.trans reach₂
    have known := reach₁.carry reach₂ known₁
    have further := equate_reach reach.consistent reach.scope.live (Ty.in_wrap.mpr known) (reach₁.gain reach₂ known₂) run₃
    rw [Subst.after_assoc, Subst.apply_after, Subst.apply_wrap, Subst.apply_wrap,
      reach.apply_eq_self known]
    refine ⟨reach.trans further, Ty.in_wrap.mpr (reach.carry further known), fun upto calm => ?_⟩
    have upto₂ := further.journal.trans upto
    have upto₁ := reach₂.journal.trans upto₂
    have first := calm.carry reach further upto (calm.carry reach₁ reach₂ upto₂ (typed₁ upto₁ calm))
    have rest := typed₂ upto₂ (calm.step reach₁ upto₁)
    rw [← Env.subst_after (calm.safe reach₁ upto₁)] at rest
    have rest := calm.carry reach further upto rest
    rw [← apply_eq_of_unify (equate_ok run₃).1, Subst.apply_wrap] at rest
    exact .cons span first rest
  | .some value span, run => by
    obtain ⟨⟨s₁, u⟩, st₁, run₁, done⟩ := bind_ok.mp run
    cases done
    obtain ⟨reach, known, typed⟩ := inferExpr_sound scope inside value run₁
    exact ⟨reach, Ty.in_wrap.mpr known, fun upto calm => .some span (typed upto calm)⟩
  | .none span, run => by
    obtain ⟨u, st₁, run₁, done⟩ := bind_ok.mp run
    cases done
    obtain ⟨reach, known⟩ := fresh_reach (K := K) scope.consistent run₁
    exact ⟨reach, Ty.in_wrap.mpr known, fun _ _ => .none span u⟩
  | .typed value ascribed span, run => by
    obtain ⟨⟨s₁, u⟩, st₁, run₁, run⟩ := bind_ok.mp run
    obtain ⟨annotated, st₂, run₂, run⟩ := bind_ok.mp run
    obtain ⟨s₂, st₃, run₃, done⟩ := bind_ok.mp run
    cases done
    obtain ⟨reach₁, known₁, typed₁⟩ := inferExpr_sound scope inside value run₁
    obtain ⟨reach₂, known₂, means⟩ := resolve_reach (K := Fits K st st₁) reach₁.consistent ascribed run₂
    have reach := reach₁.trans_empty reach₂
    have known := reach₁.gain reach₂ known₂
    have further := equate_reach reach.consistent reach.scope.live known (reach₁.carry_empty reach₂ known₁) run₃
    rw [Subst.apply_after, reach.apply_eq_self known]
    refine ⟨reach.trans further, reach.carry further known, fun upto calm => ?_⟩
    have upto₂ := further.journal.trans upto
    have upto₁ := reach₂.journal.trans upto₂
    have allowed := (calm.allows.step reach₁ upto₁).of_means reach₂ upto₂ means s₂
    have given := calm.carry reach further upto (typed₁ upto₁ calm)
    rw [← apply_eq_of_unify (equate_ok run₃).1] at given
    exact .typed span allowed given

theorem inferElse_sound {K : TyVar → Prop} {Γ : Env} {s : Subst} {t : Ty} {st st' : State} (scope : Scope K st)
    (inside : Γ.In K) :
    (no : Option Expr) → inferElse Γ no st = .ok (s, t) st' →
      Reach K st s st' ∧ t.In (Fits K st st') ∧
      ∀ {M : Measures} {A : Reading} {fin : State}, st'.Before fin → Calm K M A Γ st fin →
        no.elim (t = .unit) fun e => HasType M A (Γ.subst s) e t
  | some e, run => inferExpr_sound scope inside e run
  | none, run => by
    cases run
    exact ⟨.refl scope.consistent, Ty.in_prim .unit, fun _ _ => rfl⟩

theorem inferGuard_sound {K : TyVar → Prop} {Γ : Env} {s : Subst} {st st' : State} (scope : Scope K st)
    (inside : Γ.In K) :
    (guard : Option Expr) → inferGuard Γ guard st = .ok s st' →
      Reach K st s st' ∧
      ∀ {M : Measures} {A : Reading} {fin : State}, st'.Before fin → Calm K M A Γ st fin →
        GuardTyped M A (Γ.subst s) guard
  | some e, run => by
    obtain ⟨⟨s₁, t⟩, st₁, run₁, run⟩ := bind_ok.mp run
    obtain ⟨s₂, st₂, run₂, done⟩ := bind_ok.mp run
    cases done
    obtain ⟨reach, known, typed⟩ := inferExpr_sound scope inside e run₁
    have further := equate_reach reach.consistent reach.scope.live (Ty.in_prim .bool) known run₂
    refine ⟨reach.trans further, fun upto calm => ?_⟩
    have truth := calm.carry reach further upto (typed (further.journal.trans upto) calm)
    rw [← apply_eq_of_unify (equate_ok run₂).1, Subst.apply_prim] at truth
    exact .bool truth
  | none, run => by
    cases run
    exact ⟨.refl scope.consistent, fun _ _ => .missing⟩

/-- Rules accept the type that they are inferred against, and all give the type of results. -/
theorem inferRules_sound {K : TyVar → Prop} {Γ : Env} {input result : Ty} {s s' : Subst} {st st' : State}
    (scope : Scope K st) (solves : st.Solves s) (inside : Γ.InUnder K s) (inputKnown : (s.apply input).In K)
    (resultKnown : (s.apply result).In K) :
    (rules : List (Rule Expr)) → inferRules Γ input result s rules st = .ok s' st' →
      ∃ r, s' = r.after s ∧ Reach K st r st' ∧
      ∀ {M : Measures} {A : Reading} {fin : State}, st'.Before fin → Calm K M A (Γ.subst s) st fin → Γ.Safe s →
        RulesTyped M A (Γ.subst s') rules (s'.apply input) (s'.apply result)
  | [], run => by
    cases run
    exact ⟨∅, (Subst.empty_after s).symm, .refl scope.consistent, fun _ _ _ => .nil⟩
  | ⟨pattern, guard, body⟩ :: rules, run => by
    obtain ⟨⟨s₁, named⟩, st₁, run₁, run⟩ := bind_ok.mp run
    obtain ⟨s₂, st₂, run₂, run⟩ := bind_ok.mp run
    obtain ⟨⟨s₃, t⟩, st₃, run₃, run⟩ := bind_ok.mp run
    obtain ⟨s₄, st₄, run₄, run₅⟩ := bind_ok.mp run
    obtain ⟨distinct, reach₁, names, accepts⟩ := inferPattern_sound scope inputKnown run₁
    -- the guard, the body and the equation belong together, from what is known after the pattern
    have inner := (reach₁.inUnder scope.live inside).subst.extendMono names
    obtain ⟨reach₂, guarded⟩ := inferGuard_sound reach₁.scope inner guard run₂
    rw [(solves.after reach₁).subst_after inner] at run₃
    obtain ⟨reach₃, known₃, typed₃⟩ :=
      inferExpr_sound reach₂.scope (reach₂.subst reach₁.scope.live inner) body run₃
    have both := reach₂.trans reach₃
    have solved := (solves.after reach₁).after both
    have known := reach₂.gain reach₃ known₃
    have result' : ((s₃.after s₂).apply (s₁.apply (s.apply result))).In (Fits (Fits K st st₁) st₁ st₃) :=
      both.apply reach₁.scope.live (reach₁.apply scope.live resultKnown)
    rw [← Subst.after_assoc s₃, solved.apply_eq_self known, Subst.apply_after,
      Subst.apply_after s₁] at run₄
    have reach₄ := equate_reach both.consistent both.scope.live result' known run₄
    have rule := both.trans reach₄
    have all := reach₁.trans rule
    have form : s₄.after (s₃.after (s₂.after (s₁.after s))) = ((s₄.after (s₃.after s₂)).after s₁).after s := by
      simp only [Subst.after_assoc]
    rw [form] at run₅
    obtain ⟨r, rfl, reach₅, typed₅⟩ := inferRules_sound all.scope (solves.after all) (all.inUnder scope.live inside)
      (Subst.apply_after _ s input ▸ all.apply scope.live inputKnown)
      (Subst.apply_after _ s result ▸ all.apply scope.live resultKnown) rules run₅
    refine ⟨r.after ((s₄.after (s₃.after s₂)).after s₁), (Subst.after_assoc r _ s).symm, all.trans reach₅,
      fun upto calm safe => ?_⟩
    have upto₄ := reach₅.journal.trans upto
    have upto₃ := reach₄.journal.trans upto₄
    have upto₂ := reach₃.journal.trans upto₃
    have upto₁ := reach₂.journal.trans upto₂
    have near := (calm.next safe reach₁ upto₁).1.extendMono named
    have stable := calm.allows.stable
    have accepts := (accepts upto₁ calm.allows).apply stable (s₄.after (s₃.after s₂))
    have guarded := ((guarded upto₂ near).under stable (near.admits reach₂ reach₃ upto₃)).under stable
      (near.admits both reach₄ upto₄)
    have typed := typed₃ upto₃ (near.step reach₂ upto₂)
    rw [← Env.subst_after (near.safe reach₂ upto₂)] at typed
    have typed := near.carry both reach₄ upto₄ typed
    have env : Env.subst (s₄.after (s₃.after s₂)) ((Γ.subst (s₁.after s)).extendMono named) =
        (Γ.subst (((s₄.after (s₃.after s₂)).after s₁).after s)).extendMono
          ((s₄.after (s₃.after s₂)).applyNamed named) := by
      rw [Env.subst_extendMono, Subst.after_assoc _ s₁, Env.subst_after (safe.after (calm.safe reach₁ upto₁))]
    rw [env] at guarded typed
    rw [← Subst.apply_after _ s₁, ← Subst.apply_after _ s] at accepts
    rw [← apply_eq_of_unify (equate_ok run₄).1, ← Subst.apply_after s₄, ← Subst.apply_after _ s₁,
      ← Subst.apply_after _ s] at typed
    have admits := calm.admits all reach₅ upto
    obtain ⟨further, safe'⟩ := calm.next safe all upto₄
    have rest := typed₅ upto further safe'
    rw [← Env.subst_after safe, ← Env.subst_after safe, Subst.after_assoc r] at admits
    rw [Subst.apply_after r _ input, Subst.apply_after r _ result, Subst.apply_eq_bind r, Subst.apply_eq_bind r] at rest ⊢
    exact rest.cons_under stable admits distinct accepts guarded typed

/-- Elements that are inferred in turn all have the type of elements. -/
theorem inferElements_sound {K : TyVar → Prop} {Γ : Env} {elem : Ty} {s s' : Subst} {st st' : State}
    (scope : Scope K st) (solves : st.Solves s) (inside : Γ.InUnder K s) (elemKnown : (s.apply elem).In K) :
    (es : List Expr) → inferElements Γ elem s es st = .ok s' st' →
      ∃ r, s' = r.after s ∧ Reach K st r st' ∧
      ∀ {M : Measures} {A : Reading} {fin : State}, st'.Before fin → Calm K M A (Γ.subst s) st fin → Γ.Safe s →
        HaveTypes M A (Γ.subst s') es (es.map fun _ => s'.apply elem)
  | [], run => by
    cases run
    exact ⟨∅, (Subst.empty_after s).symm, .refl scope.consistent, fun _ _ _ => .nil⟩
  | e :: es, run => by
    obtain ⟨⟨s₁, t⟩, st₁, run₁, run⟩ := bind_ok.mp run
    obtain ⟨s₂, st₂, run₂, run₃⟩ := bind_ok.mp run
    obtain ⟨reach₁, known₁, typed₁⟩ := inferExpr_sound scope inside.subst e run₁
    rw [Subst.apply_after] at run₂
    rw [← Subst.after_assoc] at run₃
    have reach₂ := equate_reach reach₁.consistent reach₁.scope.live (reach₁.apply scope.live elemKnown) known₁ run₂
    have both := reach₁.trans reach₂
    obtain ⟨r, rfl, reach₃, typed₃⟩ := inferElements_sound both.scope (solves.after both)
      (both.inUnder scope.live inside) (Subst.apply_after _ s elem ▸ both.apply scope.live elemKnown) es run₃
    refine ⟨r.after (s₂.after s₁), (Subst.after_assoc r _ s).symm, both.trans reach₃, fun upto calm safe => ?_⟩
    have upto₂ := reach₃.journal.trans upto
    have upto₁ := reach₂.journal.trans upto₂
    have first := calm.carry both reach₃ upto (calm.carry reach₁ reach₂ upto₂ (typed₁ upto₁ calm))
    rw [← apply_eq_of_unify (equate_ok run₂).1, ← Subst.apply_after s₂, ← Subst.apply_after _ s,
      ← Subst.apply_after r, ← Env.subst_after safe, Subst.after_assoc] at first
    obtain ⟨further, safe'⟩ := calm.next safe both upto₂
    exact .cons first (typed₃ upto further safe')

/-- Expressions that are inferred in turn have their types under all that is solved. -/
theorem inferSequence_sound {K : TyVar → Prop} {Γ : Env} {ts : List Ty} {s s' : Subst} {st st' : State}
    (scope : Scope K st) (solves : st.Solves s) (inside : Γ.InUnder K s) :
    (es : List Expr) → inferSequence Γ s es st = .ok (s', ts) st' →
      ∃ r, s' = r.after s ∧ Reach K st r st' ∧ (∀ t ∈ ts, t.In (Fits K st st')) ∧
      ∀ {M : Measures} {A : Reading} {fin : State}, st'.Before fin → Calm K M A (Γ.subst s) st fin → Γ.Safe s →
        HaveTypes M A (Γ.subst s') es ts
  | [], run => by
    cases run
    exact ⟨∅, (Subst.empty_after s).symm, .refl scope.consistent, by simp, fun _ _ _ => .nil⟩
  | e :: es, run => by
    obtain ⟨⟨s₁, t⟩, st₁, run₁, run⟩ := bind_ok.mp run
    obtain ⟨⟨s₂, rest⟩, st₂, run₂, done⟩ := bind_ok.mp run
    cases done
    obtain ⟨reach₁, known₁, typed₁⟩ := inferExpr_sound scope inside.subst e run₁
    obtain ⟨r, rfl, reach₂, known₂, typed₂⟩ :=
      inferSequence_sound reach₁.scope (solves.after reach₁) (reach₁.inUnder scope.live inside) es run₂
    have same : (r.after (s₁.after s)).apply t = r.apply t := by
      rw [Subst.apply_after, (solves.after reach₁).apply_eq_self known₁]
    rw [same]
    refine ⟨r.after s₁, (Subst.after_assoc r s₁ s).symm, reach₁.trans reach₂, ?_, fun upto calm safe => ?_⟩
    · simp only [List.mem_cons, forall_eq_or_imp]
      exact ⟨reach₁.carry reach₂ known₁, fun u member => reach₁.gain reach₂ (known₂ u member)⟩
    · have upto₁ := reach₂.journal.trans upto
      have first := calm.carry reach₁ reach₂ upto (typed₁ upto₁ calm)
      rw [← Env.subst_after safe, Subst.after_assoc] at first
      obtain ⟨further, safe'⟩ := calm.next safe reach₁ upto₁
      exact .cons first (typed₂ upto further safe')

theorem inferPlain_sound {K : TyVar → Prop} {Γ : Env} {named : List (String × Ty)} {s s' : Subst} {st st' : State}
    (scope : Scope K st) (solves : st.Solves s) (inside : Γ.InUnder K s) :
    (bindings : List (Binding Expr)) → inferPlain Γ s bindings st = .ok (s', named) st' →
      PlainSound K Γ bindings st s s' named st'
  | [], run => by
    cases run
    exact ⟨∅, (Subst.empty_after s).symm, .refl scope.consistent, namedIn_nil _, fun _ _ _ => .nil⟩
  | ⟨pattern, value⟩ :: bindings, run => by
    obtain ⟨⟨s₁, t⟩, st₁, run₁, run⟩ := bind_ok.mp run
    obtain ⟨⟨s₂, names⟩, st₂, run₂, run⟩ := bind_ok.mp run
    obtain ⟨⟨s₃, others⟩, st₃, run₃, done⟩ := bind_ok.mp run
    cases done
    obtain ⟨reach₁, known₁, typed₁⟩ := inferExpr_sound scope inside.subst value run₁
    obtain ⟨_, reach₂, known₂, accepts⟩ := inferPattern_sound reach₁.scope known₁ run₂
    have both := reach₁.trans reach₂
    rw [← Subst.after_assoc] at run₃
    obtain ⟨r, rfl, reach₃, known₃, typed₃⟩ :=
      inferPlain_sound both.scope (solves.after both) (both.inUnder scope.live inside) bindings run₃
    have same : (r.after ((s₂.after s₁).after s)).applyNamed names = r.applyNamed names := by
      rw [Subst.applyNamed_after, (solves.after both).applyNamed_eq_self known₂]
    refine ⟨r.after (s₂.after s₁), (Subst.after_assoc r _ s).symm, both.trans reach₃, ?_, fun upto calm safe => ?_⟩
    · rw [Subst.applyNamed_append, same, namedIn_append]
      exact ⟨both.carryNamed reach₃ (known₂.imp fun _ => reach₁.fits reach₂), known₃.imp fun _ => both.fits reach₃⟩
    · have upto₂ := reach₃.journal.trans upto
      have upto₁ := reach₂.journal.trans upto₂
      have first := calm.carry both reach₃ upto (calm.carry reach₁ reach₂ upto₂ (typed₁ upto₁ calm))
      have pattern := (accepts upto₂ (calm.allows.step reach₁ upto₁)).apply calm.allows.stable r
      rw [← Env.subst_after safe, Subst.after_assoc] at first
      rw [Subst.applyNamed_append, same]
      obtain ⟨further, safe'⟩ := calm.next safe both upto₂
      exact .cons first pattern (typed₃ upto further safe')

theorem inferValues_sound {K : TyVar → Prop} {Γ : Env} {placeholders : List Ty} {s s' : Subst} {st st' : State}
    (scope : Scope K st) (solves : st.Solves s) (inside : Γ.InUnder K s)
    (known : ∀ t ∈ placeholders, (s.apply t).In K) :
    (bindings : List (Binding Expr)) → placeholders.length = bindings.length →
      inferValues Γ s placeholders bindings st = .ok s' st' →
      ∃ r, s' = r.after s ∧ Reach K st r st' ∧
      ∀ {M : Measures} {A : Reading} {fin : State}, st'.Before fin → Calm K M A (Γ.subst s) st fin → Γ.Safe s →
        HaveTypes M A (Γ.subst s') (bindings.map Binding.value) (placeholders.map s'.apply)
  | [], length, run => by
    cases List.length_eq_zero_iff.mp length
    cases run
    exact ⟨∅, (Subst.empty_after s).symm, .refl scope.consistent, fun _ _ _ => .nil⟩
  | ⟨pattern, value⟩ :: bindings, length, run => by
    cases placeholders with
    | nil => cases length
    | cons placeholder placeholders =>
      simp only [List.mem_cons, forall_eq_or_imp] at known
      obtain ⟨⟨s₁, t⟩, st₁, run₁, run⟩ := bind_ok.mp run
      obtain ⟨s₂, st₂, run₂, run₃⟩ := bind_ok.mp run
      obtain ⟨reach₁, known₁, typed₁⟩ := inferExpr_sound scope inside.subst value run₁
      rw [Subst.apply_after, (solves.after reach₁).apply_eq_self known₁] at run₂
      rw [← Subst.after_assoc] at run₃
      have reach₂ := equate_reach reach₁.consistent reach₁.scope.live (reach₁.apply scope.live known.1) known₁ run₂
      have both := reach₁.trans reach₂
      obtain ⟨r, rfl, reach₃, typed₃⟩ := inferValues_sound both.scope (solves.after both)
        (both.inUnder scope.live inside)
        (fun u member => Subst.apply_after _ s u ▸ both.apply scope.live (known.2 u member)) bindings
        (Nat.succ.inj length) run₃
      refine ⟨r.after (s₂.after s₁), (Subst.after_assoc r _ s).symm, both.trans reach₃, fun upto calm safe => ?_⟩
      have upto₂ := reach₃.journal.trans upto
      have upto₁ := reach₂.journal.trans upto₂
      have first := calm.carry both reach₃ upto (calm.carry reach₁ reach₂ upto₂ (typed₁ upto₁ calm))
      rw [← apply_eq_of_unify (equate_ok run₂).1, ← Subst.apply_after s₂, ← Subst.apply_after _ s,
        ← Subst.apply_after r, ← Env.subst_after safe, Subst.after_assoc] at first
      obtain ⟨further, safe'⟩ := calm.next safe both upto₂
      exact .cons first (typed₃ upto further safe')

end

end LetPoly.Infer
