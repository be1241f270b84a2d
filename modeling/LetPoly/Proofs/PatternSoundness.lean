import LetPoly.Proofs.Reading

/-!
Patterns are inferred soundly (`matchPattern_sound`): a pattern accepts the type that it is inferred
against, under what is solved on the way, and its names have the types that it gives them. What an
annotation allows is left open here; it has to allow the type that the annotation means as long as no
named variable is read (`Allows`).
-/
namespace LetPoly.Infer
open State Typing

/-- The reading survives replacement, and allows what annotations mean if no named variable is read
    until `fin`. -/
structure Allows (M : Measures) (A : Reading) (st fin : State) : Prop where
  measures : st.measures = M
  stable : A.Stable
  allows : ∀ (a : TypeExpr) (t : Ty), (st.Silent fin → Means M a t) → A a t

section
variable {K : TyVar → Prop} {M : Measures} {A : Reading} {st st₁ fin : State} {s : Subst}

theorem Allows.step (allows : Allows M A st fin) (reach : Reach K st s st₁) (upto : st₁.Before fin) :
    Allows M A st₁ fin where
  measures := reach.measures.trans allows.measures
  stable := allows.stable
  allows a t means := allows.allows a t fun silent => means (silent.right reach.journal upto)

/-- What an annotation is read as is allowed, also under a substitution. -/
theorem Allows.of_means {a : TypeExpr} {t : Ty} (allows : Allows M A st fin) (reach : Reach K st s st₁)
    (upto : st₁.Before fin) (means : st.Silent st₁ → Means st.measures a t) (r : Subst) : A a (r.apply t) := by
  rw [Subst.apply_eq_bind]
  refine allows.stable a t r.value (allows.allows a t fun silent => ?_)
  exact allows.measures ▸ means (silent.left reach.journal upto)

end

/-! ### Checks -/

theorem duplicate?_eq_none {seen : List String} {ids : List Ident} :
    duplicate? seen ids = none ↔ (ids.map Ident.name).Nodup ∧ ∀ id ∈ ids, id.name ∉ seen := by
  induction ids generalizing seen with
  | nil => simp [duplicate?]
  | cons id ids ih =>
    by_cases found : id.name ∈ seen
    · simp [duplicate?, found]
    · simp only [duplicate?, found, if_false, ih, List.map_cons, List.nodup_cons, List.mem_map, List.mem_cons, not_or,
        forall_eq_or_imp, not_false_eq_true, true_and, not_exists, not_and]
      grind

theorem checkDistinct_ok {ids : List Ident} {st st' : State} :
    checkDistinct ids st = .ok () st' ↔ st' = st ∧ (ids.map Ident.name).Nodup := by
  unfold checkDistinct
  cases found : duplicate? [] ids with
  | none =>
    have distinct := (duplicate?_eq_none.mp found).1
    simp [pure_ok, distinct, eq_comm]
  | some id =>
    have repeated : ¬ (ids.map Ident.name).Nodup := by
      intro distinct
      rw [duplicate?_eq_none.mpr ⟨distinct, by simp⟩] at found
      cases found
    simp [repeated, fail_ne_ok]

theorem checkArity_ok {span : Span} {t : Ty} {n : Nat} {st st' : State} (run : checkArity span t n st = .ok () st') :
    st' = st := by
  unfold checkArity at run
  cases found : t.components? with
  | none =>
    rw [found] at run
    exact (pure_ok.mp run).2.symm
  | some components =>
    simp only [found] at run
    split at run
    · exact (pure_ok.mp run).2.symm
    · exact absurd run fail_ne_ok

theorem tupleShape_ok {span : Span} {ts : List Ty} {t : Ty} {st st' : State}
    (run : tupleShape span ts st = .ok t st') : st' = st ∧ ∃ a b rest, ts = a :: b :: rest ∧ t = .tuple a b rest := by
  unfold tupleShape at run
  cases found : Ty.tupleOf? ts with
  | none =>
    rw [found] at run
    exact absurd run fail_ne_ok
  | some u =>
    rw [found] at run
    obtain ⟨rfl, rfl⟩ := pure_ok.mp run
    exact ⟨rfl, tupleOf?_eq_some.mp found⟩

section
variable {K : TyVar → Prop} {st st' : State}

theorem freshList_length {n : Nat} {ts : List Ty} (run : freshList n st = .ok ts st') : ts.length = n := by
  induction n generalizing ts st with
  | zero =>
    obtain ⟨rfl, rfl⟩ := pure_ok.mp run
    rfl
  | succ n ih =>
    obtain ⟨t, st₁, _, run⟩ := bind_ok.mp run
    obtain ⟨ts, st₂, run₂, done⟩ := bind_ok.mp run
    obtain ⟨rfl, rfl⟩ := pure_ok.mp done
    exact congrArg (· + 1) (ih run₂)

theorem freshList_reach {n : Nat} {ts : List Ty} (consistent : st.Consistent) (run : freshList n st = .ok ts st') :
    Reach K st ∅ st' ∧ ∀ t ∈ ts, t.In (Fits K st st') := by
  induction n generalizing K st ts with
  | zero =>
    obtain ⟨rfl, rfl⟩ := pure_ok.mp run
    exact ⟨.refl consistent, by simp⟩
  | succ n ih =>
    obtain ⟨t, st₁, run₁, run⟩ := bind_ok.mp run
    obtain ⟨ts, st₂, run₂, done⟩ := bind_ok.mp run
    obtain ⟨rfl, rfl⟩ := pure_ok.mp done
    obtain ⟨reach₁, inside₁⟩ := fresh_reach (K := K) consistent run₁
    obtain ⟨reach₂, inside₂⟩ := ih (K := Fits K st st₁) reach₁.consistent run₂
    refine ⟨reach₁.trans_empty reach₂, ?_⟩
    simp only [List.mem_cons, forall_eq_or_imp]
    exact ⟨reach₁.carry_empty reach₂ inside₁, fun u member => reach₁.gain reach₂ (inside₂ u member)⟩

/-! ### Patterns -/

/-- A type that no replacement changes has no variables. -/
theorem in_of_bind_eq {t : Ty} {P : TyVar → Prop} (fixed : ∀ θ, t.bind θ = t) : t.In P := by
  intro v member
  rw [← fixed fun _ => .unit] at member
  obtain ⟨w, _, found⟩ := Ty.mem_freeVars_bind.mp member
  simp [Ty.freeVars] at found

theorem in_of_literalType {M : Measures} {value : Literal} {t : Ty} {P : TyVar → Prop}
    (typed : LiteralType M value t) : t.In P :=
  in_of_bind_eq typed.bind_eq

/-- A new variable, made equal to the part of a type that a constructor leaves open. -/
theorem open_reach {span : Span} {t elem : Ty} {w : Wrapper} {note : Option String} {st₁ : State} {s : Subst}
    (scope : Scope K st) (inside : t.In K) (run₁ : fresh st = .ok elem st₁)
    (run₂ : equate span t (.wrap w elem) note st₁ = .ok s st') :
    Reach K st s st' ∧ (s.apply elem).In (Fits K st st') ∧ s.apply t = .wrap w (s.apply elem) := by
  obtain ⟨reach₁, inside₁⟩ := fresh_reach (K := K) scope.consistent run₁
  have reach₂ := equate_reach reach₁.consistent reach₁.scope.live (reach₁.keep_empty scope.live inside)
    (Ty.in_wrap.mpr inside₁) run₂
  refine ⟨reach₁.empty_trans reach₂, reach₁.carry reach₂ inside₁, ?_⟩
  rw [apply_eq_of_unify (equate_ok run₂).1, Subst.apply_wrap]

mutual

/-- What a pattern is inferred against has the type that the pattern accepts. -/
theorem matchPattern_sound {K : TyVar → Prop} {t : Ty} {st st' : State} {s : Subst} {named : List (String × Ty)}
    (scope : Scope K st) (inside : t.In K) :
    (p : Pattern) → matchPattern t p st = .ok (s, named) st' →
      Reach K st s st' ∧ NamedIn (Fits K st st') named ∧
      ∀ {M : Measures} {A : Reading} {fin : State}, st'.Before fin → Allows M A st fin → Accepts M A p (s.apply t) named
  | .wild span, run => by
    cases run
    exact ⟨.refl scope.consistent, namedIn_nil _, fun _ _ => .wild span _⟩
  | .ident id, run => by
    cases run
    have reach : Reach K st ∅ st := .refl scope.consistent
    refine ⟨reach, by simpa [NamedIn] using reach.keep_empty scope.live inside, fun _ _ => ?_⟩
    rw [Subst.apply_empty]
    exact .ident id t
  | .const value span, run => by
    obtain ⟨found, st₁, run₁, run⟩ := bind_ok.mp run
    obtain ⟨s, st₂, run₂, done⟩ := bind_ok.mp run
    obtain ⟨rfl, typed⟩ := literalType_ok.mp run₁
    cases done
    refine ⟨equate_reach scope.consistent scope.live inside (in_of_literalType typed) run₂, namedIn_nil _,
      fun _ allows => ?_⟩
    rw [apply_eq_of_unify (equate_ok run₂).1, Subst.apply_eq_bind, typed.bind_eq]
    exact .const span (allows.measures ▸ typed)
  | .tuple elements span, run => by
    obtain ⟨_, st₀, run₀, run⟩ := bind_ok.mp run
    obtain ⟨vars, st₁, run₁, run⟩ := bind_ok.mp run
    obtain ⟨shape, st₂, run₂, run⟩ := bind_ok.mp run
    obtain ⟨s₁, st₃, run₃, run₄⟩ := bind_ok.mp run
    cases checkArity_ok run₀
    obtain ⟨rfl, a, b, rest, rfl, rfl⟩ := tupleShape_ok run₂
    have length := freshList_length run₁
    obtain ⟨reach₁, known⟩ := freshList_reach (K := K) scope.consistent run₁
    have reach₂ := equate_reach reach₁.consistent reach₁.scope.live (reach₁.keep_empty scope.live inside)
      (Ty.in_tuple.mpr (by simpa using known)) run₃
    have reach := reach₁.empty_trans reach₂
    obtain ⟨r, rfl, further, names, accepts⟩ := matchPatterns_sound reach.scope reach.solves
      (fun u member => reach₁.carry reach₂ (known u member)) elements run₄
    refine ⟨reach.trans further, names.imp fun _ => reach.fits further, fun upto allows => ?_⟩
    have typed := accepts length upto (allows.step reach (further.journal.trans upto))
    rw [Subst.apply_after, apply_eq_of_unify (equate_ok run₃).1, ← Subst.apply_after, Subst.apply_tuple]
    exact .tuple span typed
  | .list elements span, run => by
    obtain ⟨elem, st₁, run₁, run⟩ := bind_ok.mp run
    obtain ⟨s₁, st₂, run₂, run₃⟩ := bind_ok.mp run
    obtain ⟨reach, known, shape⟩ := open_reach scope inside run₁ run₂
    have all : ∀ t ∈ elements.map fun _ => elem, (s₁.apply t).In (Fits K st st₂) := by
      intro t member
      obtain ⟨_, _, rfl⟩ := List.mem_map.mp member
      exact known
    obtain ⟨r, rfl, further, names, accepts⟩ := matchPatterns_sound reach.scope reach.solves all elements run₃
    refine ⟨reach.trans further, names.imp fun _ => reach.fits further, fun upto allows => ?_⟩
    have typed := accepts (by simp) upto (allows.step reach (further.journal.trans upto))
    rw [List.map_map] at typed
    rw [Subst.apply_after, shape, Subst.apply_wrap, ← Subst.apply_after]
    exact .list span typed
  | .cons head tail span, run => by
    obtain ⟨elem, st₁, run₁, run⟩ := bind_ok.mp run
    obtain ⟨s₁, st₂, run₂, run⟩ := bind_ok.mp run
    obtain ⟨⟨s₂, heads⟩, st₃, run₃, run⟩ := bind_ok.mp run
    obtain ⟨⟨s₃, tails⟩, st₄, run₄, done⟩ := bind_ok.mp run
    cases done
    obtain ⟨reach, known, shape⟩ := open_reach scope inside run₁ run₂
    obtain ⟨reach₁, names₁, accepts₁⟩ := matchPattern_sound reach.scope known head run₃
    have reach' := reach.trans reach₁
    have known' : ((s₂.after s₁).apply (.list elem)).In (Fits K st st₃) := by
      rw [Subst.apply_after, Subst.apply_wrap, Subst.apply_wrap, Ty.in_wrap]
      exact reach.carry reach₁ known
    obtain ⟨reach₂, names₂, accepts₂⟩ := matchPattern_sound reach'.scope known' tail run₄
    have reach'' := reach'.trans reach₂
    have named : (s₃.after (s₂.after s₁)).applyNamed (heads ++ tails) = s₃.applyNamed heads ++ tails := by
      rw [Subst.applyNamed_append, reach''.solves.applyNamed_eq_self names₂,
        Subst.applyNamed_after, reach'.solves.applyNamed_eq_self names₁]
    rw [named]
    refine ⟨reach'', namedIn_append.mpr ⟨?_, names₂.imp fun _ => reach'.fits reach₂⟩, fun upto allows => ?_⟩
    · exact reach'.carryNamed reach₂ (names₁.imp fun _ => reach.fits reach₁)
    · have upto₁ := reach₂.journal.trans upto
      have first := accepts₁ upto₁ (allows.step reach (reach₁.journal.trans upto₁))
      have second := accepts₂ upto (allows.step reach' upto₁)
      rw [Subst.apply_after, Subst.apply_wrap, Subst.apply_wrap, Subst.apply_wrap] at second
      rw [Subst.apply_after, Subst.apply_after, shape, Subst.apply_wrap, Subst.apply_wrap]
      exact .cons span (first.apply allows.stable s₃) second
  | .some inner span, run => by
    obtain ⟨elem, st₁, run₁, run⟩ := bind_ok.mp run
    obtain ⟨s₁, st₂, run₂, run⟩ := bind_ok.mp run
    obtain ⟨⟨s₂, names⟩, st₃, run₃, done⟩ := bind_ok.mp run
    cases done
    obtain ⟨reach, known, shape⟩ := open_reach scope inside run₁ run₂
    obtain ⟨further, names, accepts⟩ := matchPattern_sound reach.scope known inner run₃
    rw [(reach.trans further).solves.applyNamed_eq_self names]
    refine ⟨reach.trans further, names.imp fun _ => reach.fits further, fun upto allows => ?_⟩
    have typed := accepts upto (allows.step reach (further.journal.trans upto))
    rw [Subst.apply_after, shape, Subst.apply_wrap]
    exact .some span typed
  | .none span, run => by
    obtain ⟨elem, st₁, run₁, run⟩ := bind_ok.mp run
    obtain ⟨s₁, st₂, run₂, done⟩ := bind_ok.mp run
    cases done
    obtain ⟨reach, known, shape⟩ := open_reach scope inside run₁ run₂
    exact ⟨reach, namedIn_nil _, fun _ _ => shape ▸ .none span _⟩
  | .typed inner ascribed span, run => by
    obtain ⟨annotated, st₁, run₁, run⟩ := bind_ok.mp run
    obtain ⟨s₁, st₂, run₂, run⟩ := bind_ok.mp run
    obtain ⟨⟨s₂, names⟩, st₃, run₃, done⟩ := bind_ok.mp run
    cases done
    obtain ⟨reach₁, known, means⟩ := resolve_reach (K := K) scope.consistent ascribed run₁
    have reach₂ := equate_reach reach₁.consistent reach₁.scope.live (reach₁.keep_empty scope.live inside) known run₂
    have reach := reach₁.empty_trans reach₂
    obtain ⟨further, names, accepts⟩ := matchPattern_sound reach.scope (reach₁.carry reach₂ known) inner run₃
    rw [(reach.trans further).solves.applyNamed_eq_self names]
    refine ⟨reach.trans further, names.imp fun _ => reach.fits further, fun upto allows => ?_⟩
    have upto₁ := further.journal.trans upto
    have typed := accepts upto (allows.step reach upto₁)
    have allowed := allows.of_means reach₁ (reach₂.journal.trans upto₁) means (s₂.after s₁)
    rw [Subst.apply_after, apply_eq_of_unify (equate_ok run₂).1]
    exact .typed span (Subst.apply_after s₂ s₁ annotated ▸ allowed) typed

/-- Patterns that are inferred in turn accept their types under all that is solved. -/
theorem matchPatterns_sound {K : TyVar → Prop} {ts : List Ty} {st st' : State} {s s' : Subst}
    {named : List (String × Ty)} (scope : Scope K st) (solves : st.Solves s) (inside : ∀ t ∈ ts, (s.apply t).In K) :
    (ps : List Pattern) → matchPatterns s ts ps st = .ok (s', named) st' →
      ∃ r, s' = r.after s ∧ Reach K st r st' ∧ NamedIn (Fits K st st') named ∧
      (ts.length = ps.length → ∀ {M : Measures} {A : Reading} {fin : State}, st'.Before fin → Allows M A st fin →
        AcceptsAll M A ps (ts.map s'.apply) named)
  | [], run => by
    have done : matchPatterns s ts [] st = .ok (s, []) st := by cases ts <;> rfl
    cases done.symm.trans run
    refine ⟨∅, (Subst.empty_after s).symm, .refl scope.consistent, namedIn_nil _, fun length _ _ _ _ _ => ?_⟩
    rw [List.length_eq_zero_iff.mp length]
    exact .nil
  | p :: ps, run => by
    cases ts with
    | nil =>
      cases run
      exact ⟨∅, (Subst.empty_after s).symm, .refl scope.consistent, namedIn_nil _, nofun⟩
    | cons t ts =>
      obtain ⟨⟨s₁, names⟩, st₁, run₁, run⟩ := bind_ok.mp run
      obtain ⟨⟨s₂, others⟩, st₂, run₂, done⟩ := bind_ok.mp run
      cases done
      simp only [List.mem_cons, forall_eq_or_imp] at inside
      obtain ⟨reach₁, names₁, accepts₁⟩ := matchPattern_sound scope inside.1 p run₁
      have known (u : Ty) (member : u ∈ ts) : ((s₁.after s).apply u).In (Fits K st st₁) := by
        rw [Subst.apply_after]
        exact reach₁.apply scope.live (inside.2 u member)
      obtain ⟨r, rfl, reach₂, names₂, accepts₂⟩ :=
        matchPatterns_sound reach₁.scope (solves.after reach₁) known ps run₂
      have named : (r.after (s₁.after s)).applyNamed names = r.applyNamed names := by
        rw [Subst.applyNamed_after, (solves.after reach₁).applyNamed_eq_self names₁]
      rw [named]
      refine ⟨r.after s₁, (Subst.after_assoc r s₁ s).symm, reach₁.trans reach₂, ?_, fun length M A fin upto allows => ?_⟩
      · exact namedIn_append.mpr ⟨reach₁.carryNamed reach₂ names₁, names₂.imp fun _ => reach₁.fits reach₂⟩
      · have upto₁ := reach₂.journal.trans upto
        have rest := accepts₂ (Nat.succ.inj length) upto (allows.step reach₁ upto₁)
        have first := (accepts₁ upto₁ allows).apply allows.stable r
        rw [← Subst.apply_after, ← Subst.apply_after, Subst.after_assoc] at first
        exact .cons first rest

end

/-- A pattern binds no name twice and accepts what it is inferred against. -/
theorem inferPattern_sound {t : Ty} {p : Pattern} {s : Subst} {named : List (String × Ty)}
    (scope : Scope K st) (inside : t.In K) (run : inferPattern t p st = .ok (s, named) st') :
    p.names.Nodup ∧ Reach K st s st' ∧ NamedIn (Fits K st st') named ∧
      ∀ {M : Measures} {A : Reading} {fin : State}, st'.Before fin → Allows M A st fin →
        Accepts M A p (s.apply t) named := by
  obtain ⟨_, st₁, run₁, run₂⟩ := bind_ok.mp run
  obtain ⟨rfl, distinct⟩ := checkDistinct_ok.mp run₁
  exact ⟨distinct, matchPattern_sound scope inside p run₂⟩

end

end LetPoly.Infer
