import Mathlib.Logic.Equiv.List
import LetPoly.Proofs.Occurrences
import LetPoly.Proofs.TypeTexts

/-!
Written schemes. A scheme is known up to the names of quantified variables by its labels, the places of
quantified variables and the numbers of free ones (`alphaEq_iff_labels`), and it is written by its labels. So
schemes that are equal up to names are written alike. The names of the labels are not quite apart: the
quantified variable at the place `26 * v + 19` is written like the free variable `v` (`letterName_clash`).
Main statement: apart from which of the two stands where, the written form tells schemes apart
(`scheme_text_eq_iff`).
-/
namespace LetPoly

namespace Ty
variable {f g f' g' ρ : TyVar → TyVar} {name name' : TyVar → String} {t u : Ty} {v w : TyVar} {path : List Nat}

/-! ### Texts and places under renaming -/

theorem textWith_rename (t : Ty) : (t.rename ρ).textWith name = t.textWith fun v => name (ρ v) := by
  induction t with
  | prim p => rfl
  | var v => rfl
  | wrap w t ih => cases w <;> simp [textWith, ih, isCompound_rename]
  | func a b iha ihb => simp [textWith, iha, ihb, isFunc_rename]
  | tuple a b ts iha ihb ihs =>
    have rest : restText name (ts.map (rename ρ)) = restText (fun v => name (ρ v)) ts := by
      clear iha ihb
      induction ts with
      | nil => rfl
      | cons t ts ih =>
        simp only [List.mem_cons, forall_eq_or_imp] at ihs
        simp [restText, ihs.1, ih ihs.2, isCompound_rename]
    simp [textWith, iha, ihb, isCompound_rename, rest]

theorem parts_rename (t : Ty) : (t.rename ρ).parts = t.parts.map (rename ρ) := by
  cases t <;> simp [parts]

theorem at?_rename (t : Ty) (path : List Nat) : (t.rename ρ).at? path = (t.at? path).map (rename ρ) := by
  induction path generalizing t with
  | nil => rfl
  | cons i path ih =>
    rw [at?, at?, parts_rename, List.getElem?_map]
    cases t.parts[i]? with
    | none => rfl
    | some part => exact ih part

/-- Types that a renaming of each makes equal have variables at the same places, and are made equal by whatever
    two renamings agree at these. -/
theorem rename_eq_of_places (same : t.rename f = u.rename g)
    (agree : ∀ path v w, t.at? path = some (.var v) → u.at? path = some (.var w) → f v = g w → f' v = g' w) :
    t.rename f' = u.rename g' := by
  induction t generalizing u with
  | prim p =>
    cases u with
    | prim q => exact same
    | _ => cases same
  | var v =>
    cases u with
    | var w => exact congrArg Ty.var (agree [] v w rfl rfl (by simpa using same))
    | _ => cases same
  | wrap w t ih =>
    cases u with
    | wrap x u =>
      simp only [rename_wrap, wrap.injEq] at same ⊢
      exact ⟨same.1, ih same.2 fun path v w here there => agree (0 :: path) v w here there⟩
    | _ => cases same
  | func a b iha ihb =>
    cases u with
    | func c d =>
      simp only [rename_func, func.injEq] at same ⊢
      exact ⟨iha same.1 fun path v w here there => agree (0 :: path) v w here there,
        ihb same.2 fun path v w here there => agree (1 :: path) v w here there⟩
    | _ => cases same
  | tuple a b ts iha ihb ihs =>
    cases u with
    | tuple c d us =>
      simp only [rename_tuple, tuple.injEq] at same ⊢
      refine ⟨iha same.1 fun path v w here there => agree (0 :: path) v w here there,
        ihb same.2.1 fun path v w here there => agree (1 :: path) v w here there, ?_⟩
      have length : ts.length = us.length := by simpa using congrArg List.length same.2.2
      refine List.ext_getElem (by simpa using length) fun i here there => ?_
      simp only [List.length_map, List.getElem_map] at here there ⊢
      have part : ts[i].rename f = us[i].rename g := by
        have same := List.getElem_of_eq same.2.2 (by simpa using here)
        simpa using same
      refine ihs ts[i] (List.getElem_mem here) part fun path v w left right => agree ((i + 2) :: path) v w ?_ ?_
      · simpa [at?, parts, here] using left
      · simpa [at?, parts, there] using right
    | _ => cases same

end Ty

/-! ### Names of variables -/

theorem toList_letterName (i : Nat) : (letterName i).toList =
    Char.ofNat (97 + i % 26) :: if i < 26 then [] else Nat.toDigits 10 (i / 26) := by
  by_cases first : i < 26
  · simp [letterName, first]
  · simp [letterName, first]

theorem letter_eq_iff {m n : Nat} (left : m < 26) (right : n < 26) :
    Char.ofNat (97 + m) = Char.ofNat (97 + n) ↔ m = n := by
  have apart : ∀ m < 26, ∀ n < 26, Char.ofNat (97 + m) = Char.ofNat (97 + n) → m = n := by decide
  exact ⟨apart m left n right, fun same => same ▸ rfl⟩

theorem toDigits_inj {m n : Nat} : Nat.toDigits 10 m = Nat.toDigits 10 n ↔ m = n := by
  refine ⟨fun same => ?_, fun same => same ▸ rfl⟩
  rw [← Nat.ofDigitChars_ten_toDigits (n := m), same, Nat.ofDigitChars_ten_toDigits]

theorem toList_text (v : TyVar) : v.text.toList = "'".toList ++ Char.ofNat (97 + 19) :: Nat.toDigits 10 v := by
  simp [TyVar.text]

theorem letterName_inj {i j : Nat} : letterName i = letterName j ↔ i = j := by
  rw [← String.toList_inj, toList_letterName, toList_letterName, List.cons.injEq,
    letter_eq_iff (Nat.mod_lt _ (by decide)) (Nat.mod_lt _ (by decide))]
  by_cases first : i < 26 <;> by_cases second : j < 26
  · simp only [first, second, ↓reduceIte, and_true]
    omega
  · simp only [first, second, ↓reduceIte, Nat.toDigits_ne_nil.symm, and_false, false_iff]
    omega
  · simp only [first, second, ↓reduceIte, Nat.toDigits_ne_nil, and_false, false_iff]
    omega
  · simp only [first, second, ↓reduceIte, toDigits_inj]
    omega

/-- The letter `t` with a number is also the name of a free variable. -/
theorem letterName_clash {i v : Nat} : "'" ++ letterName i = TyVar.text v ↔ 0 < v ∧ i = 26 * v + 19 := by
  rw [← String.toList_inj, toList_text, String.toList_append, List.append_cancel_left_eq, toList_letterName,
    List.cons.injEq, letter_eq_iff (Nat.mod_lt _ (by decide)) (by decide)]
  by_cases first : i < 26
  · simp only [first, ↓reduceIte, Nat.toDigits_ne_nil.symm, and_false, false_iff]
    omega
  · simp only [first, ↓reduceIte, toDigits_inj]
    omega

theorem TyVar.text_inj {v w : Nat} : TyVar.text v = TyVar.text w ↔ v = w := by
  rw [← String.toList_inj, toList_text, toList_text, List.append_cancel_left_eq, List.cons.injEq, toDigits_inj]
  simp

theorem isMark_letter {n : Nat} (bound : n < 26) : isMark (Char.ofNat (97 + n)) = false := by
  have unmarked : ∀ n < 26, isMark (Char.ofNat (97 + n)) = false := by decide
  exact unmarked n bound

theorem isName_letterName (i : Nat) : Ty.IsName ("'" ++ letterName i) := by
  refine ⟨letterName i, rfl, fun c member => ?_⟩
  rw [toList_letterName] at member
  rcases List.mem_cons.mp member with rfl | member
  · exact isMark_letter (Nat.mod_lt _ (by decide))
  · by_cases first : i < 26
    · simp [first] at member
    · rw [if_neg first] at member
      exact (plain_repr (i / 26)).2 c (by simpa using member)

/-! ### Labels -/

namespace Scheme
variable {σ τ : Scheme} {v w : TyVar}

/-- The place of a quantified variable, doubled, or the number of a free one, doubled and one more: what a
    scheme says of its variables without their names. -/
def label (σ : Scheme) (v : TyVar) : Nat :=
  match σ.places[v]? with
  | some i => 2 * i
  | none => 2 * v + 1

/-- The name under which a label is written. -/
def labelText (n : Nat) : String :=
  if n % 2 = 0 then "'" ++ letterName (n / 2) else TyVar.text (n / 2)

theorem varText_eq_labelText (v : TyVar) : varText σ.places v = labelText (σ.label v) := by
  rw [varText, label]
  cases σ.places[v]? with
  | some i => simp [labelText]
  | none => simp [labelText, Nat.add_mod, Nat.mul_add_div]

theorem text_eq_of_labels (σ : Scheme) : σ.text = (σ.ty.rename σ.label).textWith labelText := by
  rw [Ty.textWith_rename, text, funext varText_eq_labelText]

theorem label_of_mem (member : v ∈ σ.boundInOrder) : σ.label v = 2 * σ.boundInOrder.idxOf v := by
  simp [label, places, getElem?_placesFrom member]

theorem label_of_free (free : v ∉ σ.vars) : σ.label v = 2 * v + 1 := by
  have absent : v ∉ σ.places := fun member => free (mem_boundInOrder.mp (mem_placesFrom.mp member)).2
  simp [label, Std.ExtTreeMap.getElem?_eq_none absent]

/-- The labels of quantified variables are even. -/
theorem label_mod (member : v ∈ σ.ty.freeVars) : σ.label v % 2 = 0 ↔ v ∈ σ.vars := by
  by_cases quantified : v ∈ σ.vars
  · simp [label_of_mem (mem_boundInOrder.mpr ⟨member, quantified⟩), quantified]
  · simp [label_of_free quantified, quantified, Nat.add_mod]

theorem quantified_iff_of_label_eq (member : v ∈ σ.ty.freeVars) (found : w ∈ τ.ty.freeVars)
    (same : σ.label v = τ.label w) : v ∈ σ.vars ↔ w ∈ τ.vars := by
  rw [← label_mod member, same, label_mod found]

theorem eq_of_label_eq (free : v ∉ σ.vars) (free' : w ∉ τ.vars) (same : σ.label v = τ.label w) : v = w := by
  rw [label_of_free free, label_of_free free'] at same
  exact Nat.eq_of_mul_eq_mul_left Nat.two_pos (Nat.add_right_cancel same)

theorem label_injective (member : v ∈ σ.ty.freeVars) (found : w ∈ σ.ty.freeVars) (same : σ.label v = σ.label w) :
    v = w := by
  have alike := quantified_iff_of_label_eq member found same
  by_cases quantified : v ∈ σ.vars
  · have bound : v ∈ σ.boundInOrder := mem_boundInOrder.mpr ⟨member, quantified⟩
    have bound' : w ∈ σ.boundInOrder := mem_boundInOrder.mpr ⟨found, alike.mp quantified⟩
    rw [label_of_mem bound, label_of_mem bound'] at same
    exact (List.idxOf_inj bound).mp (by omega)
  · exact eq_of_label_eq quantified (mt alike.mpr quantified) same

theorem AlphaEq.labels_eq (alpha : σ.AlphaEq τ) : σ.ty.rename σ.label = τ.ty.rename τ.label := by
  obtain ⟨ρ, one, bound, same⟩ := alpha
  have order := boundInOrder_of_rename one (fun v member => (bound v member).1) same
  rw [← same, Ty.rename_rename]
  refine Ty.rename_congr fun v member => ?_
  have place : τ.places[ρ v]? = σ.places[v]? := by
    rw [places, places, order]
    exact getElem?_placesFrom_map (fun w found => one w (mem_boundInOrder.mp found).1 v member) 0
  by_cases quantified : v ∈ σ.vars
  · have known : v ∈ σ.places := mem_placesFrom.mpr (mem_boundInOrder.mpr ⟨member, quantified⟩)
    rw [label, label, place, Std.ExtTreeMap.getElem?_eq_some_getElem known]
  · have kept := (bound v member).2 quantified
    have free : ρ v ∉ τ.vars := mt (bound v member).1.mpr quantified
    rw [label_of_free quantified, label_of_free free, kept]

theorem alphaEq_of_labels_eq (same : σ.ty.rename σ.label = τ.ty.rename τ.label) : σ.AlphaEq τ := by
  -- A variable of the one scheme goes to the variable of the other that has its label.
  let back := Function.invFunOn τ.label { v | v ∈ τ.ty.freeVars }
  have injective : Set.InjOn τ.label { v | v ∈ τ.ty.freeVars } := fun v member w found => label_injective member found
  have undo (w : TyVar) (member : w ∈ τ.ty.freeVars) : back (τ.label w) = w := injective.leftInvOn_invFunOn member
  have partner (v : TyVar) (member : v ∈ σ.ty.freeVars) :
      ∃ w ∈ τ.ty.freeVars, σ.label v = τ.label w ∧ back (σ.label v) = w := by
    have labelled : σ.label v ∈ (τ.ty.rename τ.label).freeVars := same ▸ Ty.mem_freeVars_rename.mpr ⟨v, member, rfl⟩
    obtain ⟨w, found, equal⟩ := Ty.mem_freeVars_rename.mp labelled
    exact ⟨w, found, equal.symm, by rw [← equal, undo w found]⟩
  refine ⟨fun v => back (σ.label v), ?_, ?_, ?_⟩
  · intro v member v' member' equal
    obtain ⟨w, _, left, into⟩ := partner v member
    obtain ⟨w', _, right, into'⟩ := partner v' member'
    simp only [into, into'] at equal
    exact label_injective member member' (by rw [left, equal, right])
  · intro v member
    obtain ⟨w, found, equal, into⟩ := partner v member
    have alike := quantified_iff_of_label_eq member found equal
    simp only [into]
    exact ⟨alike, fun free => (eq_of_label_eq free (mt alike.mpr free) equal).symm⟩
  · calc σ.ty.rename (fun v => back (σ.label v))
        = (σ.ty.rename σ.label).rename back := (Ty.rename_rename _).symm
      _ = (τ.ty.rename τ.label).rename back := by rw [same]
      _ = τ.ty := by rw [Ty.rename_rename, Ty.rename_congr undo, Ty.rename_id]

/-- Schemes are equal up to the names of quantified variables exactly if their types have the same labels. -/
theorem alphaEq_iff_labels : σ.AlphaEq τ ↔ σ.ty.rename σ.label = τ.ty.rename τ.label :=
  ⟨AlphaEq.labels_eq, alphaEq_of_labels_eq⟩

/-! ### Written forms -/

theorem isName_labelText (n : Nat) : Ty.IsName (labelText n) := by
  rw [labelText]
  split
  · exact isName_letterName (n / 2)
  · exact TyVar.isName_text (n / 2)

/-- Two labels of quantified variables, or of free ones, are written differently. -/
theorem labelText_inj {m n : Nat} (alike : m % 2 = 0 ↔ n % 2 = 0) (same : labelText m = labelText n) : m = n := by
  by_cases even : m % 2 = 0
  · simp only [labelText, even, alike.mp even, ↓reduceIte, String.append_right_inj, letterName_inj] at same
    omega
  · simp only [labelText, even, mt alike.mpr even, ↓reduceIte, TyVar.text_inj] at same
    omega

/-- Where both types have a variable, it is quantified in both or in neither. -/
def SameQuantified (σ τ : Scheme) : Prop :=
  ∀ path v w, σ.ty.at? path = some (.var v) → τ.ty.at? path = some (.var w) → (v ∈ σ.vars ↔ w ∈ τ.vars)

/-- No free variable of the one scheme has the name of a quantified variable of the other. -/
def Unlike (σ τ : Scheme) : Prop :=
  ∀ v ∈ σ.freeVars, v = 0 ∨ τ.boundInOrder.length ≤ 26 * v + 19

theorem AlphaEq.text_eq (alpha : σ.AlphaEq τ) : σ.text = τ.text := by
  rw [text_eq_of_labels, alphaEq_iff_labels.mp alpha, ← text_eq_of_labels]

theorem AlphaEq.sameQuantified (alpha : σ.AlphaEq τ) : σ.SameQuantified τ := by
  intro path v w here there
  have same : (σ.ty.rename σ.label).at? path = (τ.ty.rename τ.label).at? path := by
    rw [alphaEq_iff_labels.mp alpha]
  rw [Ty.at?_rename, Ty.at?_rename, here, there] at same
  exact quantified_iff_of_label_eq (Ty.mem_freeVars_of_at? here) (Ty.mem_freeVars_of_at? there) (by simpa using same)

/-- Schemes that are written alike have variables at the same places, with the same names. -/
theorem exists_numbers (unmeasured : σ.ty.isUnmeasured = true) (unmeasured' : τ.ty.isUnmeasured = true)
    (same : σ.text = τ.text) : ∃ number : List Char → TyVar, Function.Injective number ∧
      σ.ty.rename (fun v => number (labelText (σ.label v)).toList) =
        τ.ty.rename fun v => number (labelText (τ.label v)).toList := by
  have : Countable Char := Function.Injective.countable fun _ _ => Char.toNat_inj.mp
  obtain ⟨number, injective⟩ := exists_injective_nat (List Char)
  have read {υ : Scheme} (unmeasured : υ.ty.isUnmeasured = true) :
      ((Ty.reader number).read υ.text).ty = υ.ty.rename fun v => number (labelText (υ.label v)).toList := by
    rw [text_eq_of_labels, Ty.textWith_rename]
    exact Ty.read_textWith number (fun v => isName_labelText _) unmeasured
  exact ⟨number, injective, by rw [← read unmeasured, same, read unmeasured']⟩

theorem alphaEq_of_text_eq (unmeasured : σ.ty.isUnmeasured = true) (unmeasured' : τ.ty.isUnmeasured = true)
    (same : σ.text = τ.text) (quantified : σ.SameQuantified τ) : σ.AlphaEq τ := by
  obtain ⟨number, injective, equal⟩ := exists_numbers unmeasured unmeasured' same
  refine alphaEq_iff_labels.mpr (Ty.rename_eq_of_places equal fun path v w here there alike => ?_)
  refine labelText_inj ?_ (String.toList_inj.mp (injective alike))
  rw [label_mod (Ty.mem_freeVars_of_at? here), label_mod (Ty.mem_freeVars_of_at? there), quantified path v w here there]

/-- A quantified variable is not written like a variable of a scheme whose free variables are unlike it, unless
    that is quantified too. -/
theorem Unlike.quantified (unlike : τ.Unlike σ) (member : v ∈ σ.ty.freeVars) (found : w ∈ τ.ty.freeVars)
    (same : labelText (σ.label v) = labelText (τ.label w)) (quantified : v ∈ σ.vars) : w ∈ τ.vars := by
  by_contra free
  have bound : v ∈ σ.boundInOrder := mem_boundInOrder.mpr ⟨member, quantified⟩
  have place := List.idxOf_lt_length_of_mem bound
  have clash : "'" ++ letterName (σ.boundInOrder.idxOf v) = TyVar.text w := by
    simpa [labelText, label_of_mem bound, label_of_free free, Nat.add_mod, Nat.mul_add_div] using same
  obtain ⟨positive, equal⟩ := letterName_clash.mp clash
  rcases unlike w (Scheme.mem_freeVars.mpr ⟨found, free⟩) with zero | short
  · exact absurd zero positive.ne'
  · omega

theorem sameQuantified_of_text_eq (unmeasured : σ.ty.isUnmeasured = true) (unmeasured' : τ.ty.isUnmeasured = true)
    (same : σ.text = τ.text) (unlike : σ.Unlike τ) (unlike' : τ.Unlike σ) : σ.SameQuantified τ := by
  obtain ⟨number, injective, equal⟩ := exists_numbers unmeasured unmeasured' same
  intro path v w here there
  have alike := congrArg (Ty.at? · path) equal
  simp only [Ty.at?_rename, here, there, Option.map_some, Ty.rename_var, Option.some.injEq, Ty.var.injEq] at alike
  have names : labelText (σ.label v) = labelText (τ.label w) := String.toList_inj.mp (injective alike)
  have member := Ty.mem_freeVars_of_at? here
  have found := Ty.mem_freeVars_of_at? there
  exact ⟨unlike'.quantified member found names, unlike.quantified found member names.symm⟩

end Scheme

/-- The written form of a scheme without measures, and which of its variables are quantified, is the scheme up to
    the names of quantified variables. The written form alone is, among schemes in which no free variable has
    the name of a quantified one; the quantified variable at the place `i` has the name of the free variable `v`
    exactly if `i` is `26 * v + 19` and `v` is not `0`. -/
theorem scheme_text_eq_iff (σ τ : Scheme) (unmeasured : σ.ty.isUnmeasured = true)
    (unmeasured' : τ.ty.isUnmeasured = true) :
    (σ.AlphaEq τ ↔ σ.text = τ.text ∧ σ.SameQuantified τ) ∧
    (σ.Unlike τ → τ.Unlike σ → (σ.text = τ.text ↔ σ.AlphaEq τ)) ∧
    ∀ i v : Nat, "'" ++ letterName i = TyVar.text v ↔ 0 < v ∧ i = 26 * v + 19 := by
  refine ⟨⟨fun alpha => ⟨alpha.text_eq, alpha.sameQuantified⟩, ?_⟩, fun unlike unlike' => ⟨fun same => ?_, ?_⟩, ?_⟩
  · rintro ⟨same, quantified⟩
    exact Scheme.alphaEq_of_text_eq unmeasured unmeasured' same quantified
  · have quantified := Scheme.sameQuantified_of_text_eq unmeasured unmeasured' same unlike unlike'
    exact Scheme.alphaEq_of_text_eq unmeasured unmeasured' same quantified
  · exact Scheme.AlphaEq.text_eq
  · exact fun i v => letterName_clash

/-- A scheme over the first two variables of its type, with an entry that is repeated and one that is not used. -/
def looseScheme : Scheme :=
  ⟨[3, 1, 1, 7], .func (.var 1) (.func (.var 3) (.var 0))⟩

/-- The same scheme under other names, with no more entries than it needs. -/
def tidyScheme : Scheme :=
  ⟨[5, 1], .func (.var 5) (.func (.var 1) (.var 0))⟩

/-- Schemes that are written `'a -> 'b -> 't0` are equal up to names. -/
theorem looseScheme_text : looseScheme.text = "'a -> 'b -> 't0" ∧ tidyScheme.text = "'a -> 'b -> 't0" ∧
    looseScheme.AlphaEq tidyScheme := by
  have left : looseScheme.text = "'a -> 'b -> 't0" := by decide +kernel
  have right : tidyScheme.text = "'a -> 'b -> 't0" := by decide +kernel
  have unlike {σ : Scheme} (free : ∀ v ∈ σ.freeVars.toList, v = 0) (τ : Scheme) : σ.Unlike τ :=
    fun v member => .inl (free v (Std.ExtTreeSet.mem_toList.mpr member))
  have faithful := (scheme_text_eq_iff looseScheme tidyScheme (by decide) (by decide)).2.1
  exact ⟨left, right, (faithful (unlike (by decide +kernel) _) (unlike (by decide +kernel) _)).mp (left.trans right.symm)⟩

/-- The product of 46 quantified variables and one more, which is also quantified if it is among them. -/
def crowdedScheme (last : TyVar) : Scheme :=
  ⟨List.range' 2 46, .tuple (.var 2) (.var 3) ((List.range' 4 44).map .var ++ [.var last])⟩

/-- The last of 46 quantified variables is written like the free variable `'t1`, so a scheme with both is written
    like one with the quantified variable in both places. -/
theorem crowdedScheme_ambiguous :
    (crowdedScheme 1).ty.isUnmeasured = true ∧ (crowdedScheme 47).ty.isUnmeasured = true ∧
    (crowdedScheme 1).text = (crowdedScheme 47).text ∧ ¬ (crowdedScheme 1).AlphaEq (crowdedScheme 47) ∧
    47 ∈ (crowdedScheme 1).boundInOrder ∧ 1 ∈ (crowdedScheme 1).freeVars ∧
    Scheme.varText (crowdedScheme 1).places 47 = Scheme.varText (crowdedScheme 1).places 1 := by
  have free : 1 ∈ (crowdedScheme 1).freeVars := by decide +kernel
  have bound : 1 ∉ (crowdedScheme 47).freeVars := by decide +kernel
  refine ⟨by decide +kernel, by decide +kernel, by decide +kernel, fun alpha => bound (alpha.mem_freeVars free),
    by decide +kernel, free, by decide +kernel⟩

end LetPoly
