import LetPoly.Proofs.Renaming
import LetPoly.Proofs.Tokens
import LetPoly.Ty.Measured

/-!
Written types are unambiguous. A reader undoes the printer on types without measures, whatever names its
variables have (`read_textWith`): a word puts a component to the product that is being read, `list` and
`option` wrap the last one, an arrow makes the product a parameter. So types that are written alike are equal
(`text_eq_iff_of_unmeasured`).
-/
namespace LetPoly

namespace Ty

/-- What is read of a type since the last open parenthesis: the parameters before the last arrow, and the
    components of the product after it, both with the last one first. -/
structure Draft where
  params : List Ty
  parts : List Ty

namespace Draft

/-- The product after the last arrow. -/
def product (draft : Draft) : Ty :=
  match draft.parts.reverse with
  | [] => .unit
  | [t] => t
  | a :: b :: ts => .tuple a b ts

/-- The type that is read. -/
def ty (draft : Draft) : Ty :=
  draft.params.foldl (fun result param => .func param result) draft.product

def push (t : Ty) (draft : Draft) : Draft :=
  { draft with parts := t :: draft.parts }

/-- Wraps the last component. -/
def wrap (w : Wrapper) (draft : Draft) : Draft :=
  { draft with parts := draft.parts.modifyHead (.wrap w) }

/-- Makes the product a parameter. -/
def arrow (draft : Draft) : Draft :=
  { params := draft.product :: draft.params, parts := [] }

end Draft

/-- The type without parts, or the variable, that a word names. -/
def leaf (number : List Char → TyVar) (word : List Char) : Ty :=
  match [Prim.int, .float, .bool, .char, .string, .unit].find? fun p => p.text.toList = word with
  | some p => .prim p
  | none => .var (number word)

/-- What a word does to a draft. -/
def readWord (number : List Char → TyVar) (word : List Char) : Draft → Draft :=
  if word = "list".toList then .wrap .list
  else if word = "option".toList then .wrap .option
  else if word = "->".toList then .arrow
  else if word = "*".toList then id
  else .push (leaf number word)

/-- The reader of types, for variables whose names have the given numbers. -/
def reader (number : List Char → TyVar) : Reader Draft where
  start := { params := [], parts := [] }
  word := readWord number
  mark _ := id
  nest inner := .push inner.ty

/-- The draft of a type that follows the given parameters. -/
def draft (params : List Ty) : Ty → Draft
  | .func a b => b.draft (a :: params)
  | .tuple a b ts => { params, parts := (a :: b :: ts).reverse }
  | t => { params, parts := [t] }

theorem ty_draft (params : List Ty) (t : Ty) :
    (t.draft params).ty = params.foldl (fun result param => .func param result) t := by
  induction t generalizing params with
  | func a b _ ih => simp [draft, ih]
  | tuple a b ts => simp [draft, Draft.ty, Draft.product]
  | _ => simp [draft, Draft.ty, Draft.product]

theorem arrow_draft {t : Ty} (plain : t.isFunc = false) (params : List Ty) :
    (t.draft params).arrow = { params := t :: params, parts := [] } := by
  cases t with
  | func a b => simp [isFunc] at plain
  | tuple a b ts => simp [draft, Draft.arrow, Draft.product]
  | _ => simp [draft, Draft.arrow, Draft.product]

/-! ### Reading what is written -/

theorem areUnmeasured_iff {ts : List Ty} : areUnmeasured ts = true ↔ ∀ t ∈ ts, t.isUnmeasured = true := by
  induction ts with
  | nil => simp [areUnmeasured]
  | cons t ts ih => simp [areUnmeasured, ih]

/-- The name of a variable as it can stand in a written type. -/
def IsName (text : String) : Prop :=
  ∃ letters : String, text = "'" ++ letters ∧ ∀ c ∈ letters.toList, isMark c = false

theorem IsName.plain {text : String} (isName : IsName text) : Plain text := by
  obtain ⟨letters, rfl, unmarked⟩ := isName
  exact plain_append (by decide) unmarked

theorem IsName.readWord {text : String} (isName : IsName text) (number : List Char → TyVar) :
    readWord number text.toList = .push (.var (number text.toList)) := by
  obtain ⟨letters, rfl, _⟩ := isName
  simp [Ty.readWord, leaf, Prim.text]

theorem readWord_prim (number : List Char → TyVar) (p : Prim) : readWord number p.text.toList = .push (.prim p) := by
  cases p <;> rfl

theorem plain_prim (p : Prim) : Plain p.text := by
  cases p <;> decide

theorem isCompound_rename (ρ : TyVar → TyVar) (t : Ty) : (t.rename ρ).isCompound = t.isCompound := by
  cases t <;> rfl

theorem isFunc_rename (ρ : TyVar → TyVar) (t : Ty) : (t.rename ρ).isFunc = t.isFunc := by
  cases t <;> rfl

section
variable (number : List Char → TyVar) (name : TyVar → String)

/-- The type whose variables are the numbers of their names. -/
def numbered (t : Ty) : Ty :=
  t.rename fun v => number (name v).toList

/-- A written type is read as its draft after parameters, and as a component where it is put in parentheses
    if it is compound. -/
structure Reads (t : Ty) : Prop where
  whole : ∀ params outer, (reader number).run (t.textWith name) ({ params, parts := [] }, outer) =
    ((t.numbered number name).draft params, outer)
  component : ∀ draft outer, (reader number).run (parenthesized t.isCompound (t.textWith name)) (draft, outer) =
    (draft.push (t.numbered number name), outer)

variable {number name} {t a b : Ty}

theorem reads_of_simple (simple : t.isCompound = false)
    (read : ∀ draft outer, (reader number).run (t.textWith name) (draft, outer) =
      (draft.push (t.numbered number name), outer)) : Reads number name t where
  whole params outer := by
    rw [read]
    cases t <;> simp_all [isCompound, numbered, draft, Draft.push]
  component draft outer := by simpa [parenthesized, simple] using read draft outer

theorem reads_of_compound (compound : t.isCompound = true)
    (read : ∀ params outer, (reader number).run (t.textWith name) ({ params, parts := [] }, outer) =
      ((t.numbered number name).draft params, outer)) : Reads number name t where
  whole := read
  component draft outer := by
    rw [compound]
    refine (Reader.run_parentheses _ (read [] (draft :: outer))).trans ?_
    simp [reader, ty_draft]

/-- A wrapped type is its element and the word of the wrapper. -/
theorem Reads.wrap (reads : Reads number name t) (w : Wrapper) (suffix : String) (plain : Plain suffix)
    (word : readWord number suffix.toList = .wrap w)
    (text : (Ty.wrap w t).textWith name = parenthesized t.isCompound (t.textWith name) ++ (" " ++ suffix)) :
    Reads number name (.wrap w t) := by
  refine reads_of_simple rfl fun draft outer => ?_
  rw [text, Reader.run_append _ (by simp [isMark]), reads.component, Reader.run_mark _ ' ' rfl rfl (by decide),
    Reader.run_plain _ plain]
  simp [reader, word, Draft.wrap, Draft.push, numbered]

/-- A parameter is put in parentheses if it is a function. -/
theorem Reads.param (reads : Reads number name a) (params : List Ty) (outer : List Draft) :
    ∃ draft : Draft, (reader number).run (parenthesized a.isFunc (a.textWith name)) ({ params, parts := [] }, outer) =
      (draft, outer) ∧ draft.arrow = { params := a.numbered number name :: params, parts := [] } := by
  cases func : a.isFunc with
  | true =>
    have compound : a.isCompound = true := by
      cases a <;> simp_all [isFunc, isCompound]
    have read := reads.component { params, parts := [] } outer
    rw [compound] at read
    exact ⟨_, read, rfl⟩
  | false =>
    exact ⟨_, reads.whole params outer, arrow_draft (by rw [numbered, isFunc_rename, func]) params⟩

theorem Reads.func (first : Reads number name a) (second : Reads number name b) : Reads number name (.func a b) := by
  refine reads_of_compound rfl fun params outer => ?_
  obtain ⟨draft, read, arrow⟩ := first.param params outer
  have text : (Ty.func a b).textWith name =
      parenthesized a.isFunc (a.textWith name) ++ (" " ++ "->" ++ " " ++ b.textWith name) := by
    rw [textWith, String.append_assoc]
    rfl
  have taken : (reader number).mark ' ' ((reader number).word "->".toList ((reader number).mark ' ' draft)) =
      { params := a.numbered number name :: params, parts := [] } := arrow
  rw [text, Reader.run_append _ (by simp [isMark]), read, Reader.run_between _ "->" (by decide), taken]
  exact second.whole _ outer

theorem restText_marked (ts : List Ty) : ∀ c ∈ (restText name ts).toList.head?, isMark c = true := by
  cases ts <;> simp [restText, isMark]

/-- A star and a component after it. -/
theorem Reads.star (reads : Reads number name t) (ts : List Ty) (draft : Draft) (outer : List Draft) :
    (reader number).run (" * " ++ parenthesized t.isCompound (t.textWith name) ++ restText name ts) (draft, outer) =
      (reader number).run (restText name ts) (draft.push (t.numbered number name), outer) := by
  rw [String.append_assoc]
  refine (Reader.run_between (reader number) "*" (by decide)).trans ?_
  rw [Reader.run_append _ (restText_marked ts)]
  exact congrArg _ (reads.component draft outer)

theorem reads_rest {ts : List Ty} (reads : ∀ t ∈ ts, Reads number name t) (draft : Draft) (outer : List Draft) :
    (reader number).run (restText name ts) (draft, outer) =
      ({ draft with parts := (ts.map (numbered number name)).reverse ++ draft.parts }, outer) := by
  induction ts generalizing draft with
  | nil => rfl
  | cons t ts ih =>
    simp only [List.mem_cons, forall_eq_or_imp] at reads
    rw [restText, reads.1.star, ih reads.2]
    simp [Draft.push]

theorem Reads.tuple {ts : List Ty} (first : Reads number name a) (second : Reads number name b)
    (rest : ∀ t ∈ ts, Reads number name t) : Reads number name (.tuple a b ts) := by
  refine reads_of_compound rfl fun params outer => ?_
  have text : (Ty.tuple a b ts).textWith name = parenthesized a.isCompound (a.textWith name) ++
      (" * " ++ parenthesized b.isCompound (b.textWith name) ++ restText name ts) := by
    rw [textWith, String.append_assoc, String.append_assoc, String.append_assoc]
  rw [text, Reader.run_append _ (by simp [isMark]), first.component, second.star, reads_rest rest]
  simp [numbered, draft, Draft.push]

/-- The reader takes in every type without measures. -/
theorem reads_of_unmeasured (number : List Char → TyVar) (names : ∀ v, IsName (name v)) (unmeasured : t.isUnmeasured = true) :
    Reads number name t := by
  induction t with
  | prim p =>
    refine reads_of_simple rfl fun draft outer => ?_
    rw [textWith, Reader.run_plain _ (plain_prim p)]
    exact congrArg (fun f => (f draft, outer)) (readWord_prim number p)
  | var v =>
    refine reads_of_simple rfl fun draft outer => ?_
    rw [textWith, Reader.run_plain _ (names v).plain]
    exact congrArg (fun f => (f draft, outer)) ((names v).readWord number)
  | wrap w t ih =>
    cases w with
    | list => exact (ih unmeasured).wrap .list "list" (by decide) rfl rfl
    | option => exact (ih unmeasured).wrap .option "option" (by decide) rfl rfl
    | measured m => simp [isUnmeasured] at unmeasured
  | func a b iha ihb =>
    simp only [isUnmeasured, Bool.and_eq_true] at unmeasured
    exact (iha unmeasured.1).func (ihb unmeasured.2)
  | tuple a b ts iha ihb ihs =>
    simp only [isUnmeasured, Bool.and_eq_true, areUnmeasured_iff] at unmeasured
    exact (iha unmeasured.1.1).tuple (ihb unmeasured.1.2) fun t member => ihs t member (unmeasured.2 t member)

/-- The reader undoes the printer, up to the names of variables. -/
theorem read_textWith (number : List Char → TyVar) (names : ∀ v, IsName (name v)) (unmeasured : t.isUnmeasured = true) :
    ((reader number).read (t.textWith name)).ty = t.rename fun v => number (name v).toList := by
  have read := (reads_of_unmeasured number names unmeasured).whole [] []
  exact (congrArg (fun state => Draft.ty state.1) read).trans (ty_draft [] _)

end

end Ty

/-- The name of a variable as it is written by default. -/
theorem TyVar.isName_text (v : TyVar) : Ty.IsName v.text := by
  refine ⟨"t" ++ toString v, by rw [TyVar.text, ← String.append_assoc]; rfl, ?_⟩
  have plain : Plain ("t" ++ toString v) := plain_append (by decide) (plain_repr v).2
  exact plain.2

/-- The number in the name of a variable. -/
def TyVar.ofText (word : List Char) : TyVar :=
  Nat.ofDigitChars 10 (word.drop 2) 0

theorem TyVar.ofText_text (v : TyVar) : ofText v.text.toList = v := by
  simp [ofText, TyVar.text, Nat.ofDigitChars_ten_toDigits]

/-- Types without measures are written differently unless they are equal. -/
theorem text_eq_iff_of_unmeasured (a b : Ty) (unmeasured : a.isUnmeasured = true)
    (unmeasured' : b.isUnmeasured = true) : a.text = b.text ↔ a = b := by
  have undo {t : Ty} (unmeasured : t.isUnmeasured = true) : ((Ty.reader TyVar.ofText).read t.text).ty = t := by
    rw [Ty.text, Ty.read_textWith TyVar.ofText TyVar.isName_text unmeasured]
    simp [TyVar.ofText_text, Ty.rename_id]
  constructor
  · intro same
    rw [← undo unmeasured, same, undo unmeasured']
  · exact congrArg Ty.text

/-- The product of a pair and a type. -/
def nestedPair : Ty :=
  .tuple (.tuple .int (.var 0) []) (.list (.func (.var 1) .bool)) []

/-- The product of the same three types. -/
def flatTriple : Ty :=
  .tuple .int (.var 0) [.list (.func (.var 1) .bool)]

theorem nestedPair_text : nestedPair.isUnmeasured = true ∧ flatTriple.isUnmeasured = true ∧
    nestedPair.text ≠ flatTriple.text := by
  have unmeasured : nestedPair.isUnmeasured = true := by decide
  have unmeasured' : flatTriple.isUnmeasured = true := by decide
  have apart : nestedPair ≠ flatTriple := by decide
  exact ⟨unmeasured, unmeasured', mt (text_eq_iff_of_unmeasured _ _ unmeasured unmeasured').mp apart⟩

end LetPoly
