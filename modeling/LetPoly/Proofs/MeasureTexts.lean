import Std.Data.String.ToInt
import LetPoly.Proofs.Tokens
import LetPoly.Ty.Measured
import LetPoly.Unify

/-!
Written measures. The right side of a product has no parentheses, so a product and a quotient to the right of a
blank are written as if they were nested to the left. That is all that the written form forgets: a reader gives
back the measure nested to the left (`Reads`), and measures are written alike exactly if they differ in the
nesting of products and quotients (`measure_text_eq_iff`).
-/
namespace LetPoly

namespace Measure

/-! ### Nesting -/

/-- The measures differ in nothing but where products and quotients to the right of a product are nested. -/
inductive Reassociated : Measure → Measure → Prop where
  | product (l m r : Measure) : Reassociated (.product l (.product m r)) (.product (.product l m) r)
  | quotient (l n d : Measure) : Reassociated (.product l (.quotient n d)) (.quotient (.product l n) d)
  | refl (m : Measure) : Reassociated m m
  | symm {m n : Measure} : Reassociated m n → Reassociated n m
  | trans {m n k : Measure} : Reassociated m n → Reassociated n k → Reassociated m k
  | inProduct {l l' r r' : Measure} : Reassociated l l' → Reassociated r r' →
    Reassociated (.product l r) (.product l' r')
  | inQuotient {n n' d d' : Measure} : Reassociated n n' → Reassociated d d' →
    Reassociated (.quotient n d) (.quotient n' d')
  | inPower {b b' : Measure} (e : Int) : Reassociated b b' → Reassociated (.power b e) (.power b' e)

/-- The measure nested to the left, with its first operand joined to what stands before it. -/
def attached (join : Measure → Measure) : Measure → Measure
  | product left right => right.attached (.product (left.attached join))
  | quotient numerator denominator => .quotient (numerator.attached join) (denominator.attached id)
  | power base exponent => join (.power (base.attached id) exponent)
  | one => join .one
  | named name => join (.named name)

/-- The right side of every product is atomic, so that nothing has to be nested to the left. -/
def isLeftNested : Measure → Bool
  | one | named _ => true
  | product left right => left.isLeftNested && right.isAtomic && right.isLeftNested
  | quotient numerator denominator => numerator.isLeftNested && denominator.isLeftNested
  | power base _ => base.isLeftNested

variable {m n : Measure} {join : Measure → Measure}

theorem attached_of_atomic (atomic : m.isAtomic = true) (join : Measure → Measure) :
    m.attached join = join (m.attached id) := by
  cases m <;> simp_all [isAtomic, attached]

theorem attached_of_leftNested (nested : m.isLeftNested = true) : m.attached id = m := by
  induction m with
  | one => rfl
  | named name => rfl
  | product l r ihl ihr =>
    simp only [isLeftNested, Bool.and_eq_true] at nested
    rw [attached, attached_of_atomic nested.1.2, ihl nested.1.1, ihr nested.2]
  | quotient n d ihn ihd =>
    simp only [isLeftNested, Bool.and_eq_true] at nested
    rw [attached, ihn nested.1, ihd nested.2]
  | power b e ih => rw [attached, ih nested, id]

/-- What stands left of an operand can go into it: nothing, or a product with the operand on its right. -/
structure Movable (join : Measure → Measure) : Prop where
  congr : ∀ {m n}, Reassociated m n → Reassociated (join m) (join n)
  product : ∀ l r, Reassociated (join (.product l r)) (.product (join l) r)
  quotient : ∀ n d, Reassociated (join (.quotient n d)) (.quotient (join n) d)

theorem movable_id : Movable id where
  congr same := same
  product _ _ := .refl _
  quotient _ _ := .refl _

theorem movable_product (l : Measure) : Movable (.product l) where
  congr same := .inProduct (.refl l) same
  product m r := .product l m r
  quotient n d := .quotient l n d

theorem reassociated_attached (movable : Movable join) (m : Measure) : Reassociated (join m) (m.attached join) := by
  -- `join` grows on the way to the right: once the left side of a product has taken it in, it is that product.
  induction m generalizing join with
  | one => exact .refl _
  | named name => exact .refl _
  | product l r ihl ihr =>
    exact (movable.product l r).trans ((Reassociated.inProduct (ihl movable) (.refl r)).trans (ihr (movable_product _)))
  | quotient n d ihn ihd => exact (movable.quotient n d).trans (.inQuotient (ihn movable) (ihd movable_id))
  | power b e ih => exact movable.congr (.inPower e (ih movable_id))

/-- Measures that differ in nesting are the same once they are nested to the left. -/
theorem Reassociated.attached_eq (same : Reassociated m n) (join : Measure → Measure) : m.attached join = n.attached join := by
  induction same generalizing join with
  | product l m r => rfl
  | quotient l n d => rfl
  | refl m => rfl
  | symm _ ih => exact (ih join).symm
  | trans _ _ first second => exact (first join).trans (second join)
  | inProduct _ _ first second => rw [attached, attached, first, second]
  | inQuotient _ _ first second => rw [attached, attached, first, second]
  | inPower e _ ih => rw [attached, attached, ih]

theorem reassociated_iff : Reassociated m n ↔ m.attached id = n.attached id := by
  refine ⟨fun same => same.attached_eq id, fun same => ?_⟩
  have left := reassociated_attached movable_id m
  have right := reassociated_attached movable_id n
  exact left.trans (same ▸ right.symm)

instance : Decidable (Reassociated m n) :=
  decidable_of_iff _ reassociated_iff.symm

/-- Nesting is not written. -/
theorem Reassociated.text_eq (same : Reassociated m n) : m.isAtomic = n.isAtomic ∧ m.text = n.text := by
  induction same with
  | product l m r => simp [isAtomic, text, String.append_assoc]
  | quotient l n d => simp [isAtomic, text, String.append_assoc]
  | refl m => simp
  | symm _ ih => exact ⟨ih.1.symm, ih.2.symm⟩
  | trans _ _ first second => exact ⟨first.1.trans second.1, first.2.trans second.2⟩
  | inProduct _ _ first second => simp [isAtomic, text, first.2, second.2]
  | inQuotient _ _ first second => exact ⟨rfl, by simp only [text, first.2, second.1, second.2]⟩
  | inPower e _ ih => exact ⟨rfl, by simp only [text, ih.1, ih.2]⟩

/-! ### Reading what is written -/

/-- The names can stand as words beside `1`, as those that are made of letters can. -/
def Legible (m : Measure) : Prop :=
  ∀ name ∈ m.names, Plain name ∧ name ≠ "1"

/-- What is read of a measure since the last open parenthesis: how an operand is joined to what stands left of it,
    and the operand that is being read. -/
structure Draft where
  join : Measure → Measure
  operand : Option Measure

namespace Draft

def value (draft : Draft) : Measure :=
  draft.join (draft.operand.getD .one)

/-- A word is an operand, or the exponent of one. -/
def word (letters : List Char) (draft : Draft) : Draft :=
  match draft.operand with
  | none => { draft with operand := some (if letters = "1".toList then .one else .named (String.ofList letters)) }
  | some base => { draft with operand := some (.power base ((String.ofList letters).toInt?.getD 0)) }

/-- A blank and a slash join what is read to what comes. -/
def mark (c : Char) (draft : Draft) : Draft :=
  if c = ' ' then { join := .product draft.value, operand := none }
  else if c = '/' then { join := .quotient draft.value, operand := none }
  else draft

end Draft

/-- The reader of measures. -/
def reader : Reader Draft where
  start := { join := id, operand := none }
  word := Draft.word
  mark := Draft.mark
  nest inner draft := { draft with operand := some inner.value }

/-- The measure as it is written below a quotient or a power. -/
def operandText (m : Measure) : String :=
  if m.isAtomic then m.text else "(" ++ m.text ++ ")"

/-- A written measure is read nested to the left, and as one operand where it is put in parentheses unless it is
    atomic. -/
structure Reads (m : Measure) : Prop where
  whole : ∀ join outer, ∃ draft, reader.run m.text ({ join, operand := none }, outer) = (draft, outer) ∧
    draft.value = m.attached join
  operand : ∀ join outer, reader.run m.operandText ({ join, operand := none }, outer) =
    ({ join, operand := some (m.attached id) }, outer)

theorem reads_of_atomic (atomic : m.isAtomic = true)
    (read : ∀ join outer, reader.run m.text ({ join, operand := none }, outer) =
      ({ join, operand := some (m.attached id) }, outer)) : Reads m where
  whole join outer := ⟨_, read join outer, (attached_of_atomic atomic join).symm⟩
  operand join outer := by rw [operandText, if_pos atomic, read]

theorem reads_of_compound (compound : m.isAtomic = false)
    (read : ∀ join outer, ∃ draft, reader.run m.text ({ join, operand := none }, outer) = (draft, outer) ∧
      draft.value = m.attached join) : Reads m where
  whole := read
  operand join outer := by
    obtain ⟨inner, inside, value⟩ := read id ({ join, operand := none } :: outer)
    rw [operandText, compound, if_neg (by decide), Reader.run_parentheses reader inside]
    simp [reader, value]

theorem Reads.product (left : Reads m) (right : Reads n) : Reads (.product m n) := by
  refine reads_of_compound rfl fun join outer => ?_
  obtain ⟨draft, read, value⟩ := left.whole join outer
  -- The right side has no parentheses, so it is read on in the draft of the left side, and joined to it.
  obtain ⟨draft', read', value'⟩ := right.whole (.product (m.attached join)) outer
  refine ⟨draft', ?_, value'⟩
  rw [text, String.append_assoc, Reader.run_append _ (by simp [isMark]), read, Reader.run_mark _ ' ' rfl rfl (by decide),
    ← read', ← value]
  rfl

theorem Reads.quotient (left : Reads m) (right : Reads n) : Reads (.quotient m n) := by
  refine reads_of_compound rfl fun join outer => ?_
  obtain ⟨draft, read, value⟩ := left.whole join outer
  refine ⟨{ join := .quotient draft.value, operand := some (n.attached id) }, ?_, by simp [Draft.value, attached, ← value]⟩
  rw [text, String.append_assoc, Reader.run_append _ (by simp [isMark]), read, Reader.run_mark _ '/' rfl rfl (by decide)]
  exact right.operand (.quotient draft.value) outer

theorem plain_exponent (e : Int) : Plain (toString e) := by
  rw [Int.toString_eq_repr, Int.repr_eq_if]
  split
  · exact plain_repr e.toNat
  · exact plain_append (by decide) (plain_repr (-e).toNat).2

theorem Reads.power (base : Reads m) (e : Int) : Reads (.power m e) := by
  refine reads_of_atomic rfl fun join outer => ?_
  have text : (Measure.power m e).text = m.operandText ++ ("^" ++ toString e) := by
    rw [Measure.text, String.append_assoc]
    rfl
  rw [text, Reader.run_append _ (by simp [isMark]), base.operand, Reader.run_mark _ '^' rfl rfl (by decide),
    Reader.run_plain _ (plain_exponent e)]
  simp [reader, Draft.mark, Draft.word, attached, Int.toString_eq_repr, Int.toInt?_repr]

/-- The reader takes in every measure with legible names. -/
theorem reads_of_legible (legible : m.Legible) : Reads m := by
  induction m with
  | one =>
    refine reads_of_atomic rfl fun join outer => ?_
    rw [text, Reader.run_plain _ (by decide)]
    rfl
  | named name =>
    obtain ⟨plain, other⟩ := legible name (by simp [names])
    refine reads_of_atomic rfl fun join outer => ?_
    rw [text, Reader.run_plain _ plain]
    simpa [reader, Draft.word, attached] using mt String.toList_inj.mp other
  | product l r ihl ihr =>
    exact (ihl fun name member => legible name (by simp [names, member])).product
      (ihr fun name member => legible name (by simp [names, member]))
  | quotient n d ihn ihd =>
    exact (ihn fun name member => legible name (by simp [names, member])).quotient
      (ihd fun name member => legible name (by simp [names, member]))
  | power b e ih => exact (ih legible).power e

/-- The reader undoes the printer, up to nesting. -/
theorem read_text (legible : m.Legible) : (reader.read m.text).value = m.attached id := by
  obtain ⟨draft, read, value⟩ := (reads_of_legible legible).whole id []
  rw [← value]
  exact congrArg (fun state => Draft.value state.1) read

/-- Names that are made of letters are legible. -/
theorem legible_of_letters (letters : ∀ name ∈ m.names, name ≠ "" ∧ name.toList.all Char.isAlpha = true) : m.Legible := by
  intro name member
  obtain ⟨nonempty, alpha⟩ := letters name member
  rw [List.all_eq_true] at alpha
  refine ⟨⟨by simpa using nonempty, fun c inside => ?_⟩, ?_⟩
  · exact isMark_of_isAlphanum (by simp [Char.isAlphanum, alpha c inside])
  · rintro rfl
    exact absurd (alpha '1' (by decide)) (by decide)

end Measure

/-- Measures are written alike exactly if they differ in the nesting of products and quotients to the right of a
    product, so the written form tells apart those that are nested to the left. Measured types with different
    measures do not unify, and the two sides of the error are written alike exactly if the measures are. -/
theorem measure_text_eq_iff (m n : Measure) (legible : m.Legible) (legible' : n.Legible) :
    (m.text = n.text ↔ m.Reassociated n) ∧
    (m.isLeftNested = true → n.isLeftNested = true → (m.text = n.text ↔ m = n)) ∧
    ∀ t, m ≠ n → unify (.measured t m) (.measured t n) = .error (.mismatch (.measured t m) (.measured t n)) ∧
      ((Ty.measured t m).text = (Ty.measured t n).text ↔ m.Reassociated n) := by
  have written : m.text = n.text ↔ m.Reassociated n := by
    refine ⟨fun same => ?_, fun same => same.text_eq.2⟩
    rw [Measure.reassociated_iff, ← Measure.read_text legible, same, Measure.read_text legible']
  refine ⟨written, fun nested nested' => ?_, fun t different => ⟨?_, ?_⟩⟩
  · rw [written, Measure.reassociated_iff, Measure.attached_of_leftNested nested, Measure.attached_of_leftNested nested']
  · have clash : Unify.move (.measured t m) (.measured t n) = .error (.mismatch (.measured t m) (.measured t n)) := by
      simp [Unify.move, different]
    rw [unify_eq_solve, Unify.solve_error clash]
  · simp [Ty.text, Ty.textWith, written]

/-- The measure `kg m/s^2`. -/
def newton : Measure :=
  .quotient (.product (.named "kg") (.named "m")) (.power (.named "s") 2)

/-- The measure `kg` by `m/s^2`. -/
def newtonByParts : Measure :=
  .product (.named "kg") (.quotient (.named "m") (.power (.named "s") 2))

theorem newton_text : newton.Legible ∧ newtonByParts.Legible ∧ newton.text = newtonByParts.text ∧
    unify (.measured .float newton) (.measured .float newtonByParts) =
      .error (.mismatch (.measured .float newton) (.measured .float newtonByParts)) := by
  have legible : newton.Legible := Measure.legible_of_letters (by decide)
  have legible' : newtonByParts.Legible := Measure.legible_of_letters (by decide)
  have written := measure_text_eq_iff newton newtonByParts legible legible'
  exact ⟨legible, legible', written.1.mpr (by decide), (written.2.2 .float (by decide)).1⟩

/-- `(kg m) s` and `kg (m s)` are different measures, and their mismatch has the same text on both sides. -/
theorem nestedProducts_ambiguous :
    let left := Measure.product (.product (.named "kg") (.named "m")) (.named "s")
    let right := Measure.product (.named "kg") (.product (.named "m") (.named "s"))
    left.names = ["kg", "m", "s"] ∧ right.names = ["kg", "m", "s"] ∧ left ≠ right ∧ left.text = right.text ∧
    unify (.measured .float left) (.measured .float right) =
      .error (.mismatch (.measured .float left) (.measured .float right)) ∧
    (UnifyError.mismatch (.measured .float left) (.measured .float right)).message =
      "type mismatch: expected float<kg m s>, found float<kg m s>" := by
  refine ⟨rfl, rfl, by decide, by decide +kernel, by cbv, by decide +kernel⟩

end LetPoly
