import LetPoly.Ty.Text

/-!
Reading written forms back. A text is cut at its marks, which are blanks, parentheses, slashes and carets
(`tokens`). The tokens are taken one by one; what is read since an open parenthesis is a draft, and a closed
parenthesis puts a draft into the one outside of it (`Reader.run`). Nothing is refused: a reader is there to
undo a printer, and a printer that some reader undoes writes no two values alike.
-/
namespace LetPoly

/-- The characters that stand between words. -/
def isMark (c : Char) : Bool :=
  c = ' ' || c = '(' || c = ')' || c = '/' || c = '^'

/-- A piece of a written form. -/
inductive Token where
  | mark (c : Char)
  | word (letters : List Char)
  deriving DecidableEq, Repr

/-- A character joins the word that comes next, if one does. -/
def Token.join (c : Char) : List Token → List Token
  | .word letters :: rest => .word (c :: letters) :: rest
  | rest => .word [c] :: rest

/-- The marks and the words between them. -/
def tokens : List Char → List Token
  | [] => []
  | c :: cs => if isMark c then .mark c :: tokens cs else Token.join c (tokens cs)

theorem Token.join_append (c : Char) (xs : List Token) {ys : List Token}
    (apart : ∀ letters, ys.head? ≠ some (.word letters)) : Token.join c (xs ++ ys) = Token.join c xs ++ ys := by
  cases xs with
  | nil =>
    cases ys with
    | nil => rfl
    | cons y ys =>
      cases y with
      | mark m => rfl
      | word letters => exact absurd rfl (apart letters)
  | cons x xs => cases x <;> rfl

/-- A text may be cut before a mark. -/
theorem tokens_append (xs : List Char) {ys : List Char} (marked : ∀ c ∈ ys.head?, isMark c = true) :
    tokens (xs ++ ys) = tokens xs ++ tokens ys := by
  have apart (letters : List Char) : (tokens ys).head? ≠ some (.word letters) := by
    cases ys with
    | nil => simp [tokens]
    | cons y ys => simp [tokens, marked y (by simp)]
  induction xs with
  | nil => rfl
  | cons x xs ih =>
    by_cases mark : isMark x = true
    · simp [tokens, mark, ih]
    · simp [tokens, mark, ih, Token.join_append x _ apart]

/-- The text can stand as a word between marks. -/
def Plain (text : String) : Prop :=
  text.toList ≠ [] ∧ ∀ c ∈ text.toList, isMark c = false

instance (text : String) : Decidable (Plain text) :=
  decidable_of_iff (text.toList ≠ [] ∧ text.toList.all (fun c => !isMark c) = true) (by simp [Plain])

theorem tokens_of_plain {text : String} (plain : Plain text) : tokens text.toList = [.word text.toList] := by
  obtain ⟨nonempty, unmarked⟩ := plain
  generalize text.toList = letters at nonempty unmarked
  induction letters with
  | nil => exact absurd rfl nonempty
  | cons c cs ih =>
    simp only [List.mem_cons, forall_eq_or_imp] at unmarked
    cases cs with
    | nil => simp [tokens, unmarked.1, Token.join]
    | cons d cs => rw [tokens, ih (by simp) unmarked.2, if_neg (by simp [unmarked.1]), Token.join]

theorem plain_append {a b : String} (first : Plain a) (unmarked : ∀ c ∈ b.toList, isMark c = false) : Plain (a ++ b) := by
  refine ⟨by simp [first.1], fun c member => ?_⟩
  rw [String.toList_append, List.mem_append] at member
  rcases member with member | member
  · exact first.2 c member
  · exact unmarked c member

theorem isMark_of_isAlphanum {c : Char} (alphanumeric : c.isAlphanum = true) : isMark c = false := by
  rw [Bool.eq_false_iff]
  intro mark
  simp only [isMark, Bool.or_eq_true, decide_eq_true_eq] at mark
  rcases mark with (((rfl | rfl) | rfl) | rfl) | rfl <;> exact absurd alphanumeric (by decide)

/-- Digits are no marks. -/
theorem plain_repr (n : Nat) : Plain (toString n) := by
  rw [Nat.toString_eq_ofList_toDigits, Plain, String.toList_ofList]
  refine ⟨Nat.toDigits_ne_nil, fun c member => ?_⟩
  have digit : c.isDigit = true := Nat.isDigit_of_mem_toDigits (by decide) (by decide) member
  exact isMark_of_isAlphanum (by simp [Char.isAlphanum, digit])

/-! ### Readers -/

/-- How drafts of type `δ` are made: what a draft begins as, what a word or a mark does to it, and how a draft
    in parentheses goes into the one outside of it. -/
structure Reader (δ : Type) where
  start : δ
  word : List Char → δ → δ
  mark : Char → δ → δ
  nest : δ → δ → δ

namespace Reader
variable {δ : Type} (R : Reader δ)

/-- Takes a token. The state is the draft that is being made and those outside of it, from the inside out. -/
def step : δ × List δ → Token → δ × List δ
  | (draft, outer), .word letters => (R.word letters draft, outer)
  | (draft, outer), .mark c =>
    if c = '(' then (R.start, draft :: outer)
    else if c = ')' then
      match outer with
      | [] => (draft, [])
      | next :: outer => (R.nest draft next, outer)
    else (R.mark c draft, outer)

/-- Takes the tokens of a text. -/
def run (text : String) (state : δ × List δ) : δ × List δ :=
  (tokens text.toList).foldl R.step state

/-- The draft of a whole text. -/
def read (text : String) : δ :=
  (R.run text (R.start, [])).1

variable {a b text : String} {state : δ × List δ} {draft inner : δ} {outer : List δ}

theorem run_append (marked : ∀ c ∈ b.toList.head?, isMark c = true) :
    R.run (a ++ b) state = R.run b (R.run a state) := by
  simp [run, tokens_append _ marked]

theorem run_plain (plain : Plain text) : R.run text (draft, outer) = (R.word text.toList draft, outer) := by
  simp [run, tokens_of_plain plain, step]

theorem run_mark (c : Char) (first : a.toList = [c]) (mark : isMark c = true) (inside : c ≠ '(' ∧ c ≠ ')') :
    R.run (a ++ b) (draft, outer) = R.run b (R.mark c draft, outer) := by
  simp [run, first, tokens, mark, step, inside]

/-- A word between blanks. -/
theorem run_between (word : String) (plain : Plain word) : R.run (" " ++ word ++ " " ++ b) (draft, outer) =
    R.run b (R.mark ' ' (R.word word.toList (R.mark ' ' draft)), outer) := by
  rw [String.append_assoc, String.append_assoc, run_mark R ' ' rfl rfl (by decide), run_append R (by simp [isMark]),
    run_plain R plain, run_mark R ' ' rfl rfl (by decide)]

/-- A draft in parentheses goes into the one outside. -/
theorem run_parentheses (inside : R.run text (R.start, draft :: outer) = (inner, draft :: outer)) :
    R.run ("(" ++ text ++ ")") (draft, outer) = (R.nest inner draft, outer) := by
  have opened : R.run ("(" ++ text) (draft, outer) = (inner, draft :: outer) := by
    rw [← inside]
    simp [run, tokens, isMark, step]
  rw [run_append R (by simp [isMark]), opened]
  simp [run, tokens, isMark, step]

end Reader

end LetPoly
