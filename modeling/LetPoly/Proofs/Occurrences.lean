import Mathlib.Data.List.Forall2
import LetPoly.Proofs.NormalForms
import LetPoly.Ty.Path

/-!
Where the variables of a type stand. The paths to variables are compared as words over numbers, so that one
path is less than another if it leads to a place further to the left. `visits` pairs the occurrences of
variables with their paths: these are all paths to variables (`mem_visits`), and they ascend
(`visits_ascending`). Main statements: a type has the variables that some path leads to
(`mem_freeVars_iff_at?`), and it lists them by their leftmost occurrences (`varsInOrder_leftmost`).
-/
namespace LetPoly

namespace Ty
variable {t u : Ty} {v : TyVar} {path : List Nat}

/-! ### Direct parts -/

/-- Induction over types in which all types that are no variables are one case. -/
theorem induct_parts {motive : Ty → Prop} (var : ∀ v, motive (.var v))
    (other : ∀ t, (∀ v, t ≠ .var v) → (∀ part ∈ t.parts, motive part) → motive t) (t : Ty) : motive t := by
  induction t with
  | prim p => exact other _ (by simp) (by simp [parts])
  | var v => exact var v
  | wrap w t ih => exact other _ (by simp) (by simpa [parts] using ih)
  | func a b iha ihb => exact other _ (by simp) (by simpa [parts] using ⟨iha, ihb⟩)
  | tuple a b ts iha ihb ihs => exact other _ (by simp) (by simpa [parts] using ⟨iha, ihb, ihs⟩)

/-- The direct parts of a type under a replacement, unless it is a variable and is itself replaced. -/
theorem parts_bind (other : ∀ v, t ≠ .var v) (f : TyVar → Ty) : (t.bind f).parts = t.parts.map (bind f) := by
  cases t with
  | var v => exact absurd rfl (other v)
  | _ => simp [bind, parts, bindList_eq_map]

/-- A path goes through a direct part. -/
theorem at?_cons {i : Nat} :
    t.at? (i :: path) = some u ↔ ∃ part, t.parts[i]? = some part ∧ part.at? path = some u := by
  rw [at?]
  cases t.parts[i]? <;> simp

/-- A replacement does not move what stands in a type. -/
theorem at?_bind (f : TyVar → Ty) (here : t.at? path = some u) : (t.bind f).at? path = some (u.bind f) := by
  induction path generalizing t with
  | nil =>
    cases here
    rfl
  | cons i path ih =>
    obtain ⟨part, found, inside⟩ := at?_cons.mp here
    have other (v : TyVar) : t ≠ .var v := by
      rintro rfl
      simp [parts] at found
    refine at?_cons.mpr ⟨part.bind f, ?_, ih inside⟩
    rw [parts_bind other, List.getElem?_map, found, Option.map_some]

/-! ### Paths to variables -/

/-- Paths in the direct part with the given number, as paths in the whole. -/
def inPart (i : Nat) (visits : List (List Nat × TyVar)) : List (List Nat × TyVar) :=
  visits.map fun visit => (i :: visit.1, visit.2)

mutual

/-- The variables of a type from left to right, each with the path to it. -/
def visits : Ty → List (List Nat × TyVar)
  | .prim _ => []
  | .var v => [([], v)]
  | .wrap _ t => inPart 0 t.visits
  | .func a b => inPart 0 a.visits ++ inPart 1 b.visits
  | .tuple a b ts => inPart 0 a.visits ++ inPart 1 b.visits ++ visitsFrom 2 ts

/-- The variables of direct parts that are numbered from `n` on. -/
def visitsFrom (n : Nat) : List Ty → List (List Nat × TyVar)
  | [] => []
  | t :: ts => inPart n t.visits ++ visitsFrom (n + 1) ts

end

theorem visitsFrom_eq_flatMap (n : Nat) (ts : List Ty) :
    visitsFrom n ts = (ts.zipIdx n).flatMap fun part => inPart part.2 part.1.visits := by
  induction ts generalizing n with
  | nil => rfl
  | cons t ts ih => rw [visitsFrom, ih, List.zipIdx_cons, List.flatMap_cons]

/-- The visits of a type are those of its direct parts. -/
theorem visits_eq_flatMap (other : ∀ v, t ≠ .var v) :
    t.visits = t.parts.zipIdx.flatMap fun part => inPart part.2 part.1.visits := by
  rw [← visitsFrom_eq_flatMap]
  cases t with
  | var v => exact absurd rfl (other v)
  | _ => simp [visits, parts, visitsFrom]

theorem mem_inPart {i : Nat} {visits : List (List Nat × TyVar)} :
    (path, v) ∈ inPart i visits ↔ ∃ rest, path = i :: rest ∧ (rest, v) ∈ visits := by
  simp only [inPart, List.mem_map, Prod.exists, Prod.mk.injEq]
  constructor
  · rintro ⟨rest, v, member, rfl, rfl⟩
    exact ⟨rest, rfl, member⟩
  · rintro ⟨rest, rfl, member⟩
    exact ⟨rest, v, member, rfl, rfl⟩

/-- The visited paths are all paths to variables. -/
theorem mem_visits : (path, v) ∈ t.visits ↔ t.at? path = some (.var v) := by
  induction t using induct_parts generalizing path with
  | var w =>
    cases path with
    | nil => simp [visits, at?, eq_comm]
    | cons i path => simp [visits, at?, parts]
  | other t other ih =>
    simp only [visits_eq_flatMap other, List.mem_flatMap, Prod.exists, List.mk_mem_zipIdx_iff_getElem?, mem_inPart]
    cases path with
    | nil => simp [at?, other v]
    | cons i path =>
      rw [at?_cons]
      constructor
      · rintro ⟨part, i, found, rest, ⟨⟩, member⟩
        exact ⟨part, found, (ih part (List.mem_of_getElem? found)).mp member⟩
      · rintro ⟨part, found, here⟩
        exact ⟨part, i, found, path, rfl, (ih part (List.mem_of_getElem? found)).mpr here⟩

/-- The visited paths go from left to right. -/
theorem visits_ascending (t : Ty) : t.visits.Pairwise fun visit later => visit.1 < later.1 := by
  induction t using induct_parts with
  | var w => exact List.pairwise_singleton _ _
  | other t other ih =>
    -- Paths in one part have the same first step, paths in two parts have the numbers of these.
    rw [visits_eq_flatMap other, List.pairwise_flatMap]
    constructor
    · rintro ⟨part, i⟩ member
      have inside := ih part (List.mem_of_getElem? (List.mk_mem_zipIdx_iff_getElem?.mp member))
      simpa [inPart, List.pairwise_map, List.cons_lt_cons_iff] using inside
    · have numbers : (t.parts.zipIdx.map Prod.snd).Pairwise (· < ·) := by
        rw [List.zipIdx_map_snd]
        exact List.pairwise_lt_range'
      refine (List.pairwise_map.mp numbers).imp fun {part later} less => ?_
      rintro ⟨path, v⟩ member ⟨path', w⟩ member'
      obtain ⟨rest, rfl, -⟩ := mem_inPart.mp member
      obtain ⟨rest', rfl, -⟩ := mem_inPart.mp member'
      exact List.cons_lt_cons_iff.mpr (.inl less)

theorem map_snd_inPart (i : Nat) (visits : List (List Nat × TyVar)) :
    (inPart i visits).map Prod.snd = visits.map Prod.snd := by
  simp [inPart]

theorem occurrencesBefore_eq_visits (t : Ty) (rest : List TyVar) :
    t.occurrencesBefore rest = t.visits.map Prod.snd ++ rest := by
  induction t generalizing rest with
  | prim p => rfl
  | var v => rfl
  | wrap w t ih => rw [occurrencesBefore, visits, map_snd_inPart, ih]
  | func a b iha ihb =>
    rw [occurrencesBefore, visits, List.map_append, map_snd_inPart, map_snd_inPart, iha, ihb, List.append_assoc]
  | tuple a b ts iha ihb ihs =>
    have tail (n : Nat) : occurrencesBeforeList rest ts = (visitsFrom n ts).map Prod.snd ++ rest := by
      clear iha ihb
      induction ts generalizing n with
      | nil => rfl
      | cons t ts ih =>
        simp only [List.mem_cons, forall_eq_or_imp] at ihs
        rw [occurrencesBeforeList, visitsFrom, List.map_append, map_snd_inPart, ihs.1, ih ihs.2 (n + 1),
          List.append_assoc]
    simp only [occurrencesBefore, visits, List.map_append, map_snd_inPart, iha, ihb, tail 2, List.append_assoc]

/-- The visits are the occurrences of variables in turn. -/
theorem map_snd_visits (t : Ty) : t.visits.map Prod.snd = t.occurrences := by
  rw [occurrences, occurrencesBefore_eq_visits, List.append_nil]

/-- The variables of a type are those that some path leads to. -/
theorem mem_freeVars_iff_at? : v ∈ t.freeVars ↔ ∃ path, t.at? path = some (.var v) := by
  rw [← mem_occurrences, ← map_snd_visits]
  simp [mem_visits]

theorem mem_freeVars_of_at? (here : t.at? path = some (.var v)) : v ∈ t.freeVars :=
  mem_freeVars_iff_at?.mpr ⟨path, here⟩

/-- The path leads to the leftmost occurrence of a variable: in lexicographic order no path to the variable is
    before it. -/
def Leftmost (t : Ty) (v : TyVar) (path : List Nat) : Prop :=
  t.at? path = some (.var v) ∧ ∀ other, t.at? other = some (.var v) → ¬ other < path

end Ty

/-! ### First visits -/

/-- The path is the least one at which a variable is visited. -/
def FirstVisit (visits : List (List Nat × TyVar)) (v : TyVar) (path : List Nat) : Prop :=
  (path, v) ∈ visits ∧ ∀ other, (other, v) ∈ visits → ¬ other < path

section
variable {visits : List (List Nat × TyVar)} {v w : TyVar} {path start : List Nat}

theorem firstVisit_visits {t : Ty} : FirstVisit t.visits v path ↔ t.Leftmost v path := by
  simp only [FirstVisit, Ty.Leftmost, Ty.mem_visits]

/-- A visit of another variable does not matter. -/
theorem FirstVisit.cons (first : FirstVisit visits v path) (differs : v ≠ w) :
    FirstVisit ((start, w) :: visits) v path := by
  refine ⟨List.mem_cons_of_mem _ first.1, fun other member => ?_⟩
  rcases List.mem_cons.mp member with same | member
  · exact absurd (congrArg Prod.snd same) differs
  · exact first.2 other member

theorem firstVisit_head (least : ∀ visit ∈ visits, start < visit.1) : FirstVisit ((start, w) :: visits) w start := by
  refine ⟨List.mem_cons_self, fun other member => ?_⟩
  rcases List.mem_cons.mp member with same | member
  · cases same
    exact List.lt_irrefl start
  · exact List.lt_asymm (least (other, w) member)

end

namespace VarSet

theorem nodup_unseen (seen : VarSet) (vs : List TyVar) : (unseen seen vs).Nodup := by
  induction vs generalizing seen with
  | nil => exact List.nodup_nil
  | cons v vs ih =>
    rw [unseen]
    by_cases old : v ∈ seen
    · rw [if_pos old]
      exact ih seen
    · rw [if_neg old, List.nodup_cons]
      refine ⟨fun again => ?_, ih _⟩
      exact (mem_unseen.mp again).2 Std.ExtTreeSet.mem_insert_self

/-- Of visits whose paths ascend, the variables that are not seen are listed by their first visits. -/
theorem unseen_firstVisit {visits : List (List Nat × TyVar)}
    (ascending : visits.Pairwise fun visit later => visit.1 < later.1) (seen : VarSet) :
    ∃ paths, List.Forall₂ (fun v path => v ∉ seen ∧ FirstVisit visits v path)
        (unseen seen (visits.map Prod.snd)) paths ∧ paths.Sublist (visits.map Prod.fst) := by
  induction visits generalizing seen with
  | nil => exact ⟨[], .nil, .slnil⟩
  | cons visit visits ih =>
    obtain ⟨start, w⟩ := visit
    obtain ⟨least, ascending⟩ := List.pairwise_cons.mp ascending
    rw [List.map_cons, List.map_cons, unseen]
    by_cases old : w ∈ seen
    · obtain ⟨paths, firsts, sublist⟩ := ih ascending seen
      rw [if_pos old]
      refine ⟨paths, firsts.imp ?_, sublist.cons start⟩
      rintro v path ⟨new, first⟩
      exact ⟨new, first.cons fun same => new (same ▸ old)⟩
    · obtain ⟨paths, firsts, sublist⟩ := ih ascending (seen.insert w)
      rw [if_neg old]
      refine ⟨start :: paths, .cons ⟨old, firstVisit_head least⟩ (firsts.imp ?_), sublist.cons_cons start⟩
      rintro v path ⟨new, first⟩
      rw [Std.ExtTreeSet.mem_insert, Std.LawfulEqCmp.compare_eq_iff_eq, not_or] at new
      exact ⟨new.2, first.cons (Ne.symm new.1)⟩

end VarSet

namespace Ty

theorem varsInOrder_nodup (t : Ty) : t.varsInOrder.Nodup :=
  VarSet.nodup_unseen ∅ t.occurrences

/-- The variables of a type are listed by their leftmost occurrences. -/
theorem varsInOrder_leftmost (t : Ty) :
    ∃ paths, List.Forall₂ t.Leftmost t.varsInOrder paths ∧ paths.Pairwise (· < ·) := by
  obtain ⟨paths, firsts, sublist⟩ := VarSet.unseen_firstVisit t.visits_ascending ∅
  rw [map_snd_visits] at firsts
  refine ⟨paths, firsts.imp ?_, (List.pairwise_map.mpr t.visits_ascending).sublist sublist⟩
  exact fun v path first => firstVisit_visits.mp first.2

end Ty

end LetPoly
