import Mathlib.Data.List.Basic
import Mathlib.Order.Lattice

/- Binary search in a sorted list for the first element that is not below a value, from
   any position. It is also found from a position reached by an earlier search, as long as
   all elements in front of that position are below the value. -/
namespace LowerBound
variable {α : Type*} [LinearOrder α]

def lowerBoundIn (xs : List α) (value : α) (first count : Nat) : Nat :=
  if count = 0 then first
  else
    let step := count / 2
    match xs[first + step]? with
    | none => first
    | some x =>
        if x < value then lowerBoundIn xs value (first + step + 1) (count - (step + 1))
        else lowerBoundIn xs value first step
termination_by count

def lowerBound (xs : List α) (value : α) (first : Nat) : Nat := lowerBoundIn xs value first (xs.length - first)

structure Parts (xs : List α) (value : α) (position : Nat) : Prop where
  inside : position ≤ xs.length
  before : ∀ i x, xs[i]? = some x → i < position → x < value
  behind : ∀ i x, xs[i]? = some x → position ≤ i → value ≤ x

theorem sorted_le {xs : List α} (sorted : xs.Pairwise (· ≤ ·)) {i j : Nat} {x y : α} (le : i ≤ j)
    (at_i : xs[i]? = some x) (at_j : xs[j]? = some y) : x ≤ y := by
  obtain ⟨i_inside, rfl⟩ := List.getElem?_eq_some_iff.mp at_i
  obtain ⟨j_inside, rfl⟩ := List.getElem?_eq_some_iff.mp at_j
  rcases Nat.eq_or_lt_of_le le with rfl | lt
  · exact le_refl _
  · exact List.pairwise_iff_getElem.mp sorted i j i_inside j_inside lt

theorem lowerBoundIn_parts {xs : List α} (sorted : xs.Pairwise (· ≤ ·)) (value : α) (first count : Nat)
    (inside : first + count ≤ xs.length) (before : ∀ i x, xs[i]? = some x → i < first → x < value)
    (behind : ∀ i x, xs[i]? = some x → first + count ≤ i → value ≤ x) :
    Parts xs value (lowerBoundIn xs value first count) := by
  induction count using Nat.strongRecOn generalizing first with
  | ind count ih =>
    rw [lowerBoundIn]
    by_cases done : count = 0
    · rw [if_pos done]
      exact ⟨by omega, before, fun i x found beyond => behind i x found (by omega)⟩
    · rw [if_neg done]
      obtain ⟨x, middle⟩ : ∃ x, xs[first + count / 2]? = some x := ⟨_, List.getElem?_eq_getElem (by omega)⟩
      simp only [middle]
      split
      · rename_i below
        apply ih (count - (count / 2 + 1)) (by omega) (first + count / 2 + 1) (by omega)
        · intro i x found early
          exact (sorted_le sorted (by omega) found middle).trans_lt below
        · intro i x found late
          exact behind i x found (by omega)
      · rename_i reached
        apply ih (count / 2) (by omega) first (by omega) before
        intro i x found late
        exact (not_lt.mp reached).trans (sorted_le sorted late middle found)

/-- The search parts the whole list when nothing in front of its start is out of place. -/
theorem lowerBound_parts {xs : List α} (sorted : xs.Pairwise (· ≤ ·)) {value : α} {first : Nat}
    (inside : first ≤ xs.length) (before : ∀ i x, xs[i]? = some x → i < first → x < value) :
    Parts xs value (lowerBound xs value first) := by
  apply lowerBoundIn_parts sorted value first _ (by omega) before
  intro i x found late
  have bound := (List.getElem?_eq_some_iff.mp found).1
  omega

/-- The value is in the list when the search stops at it. -/
theorem mem_iff_found {xs : List α} (sorted : xs.Pairwise (· ≤ ·)) {value : α} {position : Nat}
    (parts : Parts xs value position) : value ∈ xs ↔ xs[position]? = some value := by
  refine ⟨fun listed => ?_, List.mem_of_getElem?⟩
  obtain ⟨i, found⟩ := List.getElem?_of_mem listed
  rcases Nat.lt_or_ge i position with early | late
  · exact absurd (parts.before i value found early) (lt_irrefl value)
  · have bound := (List.getElem?_eq_some_iff.mp found).1
    obtain ⟨y, stopped⟩ : ∃ y, xs[position]? = some y := ⟨_, List.getElem?_eq_getElem (by omega)⟩
    have low := parts.behind position _ stopped (Nat.le_refl _)
    have high := sorted_le sorted late stopped found
    rw [stopped, le_antisymm low high]

/-- Some element lies between two values when the search for the lower one stops at or below the other. -/
theorem exists_between_iff {xs : List α} (sorted : xs.Pairwise (· ≤ ·)) {low high : α} {position : Nat}
    (parts : Parts xs low position) :
    (∃ x ∈ xs, low ≤ x ∧ x ≤ high) ↔ ∃ x, xs[position]? = some x ∧ x ≤ high := by
  constructor
  · rintro ⟨x, listed, above, below⟩
    obtain ⟨i, found⟩ := List.getElem?_of_mem listed
    rcases Nat.lt_or_ge i position with early | late
    · exact absurd (parts.before i x found early) (not_lt.mpr above)
    · have bound := (List.getElem?_eq_some_iff.mp found).1
      obtain ⟨y, stopped⟩ : ∃ y, xs[position]? = some y := ⟨_, List.getElem?_eq_getElem (by omega)⟩
      exact ⟨_, stopped, (sorted_le sorted late stopped found).trans below⟩
  · rintro ⟨x, stopped, below⟩
    exact ⟨x, List.mem_of_getElem? stopped, parts.behind position x stopped (Nat.le_refl _), below⟩

end LowerBound
