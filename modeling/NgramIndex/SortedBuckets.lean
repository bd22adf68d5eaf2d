import Mathlib.Data.List.Sort
import Mathlib.Order.Basic

/- Bucket sort by cuts. A non-decreasing list of cuts splits a linear order into buckets,
   and the bucket of an element is the number of cuts at or below it. Buckets that are
   sorted one by one and put after each other are a sort of the whole. -/
namespace SortedBuckets
variable {α β : Type*} [LinearOrder α]

/-- The bucket of an element. -/
def rank (cuts : List α) (x : α) : Nat := cuts.countP fun cut => decide (cut ≤ x)

theorem rank_le_length (cuts : List α) (x : α) : rank cuts x ≤ cuts.length := List.countP_le_length

theorem rank_cons_le {cut x : α} (cuts : List α) (below : cut ≤ x) : rank (cut :: cuts) x = rank cuts x + 1 := by
  simp [rank, below]

theorem rank_mono (cuts : List α) {x y : α} (le : x ≤ y) : rank cuts x ≤ rank cuts y := by
  apply List.countP_mono_left
  intro cut _ below
  exact decide_eq_true ((of_decide_eq_true below).trans le)

theorem lt_rank_iff {cuts : List α} (sorted : cuts.Pairwise (· ≤ ·)) (x : α) (i : Nat) :
    i < rank cuts x ↔ ∃ cut, cuts[i]? = some cut ∧ cut ≤ x := by
  induction cuts generalizing i with
  | nil => simp [rank]
  | cons cut cuts ih =>
    obtain ⟨least, rest⟩ := List.pairwise_cons.mp sorted
    by_cases below : cut ≤ x
    · rw [rank_cons_le cuts below]
      cases i with
      | zero => exact ⟨fun _ => ⟨cut, rfl, below⟩, fun _ => Nat.succ_pos _⟩
      | succ i => exact Nat.succ_lt_succ_iff.trans (ih rest i)
    · have none : rank (cut :: cuts) x = 0 := by
        apply List.countP_eq_zero.mpr
        intro other listed
        rw [decide_eq_true_eq]
        rcases List.mem_cons.mp listed with rfl | later
        · exact below
        · exact fun reach => below ((least other later).trans reach)
      rw [none]
      refine ⟨fun impossible => absurd impossible (Nat.not_lt_zero i), ?_⟩
      rintro ⟨other, found, reach⟩
      cases i with
      | zero =>
        cases found
        exact absurd reach below
      | succ i => exact absurd ((least other (List.mem_of_getElem? found)).trans reach) below

theorem buckets_perm (f : β → Nat) (k : Nat) (l : List β) (few : ∀ x ∈ l, f x < k) :
    ((List.range k).flatMap fun r => l.filter fun x => decide (f x = r)).Perm l := by
  induction k generalizing l with
  | zero =>
    cases l with
    | nil => exact List.Perm.refl []
    | cons x l => exact absurd (few x List.mem_cons_self) (Nat.not_lt_zero _)
  | succ k ih =>
    rw [List.range_succ, List.flatMap_append, List.flatMap_singleton]
    have lower := ih (l.filter fun x => decide (f x < k)) fun x listed => of_decide_eq_true (List.mem_filter.mp listed).2
    have same : ∀ r ∈ List.range k, (l.filter fun x => decide (f x = r)) =
        (l.filter fun x => decide (f x < k)).filter fun x => decide (f x = r) := by
      intro r inside
      have small := List.mem_range.mp inside
      rw [List.filter_filter]
      apply List.filter_congr
      intro x _
      by_cases here : f x = r
      · simp [here, small]
      · simp [here]
    have last : (l.filter fun x => decide (f x = k)) = l.filter fun x => !decide (f x < k) := by
      apply List.filter_congr
      intro x listed
      have bound := few x listed
      by_cases here : f x = k
      · simp [here]
      · simp [here, show f x < k by omega]
    rw [List.flatMap_congr same, last]
    exact (lower.append_right _).trans (List.filter_append_perm _ l)

theorem countP_split {p q : β → Bool} (stronger : ∀ x, p x = true → q x = true) (l : List β) :
    l.countP q = l.countP p + l.countP fun x => q x && !p x := by
  induction l with
  | nil => rfl
  | cons x l ih =>
    cases strong : p x with
    | true =>
      have weak := stronger x strong
      simp only [List.countP_cons, strong, weak, ih]
      simp
      omega
    | false =>
      simp only [List.countP_cons, strong, ih]
      simp
      omega

end SortedBuckets
