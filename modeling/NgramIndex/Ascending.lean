import Mathlib.Data.List.Destutter
import Mathlib.Data.List.Sort
import Mathlib.Data.List.Dedup

/- Strictly ascending lists as canonical finite sets over a linear order. Two
   of them with the same members are equal, so an algorithm on sets is checked
   by its members and by the order of its output alone. -/
namespace AscendingLists
variable {α : Type*} [LinearOrder α]

abbrev Ascending (l : List α) : Prop := l.Pairwise (· < ·)

theorem ascending_nodup {l : List α} (asc : Ascending l) : l.Nodup :=
  asc.imp fun lt => ne_of_lt lt

theorem ascending_ext {a b : List α} (left : Ascending a) (right : Ascending b)
    (same : ∀ x, x ∈ a ↔ x ∈ b) : a = b := by
  have perm : a.Perm b :=
    (List.perm_ext_iff_of_nodup (ascending_nodup left) (ascending_nodup right)).mpr same
  exact perm.eq_of_pairwise (fun x y _ _ xy yx => absurd yx (lt_asymm xy)) left right

/-- Dropping each element equal to its predecessor. -/
def unique (l : List α) : List α := l.destutter (· ≠ ·)

theorem mem_destutter'_ne (l : List α) (a x : α) :
    x ∈ l.destutter' (· ≠ ·) a ↔ x = a ∨ x ∈ l := by
  induction l generalizing a with
  | nil => simp
  | cons b l ih =>
    by_cases differ : a ≠ b
    · rw [List.destutter'_cons_pos _ differ, List.mem_cons, ih b, List.mem_cons]
    · rw [List.destutter'_cons_neg _ differ, ih a, List.mem_cons]
      have same : a = b := not_not.mp differ
      grind

@[simp] theorem mem_unique {l : List α} {x : α} : x ∈ unique l ↔ x ∈ l := by
  cases l with
  | nil => simp [unique]
  | cons a l => rw [unique, List.destutter_cons', mem_destutter'_ne, List.mem_cons]

theorem strict_of_steps {l : List α} (weak : l.IsChain (· ≤ ·)) (steps : l.IsChain (· ≠ ·)) :
    l.IsChain (· < ·) := by
  induction l with
  | nil => exact List.IsChain.nil
  | cons a l ih =>
    cases l with
    | nil => exact List.IsChain.singleton a
    | cons b l =>
      obtain ⟨le, weak⟩ := List.isChain_cons_cons.mp weak
      obtain ⟨ne, steps⟩ := List.isChain_cons_cons.mp steps
      exact List.isChain_cons_cons.mpr ⟨lt_of_le_of_ne le ne, ih weak steps⟩

theorem unique_ascending {l : List α} (sorted : l.Pairwise (· ≤ ·)) : Ascending (unique l) := by
  have kept : (unique l).Pairwise (· ≤ ·) := sorted.sublist (List.destutter_sublist _ l)
  have steps : (unique l).IsChain (· ≠ ·) := List.isChain_destutter _ l
  refine List.isChain_iff_pairwise.mp ?_
  exact strict_of_steps kept.isChain steps

def sortUnique (l : List α) : List α := unique (l.insertionSort (· ≤ ·))

@[simp] theorem mem_sortUnique {l : List α} {x : α} : x ∈ sortUnique l ↔ x ∈ l := by
  simp [sortUnique]

theorem sortUnique_ascending (l : List α) : Ascending (sortUnique l) :=
  unique_ascending (List.pairwise_insertionSort _ l)

theorem insertionSort_ascending {l : List α} (distinct : l.Nodup) :
    Ascending (l.insertionSort (· ≤ ·)) := by
  have sorted := List.pairwise_insertionSort (· ≤ ·) l
  have kept : (l.insertionSort (· ≤ ·)).Nodup := (List.perm_insertionSort _ l).nodup_iff.mpr distinct
  exact (sorted.and kept).imp fun ⟨le, ne⟩ => lt_of_le_of_ne le ne

theorem orderedInsert_ascending {l : List α} {a : α} (asc : Ascending l) (fresh : a ∉ l) :
    Ascending (l.orderedInsert (· ≤ ·) a) := by
  have sorted := List.Pairwise.orderedInsert a l (asc.imp le_of_lt)
  have distinct : (l.orderedInsert (· ≤ ·) a).Nodup :=
    (List.perm_orderedInsert _ a l).nodup_iff.mpr (List.nodup_cons.mpr ⟨fresh, ascending_nodup asc⟩)
  exact (sorted.and distinct).imp fun ⟨le, ne⟩ => lt_of_le_of_ne le ne

theorem sortUnique_eq {l m : List α} (asc : Ascending m) (same : ∀ x, x ∈ l ↔ x ∈ m) :
    sortUnique l = m :=
  ascending_ext (sortUnique_ascending l) asc fun x => mem_sortUnique.trans (same x)

theorem sortUnique_congr {l m : List α} (same : ∀ x, x ∈ l ↔ x ∈ m) :
    sortUnique l = sortUnique m :=
  sortUnique_eq (sortUnique_ascending m) fun x => (same x).trans mem_sortUnique.symm

@[simp] theorem sortUnique_eq_nil {l : List α} : sortUnique l = [] ↔ l = [] := by
  simp only [List.eq_nil_iff_forall_not_mem, mem_sortUnique]

/-- The maximal runs whose neighbours are joined, in order. -/
def runsBy {β : Type*} (joins : β → β → Bool) : List β → List (List β)
  | [] => []
  | a :: rest =>
      match runsBy joins rest with
      | (b :: run) :: others =>
          if joins a b then (a :: b :: run) :: others else [a] :: (b :: run) :: others
      | others => [a] :: others

section Runs
variable {β : Type*} {joins : β → β → Bool}

theorem runsBy_flatten (l : List β) : (runsBy joins l).flatten = l := by
  induction l with
  | nil => rfl
  | cons a rest ih =>
    rw [runsBy]
    split
    · rename_i b run others eq
      rw [eq] at ih
      split <;> simpa using ih
    · simpa using ih

theorem runsBy_ne_nil (l : List β) : ∀ run ∈ runsBy joins l, run ≠ [] := by
  induction l with
  | nil => simp [runsBy]
  | cons a rest ih =>
    rw [runsBy]
    split
    · rename_i b run others eq
      rw [eq] at ih
      split <;> simpa using ih
    · intro other present
      rcases List.mem_cons.mp present with rfl | later
      · simp
      · exact ih other later

theorem runsBy_chain (l : List β) : ∀ run ∈ runsBy joins l, run.IsChain fun a b => joins a b = true := by
  induction l with
  | nil => simp [runsBy]
  | cons a rest ih =>
    rw [runsBy]
    split
    · rename_i b run others eq
      rw [eq] at ih
      split
      · rename_i joined
        intro other present
        rcases List.mem_cons.mp present with rfl | later
        · exact List.isChain_cons_cons.mpr ⟨joined, ih _ (by simp)⟩
        · exact ih other (by simp [later])
      · intro other present
        rcases List.mem_cons.mp present with rfl | later
        · exact List.IsChain.singleton a
        · exact ih other later
    · intro other present
      rcases List.mem_cons.mp present with rfl | later
      · exact List.IsChain.singleton a
      · exact ih other later

end Runs

def ascendingRuns (l : List α) : List (List α) := runsBy (fun a b => decide (a ≤ b)) l

theorem ascendingRuns_sorted (l : List α) : ∀ run ∈ ascendingRuns l, run.Pairwise (· ≤ ·) := by
  intro run present
  have steps := runsBy_chain l run present
  exact List.isChain_iff_pairwise.mp (steps.imp fun a b joined => of_decide_eq_true joined)

/-- One round merges neighbours and copies an unpaired last run. -/
def mergePairs : List (List α) → List (List α)
  | left :: right :: others => left.merge right (fun a b => decide (a ≤ b)) :: mergePairs others
  | others => others

theorem mergePairs_length_le : ∀ runs : List (List α), (mergePairs runs).length ≤ runs.length
  | [] => by simp [mergePairs]
  | [_] => by simp [mergePairs]
  | _ :: _ :: others => by
      have shorter := mergePairs_length_le others
      simp only [mergePairs, List.length_cons]
      omega

theorem mergePairs_perm : ∀ runs : List (List α), (mergePairs runs).flatten.Perm runs.flatten
  | [] => by simp [mergePairs]
  | [_] => by simp [mergePairs]
  | left :: right :: others => by
      simp only [mergePairs, List.flatten_cons, ← List.append_assoc]
      exact (List.merge_perm_append _).append (mergePairs_perm others)

theorem merge_sorted {left right : List α} (hl : left.Pairwise (· ≤ ·))
    (hr : right.Pairwise (· ≤ ·)) :
    (left.merge right (fun a b => decide (a ≤ b))).Pairwise (· ≤ ·) := by
  have merged := @List.pairwise_merge _ (fun a b : α => decide (a ≤ b))
    (by simpa using fun a b c => le_trans) (by simpa using fun a b => le_total a b) left right
    (by simpa using hl) (by simpa using hr)
  simpa using merged

theorem mergePairs_sorted : ∀ runs : List (List α), (∀ run ∈ runs, run.Pairwise (· ≤ ·)) →
    ∀ run ∈ mergePairs runs, run.Pairwise (· ≤ ·)
  | [], sorted => sorted
  | [_], sorted => sorted
  | left :: right :: others, sorted => by
      intro run present
      rcases List.mem_cons.mp present with rfl | later
      · exact merge_sorted (sorted left (by simp)) (sorted right (by simp))
      · exact mergePairs_sorted others (fun r hr => sorted r (by simp [hr])) run later

def mergeRuns : List (List α) → List α
  | [] => []
  | [run] => run
  | left :: right :: others => mergeRuns (mergePairs (left :: right :: others))
termination_by runs => runs.length
decreasing_by
  have shorter := mergePairs_length_le others
  simp only [mergePairs, List.length_cons]
  omega

theorem mergeRuns_perm (runs : List (List α)) : (mergeRuns runs).Perm runs.flatten := by
  induction runs using mergeRuns.induct with
  | case1 => simp [mergeRuns]
  | case2 run => simp [mergeRuns]
  | case3 left right others ih =>
    rw [mergeRuns]
    exact ih.trans (mergePairs_perm _)

theorem mergeRuns_sorted (runs : List (List α)) (sorted : ∀ run ∈ runs, run.Pairwise (· ≤ ·)) :
    (mergeRuns runs).Pairwise (· ≤ ·) := by
  induction runs using mergeRuns.induct with
  | case1 => simp [mergeRuns]
  | case2 run =>
    rw [mergeRuns]
    exact sorted run (by simp)
  | case3 left right others ih =>
    rw [mergeRuns]
    exact ih (mergePairs_sorted _ sorted)

theorem mergeRuns_ascendingRuns (l : List α) : unique (mergeRuns (ascendingRuns l)) = sortUnique l := by
  have sorted := mergeRuns_sorted (ascendingRuns l) (ascendingRuns_sorted l)
  refine ascending_ext (unique_ascending sorted) (sortUnique_ascending l) fun x => ?_
  rw [mem_unique, mem_sortUnique, (mergeRuns_perm (ascendingRuns l)).mem_iff, ascendingRuns,
    runsBy_flatten]

theorem window_length {l : List Nat} {low width : Nat} (distinct : l.Nodup)
    (inside : ∀ x ∈ l, low ≤ x ∧ x < low + width) : l.length ≤ width := by
  have covered : l ⊆ List.range' low width := fun x present => List.mem_range'_1.mpr (inside x present)
  simpa using (List.subperm_of_subset distinct covered).length_le

theorem ascending_head_le {l : List α} {a : α} (asc : Ascending (a :: l)) :
    ∀ x ∈ a :: l, a ≤ x := by
  intro x present
  rcases List.mem_cons.mp present with rfl | later
  · exact le_refl _
  · exact le_of_lt ((List.pairwise_cons.mp asc).1 x later)

theorem ascending_le_getLast {l : List α} (asc : Ascending l) (nonempty : l ≠ []) :
    ∀ x ∈ l, x ≤ l.getLast nonempty := by
  intro x present
  rw [← List.dropLast_append_getLast nonempty] at asc present
  rcases List.mem_append.mp present with early | last
  · exact le_of_lt ((List.pairwise_append.mp asc).2.2 x early _ (by simp))
  · exact le_of_eq (List.mem_singleton.mp last)

def intersect : List α → List α → List α
  | [], _ => []
  | _, [] => []
  | a :: as, b :: bs =>
      if a < b then intersect as (b :: bs)
      else if b < a then intersect (a :: as) bs
      else a :: intersect as bs
termination_by as bs => as.length + bs.length

theorem mem_intersect {left right : List α} (hl : Ascending left) (hr : Ascending right) (x : α) :
    x ∈ intersect left right ↔ x ∈ left ∧ x ∈ right := by
  induction left, right using intersect.induct with
  | case1 => simp [intersect]
  | case2 left => cases left <;> simp [intersect]
  | case3 a as b bs below ih =>
    rw [intersect, if_pos below, ih (List.pairwise_cons.mp hl).2 hr]
    have absent : a ∉ b :: bs := fun present =>
      absurd (ascending_head_le hr a present) (not_le.mpr below)
    grind
  | case4 a as b bs not_below above ih =>
    rw [intersect, if_neg not_below, if_pos above, ih hl (List.pairwise_cons.mp hr).2]
    have absent : b ∉ a :: as := fun present =>
      absurd (ascending_head_le hl b present) (not_le.mpr above)
    grind
  | case5 a as b bs not_below not_above ih =>
    obtain rfl : a = b := le_antisymm (not_lt.mp not_above) (not_lt.mp not_below)
    obtain ⟨a_low, as_asc⟩ := List.pairwise_cons.mp hl
    obtain ⟨b_low, bs_asc⟩ := List.pairwise_cons.mp hr
    rw [intersect, if_neg not_below, if_neg not_above, List.mem_cons, ih as_asc bs_asc]
    grind

theorem intersect_sublist (left right : List α) : (intersect left right).Sublist left := by
  induction left, right using intersect.induct with
  | case1 => simp [intersect]
  | case2 left => cases left <;> simp [intersect]
  | case3 a as b bs below ih =>
    rw [intersect, if_pos below]
    exact ih.cons a
  | case4 a as b bs not_below above ih =>
    rw [intersect, if_neg not_below, if_pos above]
    exact ih
  | case5 a as b bs not_below not_above ih =>
    rw [intersect, if_neg not_below, if_neg not_above]
    exact ih.cons_cons a

theorem intersect_sublist_right (left right : List α) : (intersect left right).Sublist right := by
  induction left, right using intersect.induct with
  | case1 => simp [intersect]
  | case2 left => cases left <;> simp [intersect]
  | case3 a as b bs below ih =>
    rw [intersect, if_pos below]
    exact ih
  | case4 a as b bs not_below above ih =>
    rw [intersect, if_neg not_below, if_pos above]
    exact ih.cons b
  | case5 a as b bs not_below not_above ih =>
    obtain rfl : a = b := le_antisymm (le_of_not_gt not_above) (le_of_not_gt not_below)
    rw [intersect, if_neg not_below, if_neg not_above]
    exact ih.cons_cons a

theorem intersect_ascending {left : List α} (right : List α) (hl : Ascending left) :
    Ascending (intersect left right) := hl.sublist (intersect_sublist left right)

/-- A permutation of mapped elements is the map of a permutation. -/
theorem perm_of_map {β γ : Type*} {f : β → γ} {l : List γ} {rows : List β}
    (perm : l.Perm (rows.map f)) : ∃ ordered : List β, ordered.Perm rows ∧ l = ordered.map f := by
  induction l generalizing rows with
  | nil =>
    have none_left : rows = [] := List.map_eq_nil_iff.mp perm.nil_eq.symm
    exact ⟨[], by simp [none_left], rfl⟩
  | cons c l ih =>
    obtain ⟨row, present, rfl⟩ := List.mem_map.mp (perm.mem_iff.mp (List.mem_cons_self (a := c)))
    obtain ⟨front, back, rfl⟩ := List.append_of_mem present
    have rest : l.Perm ((front ++ back).map f) := by
      refine (perm.trans ?_).cons_inv (a := f row)
      simp
    obtain ⟨ordered, ordered_perm, eq⟩ := ih rest
    exact ⟨row :: ordered, (ordered_perm.cons row).trans List.perm_middle.symm, by simp [eq]⟩

section Keyed
variable {β : Type*}

@[simp] theorem unique_nil : unique ([] : List α) = [] := rfl

theorem unique_cons_cons (a b : α) (l : List α) :
    unique (a :: b :: l) = if a = b then unique (b :: l) else a :: unique (b :: l) := by
  simp only [unique, List.destutter_cons']
  by_cases same : a = b
  · subst same
    rw [List.destutter'_cons_neg _ (by simp), if_pos rfl]
  · rw [List.destutter'_cons_pos _ same, if_neg same]

theorem unique_cons_head (a : α) (l : List α) : ∃ tail, unique (a :: l) = a :: tail := by
  induction l generalizing a with
  | nil => exact ⟨[], rfl⟩
  | cons b l ih =>
    rw [unique_cons_cons]
    split
    · rename_i same
      subst same
      exact ih a
    · exact ⟨_, rfl⟩

theorem runsBy_cons_head (joins : β → β → Bool) (b : β) (l : List β) :
    ∃ run others, runsBy joins (b :: l) = (b :: run) :: others := by
  rw [runsBy]
  split
  · split <;> exact ⟨_, _, rfl⟩
  · exact ⟨_, _, rfl⟩

theorem runsBy_key (f : β → α) (l : List β) (sorted : (l.map f).Pairwise (· ≤ ·)) :
    runsBy (fun a b => decide (f a = f b)) l =
      (unique (l.map f)).map fun c => l.filter fun a => decide (f a = c) := by
  induction l with
  | nil => rfl
  | cons a rest ih =>
    obtain ⟨low, rest_sorted⟩ := List.pairwise_cons.mp sorted
    have groups := ih rest_sorted
    cases rest with
    | nil => simp [runsBy, unique]
    | cons b rest =>
      obtain ⟨run, others, runs_eq⟩ := runsBy_cons_head (fun a b => decide (f a = f b)) b rest
      obtain ⟨tail, unique_eq⟩ := unique_cons_head (f b) (rest.map f)
      have keys_asc : Ascending (f b :: tail) := by
        rw [← unique_eq]
        exact unique_ascending rest_sorted
      obtain ⟨tail_above, _⟩ := List.pairwise_cons.mp keys_asc
      rw [runs_eq, List.map_cons, unique_eq, List.map_cons] at groups
      obtain ⟨run_eq, others_eq⟩ := List.cons.inj groups
      -- A group of another key does not see a.
      have kept : ∀ c, f a ≠ c → (a :: b :: rest).filter (fun x => decide (f x = c)) =
          (b :: rest).filter fun x => decide (f x = c) :=
        fun c differ => List.filter_cons_of_neg (by simpa using differ)
      rw [runsBy, runs_eq]
      simp only [List.map_cons, unique_cons_cons, unique_eq]
      by_cases same : f a = f b
      · simp only [same, decide_true, if_true, List.map_cons]
        rw [others_eq]
        congr 1
        · rw [List.filter_cons_of_pos (by simpa using same), ← run_eq]
        · exact List.map_congr_left fun c present =>
            (kept c (by rw [same]; exact ne_of_lt (tail_above c present))).symm
      · have below : f a < f b := lt_of_le_of_ne (low (f b) (by simp)) same
        simp only [same, decide_false, if_false, Bool.false_eq_true, List.map_cons]
        rw [run_eq, others_eq]
        congr 1
        · rw [List.filter_cons_of_pos (by simp), List.filter_eq_nil_iff.mpr]
          intro x present
          have key_low : f b ≤ f x := by
            rcases List.mem_cons.mp present with rfl | later
            · exact le_refl _
            · exact (List.pairwise_cons.mp rest_sorted).1 (f x) (List.mem_map_of_mem later)
          simpa using ne_of_gt (lt_of_lt_of_le below key_low)
        · congr 1
          · exact (kept (f b) same).symm
          · exact List.map_congr_left fun c present =>
              (kept c (ne_of_lt (lt_trans below (tail_above c present)))).symm

end Keyed

theorem foldl_min_le (l : List α) (first : α) :
    l.foldl min first ≤ first ∧ ∀ x ∈ l, l.foldl min first ≤ x := by
  induction l generalizing first with
  | nil => simp
  | cons a l ih =>
    obtain ⟨below, each⟩ := ih (min first a)
    refine ⟨below.trans (min_le_left _ _), fun x present => ?_⟩
    rcases List.mem_cons.mp present with rfl | later
    · exact below.trans (min_le_right _ _)
    · exact each x later

theorem le_foldl_min {l : List α} {first bound : α} (above : bound ≤ first)
    (each : ∀ x ∈ l, bound ≤ x) : bound ≤ l.foldl min first := by
  induction l generalizing first with
  | nil => exact above
  | cons a l ih =>
    exact ih (le_min above (each a (by simp))) fun x hx => each x (by simp [hx])

theorem le_foldl_max (l : List α) (first : α) :
    first ≤ l.foldl max first ∧ ∀ x ∈ l, x ≤ l.foldl max first := by
  induction l generalizing first with
  | nil => simp
  | cons a l ih =>
    obtain ⟨above, each⟩ := ih (max first a)
    refine ⟨(le_max_left _ _).trans above, fun x present => ?_⟩
    rcases List.mem_cons.mp present with rfl | later
    · exact (le_max_right _ _).trans above
    · exact each x later

theorem foldl_max_le {l : List α} {first bound : α} (below : first ≤ bound)
    (each : ∀ x ∈ l, x ≤ bound) : l.foldl max first ≤ bound := by
  induction l generalizing first with
  | nil => exact below
  | cons a l ih =>
    exact ih (max_le below (each a (by simp))) fun x hx => each x (by simp [hx])

end AscendingLists
