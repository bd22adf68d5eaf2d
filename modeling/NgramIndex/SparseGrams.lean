import NgramIndex.GramSuperset

/- The grams of the sparse tokenizer. The one pass of the extractor yields the
   ranges whose inner windows are lighter than both border windows, and the
   ranges that a needle keeps of them tile the needle, border on border. -/
namespace NgramGram
open Fallible MonotoneStack Utf8

section Extraction
variable {Weight : Type*} [LinearOrder Weight]

/-- The weight of the window of min_gram - 1 codepoints at a position. -/
def windowWeight (weigh : List Char → Weight) (minGram : Nat) (codepoints : List Char) (i : Nat) : Weight :=
  weigh (slice codepoints i (i + (minGram - 1)))

/-- ExtractGramRanges of the sparse tokenizer, over any weights of its windows. -/
def sparseRanges (weigh : List Char → Weight) (minGram maxGram : Nat) (codepoints : List Char) :
    List (Nat × Nat) :=
  if codepoints.length < minGram then []
  else (scan (windowWeight weigh minGram codepoints) maxGram (minGram - 1)
    (codepoints.length + 1 - (minGram - 1))).1

/-- A range of min_gram to max_gram codepoints whose inner windows are lighter than
    both windows at its borders. -/
structure IsSparseGram (weigh : List Char → Weight) (minGram maxGram : Nat) (codepoints : List Char)
    (first finish : Nat) : Prop where
  inside : finish ≤ codepoints.length
  atLeast : first + minGram ≤ finish
  atMost : finish ≤ first + maxGram
  lighter : ∀ i, first < i → i + (minGram - 1) < finish →
    windowWeight weigh minGram codepoints i < windowWeight weigh minGram codepoints first ∧
      windowWeight weigh minGram codepoints i <
        windowWeight weigh minGram codepoints (finish - (minGram - 1))

variable {weigh : List Char → Weight} {minGram maxGram : Nat} {codepoints : List Char}

theorem mem_sparseRanges (window : 2 ≤ minGram) (first finish : Nat) :
    (first, finish) ∈ sparseRanges weigh minGram maxGram codepoints ↔
      IsSparseGram weigh minGram maxGram codepoints first finish := by
  unfold sparseRanges
  constructor
  · intro emitted
    split at emitted
    · cases emitted
    · obtain ⟨right, inside, rfl, ⟨before, between⟩, reach⟩ := (scan_pairs _ _ _ _ _ _).mp emitted
      refine ⟨by omega, by omega, by omega, fun i after within => ?_⟩
      rw [Nat.add_sub_cancel]
      exact between i after (by omega)
  · rintro ⟨inside, atLeast, atMost, lighter⟩
    rw [if_neg (by omega), scan_pairs]
    refine ⟨finish - (minGram - 1), by omega, by omega, ⟨by omega, fun i after within => ?_⟩, by omega⟩
    exact lighter i after (by omega)

/-- What an extractor of the sparse grams of a text owes its caller. -/
structure SparseExtraction (weigh : List Char → Weight) (minGram maxGram : Nat) (codepoints : List Char)
    (ranges : List (Nat × Nat)) : Prop where
  exact : ∀ first finish, (first, finish) ∈ ranges ↔
    IsSparseGram weigh minGram maxGram codepoints first finish
  once : ranges.Nodup
  /-- Ends ascend and, for one end, firsts descend. -/
  order : ranges.Pairwise fun a b => a.2 < b.2 ∨ a.2 = b.2 ∧ b.1 < a.1
  shortest : ∀ first, first + minGram ≤ codepoints.length → (first, first + minGram) ∈ ranges
  few : minGram ≤ codepoints.length → ranges.length ≤ 2 * (codepoints.length - minGram + 1)
  tooShort : codepoints.length < minGram → ranges = []

theorem sparseRanges_ordered : (sparseRanges weigh minGram maxGram codepoints).Pairwise Emitted := by
  unfold sparseRanges
  split
  · exact List.Pairwise.nil
  · exact scan_ordered _ _ _ _

theorem emitted_nodup {ranges : List (Nat × Nat)} (order : ranges.Pairwise Emitted) : ranges.Nodup := by
  refine order.imp ?_
  rintro a b apart rfl
  rcases apart with less | ⟨_, less⟩
  · exact Nat.lt_irrefl _ less
  · exact Nat.lt_irrefl _ less

/-- No window lies inside a range of min_gram codepoints, so nothing is asked of it. -/
theorem shortest_gram (order : minGram ≤ maxGram) (window : 2 ≤ minGram) {first : Nat}
    (inside : first + minGram ≤ codepoints.length) :
    IsSparseGram weigh minGram maxGram codepoints first (first + minGram) := by
  refine ⟨inside, Nat.le_refl _, by omega, fun i after within => ?_⟩
  omega

theorem sparseRanges_extraction (window : 2 ≤ minGram) (order : minGram ≤ maxGram) (codepoints : List Char) :
    SparseExtraction weigh minGram maxGram codepoints (sparseRanges weigh minGram maxGram codepoints) where
  exact := mem_sparseRanges window
  once := emitted_nodup sparseRanges_ordered
  order := sparseRanges_ordered
  shortest first inside := (mem_sparseRanges window _ _).mpr (shortest_gram order window inside)
  few long := by
    have windows : codepoints.length + 1 - (minGram - 1) = codepoints.length - minGram + 1 + 1 := by omega
    rw [sparseRanges, if_neg (by omega), windows]
    exact scan_pairs_bound _ _ _ _
  tooShort short := if_pos short

/-- SparseWindowWeight as a function of a window's codepoints alone. -/
def codepointsWeight (minGram : Nat) (window : List Char) : UInt64 :=
  sparseWindowWeight (scratchOf window) 0 (minGram - 1)

theorem scan_congr {first second : Nat → Weight} {limit span count : Nat}
    (same : ∀ i < count, first i = second i) : scan first limit span count = scan second limit span count := by
  induction count with
  | zero => rfl
  | succ count ih =>
    rw [scan, scan, ih fun i inside => same i (Nat.lt_succ_of_lt inside), same count (Nat.lt_succ_self count)]

theorem gramRanges_sparse {options : GramOptions} (sparse : options.tokenizer = .sparse)
    (three : 3 ≤ options.minGram) (codepoints : List Char) :
    gramRanges (scratchOf codepoints) options =
      sparseRanges (codepointsWeight options.minGram) options.minGram options.maxGram codepoints := by
  have count : (scratchOf codepoints).offsets.length - 1 = codepoints.length := by simp [scratchOf]
  unfold gramRanges sparseRanges
  rw [count, sparse]
  by_cases short : codepoints.length < options.minGram
  · simp only [if_pos short]
  · simp only [if_neg short]
    refine congrArg Prod.fst (scan_congr fun i inside => ?_)
    have window := @slice_weight codepoints i (i + (options.minGram - 1)) 0 (options.minGram - 1) (by omega)
      (by omega) (by omega)
    rwa [Nat.add_zero] at window

/-- The extractor yields the declared sparse grams over any weights, in order, once
    each, and at most two for each window but the first; over an index's own weights
    its ranges are what ExtractGramRanges emits for a text. -/
theorem sparse_extractor_exact (weigh : List Char → Weight) {minGram maxGram : Nat} (three : 3 ≤ minGram)
    (order : minGram ≤ maxGram) :
    (∀ codepoints, SparseExtraction weigh minGram maxGram codepoints
      (sparseRanges weigh minGram maxGram codepoints)) ∧
    ∀ (lower : Char → Nat) (caseInsensitive : Bool) (text : String),
      extractGramRanges lower (bytes text) ⟨.sparse, minGram, maxGram, caseInsensitive⟩ =
        .ok (scratchOf (normalize lower ⟨.sparse, minGram, maxGram, caseInsensitive⟩ text.toList),
          sparseRanges (codepointsWeight minGram) minGram maxGram
            (normalize lower ⟨.sparse, minGram, maxGram, caseInsensitive⟩ text.toList)) := by
  refine ⟨sparseRanges_extraction (by omega) order, fun lower caseInsensitive text => ?_⟩
  rw [bytes_eq_encode, extractGramRanges_encode]
  rw [@gramRanges_sparse ⟨.sparse, minGram, maxGram, caseInsensitive⟩ rfl three]

/-- Weights that tie: of two framed runs of one codepoint the longer is past max_gram. -/
theorem tied_windows_extracted :
    sparseRanges (fun window => (window.headD 'a').toNat) 3 5 "baabaaabb".toList =
        [(0, 3), (1, 4), (2, 5), (0, 5), (3, 6), (4, 7), (5, 8), (6, 9)] ∧
      SparseExtraction (fun window => (window.headD 'a').toNat) 3 5 "baabaaabb".toList
        (sparseRanges (fun window => (window.headD 'a').toNat) 3 5 "baabaaabb".toList) :=
  ⟨by decide +kernel, (sparse_extractor_exact _ (by decide) (by decide)).1 _⟩

end Extraction

section Covering
variable {ranges covering : List (Nat × Nat)}

def Inside (r o : Nat × Nat) : Prop := o.1 ≤ r.1 ∧ r.2 ≤ o.2

/-- What is kept of the ranges that arrived so far, the latest first. -/
structure Kept (ranges covering : List (Nat × Nat)) : Prop where
  falls : covering.Pairwise fun a b => b.1 < a.1 ∧ b.2 < a.2
  maximal : ∀ r, r ∈ covering ↔ r ∈ ranges ∧ ∀ o ∈ ranges, Inside r o → o = r
  covers : ∀ r ∈ ranges, ∃ k ∈ covering, Inside r k

theorem mem_dropWhile_falling {n : Nat} (falls : covering.Pairwise fun a b => b.1 < a.1 ∧ b.2 < a.2)
    (r : Nat × Nat) : r ∈ covering.dropWhile (fun kept => kept.1 ≥ n) ↔ r ∈ covering ∧ r.1 < n := by
  induction covering with
  | nil => simp
  | cons head rest ih =>
    obtain ⟨below, falls⟩ := List.pairwise_cons.mp falls
    by_cases retired : head.1 ≥ n
    · rw [List.dropWhile_cons_of_pos (by simpa using retired), ih falls, List.mem_cons]
      constructor
      · intro ⟨present, before⟩
        exact ⟨Or.inr present, before⟩
      · rintro ⟨rfl | present, before⟩
        · omega
        · exact ⟨present, before⟩
    · rw [List.dropWhile_cons_of_neg (by simpa using retired)]
      constructor
      · intro present
        refine ⟨present, ?_⟩
        rcases List.mem_cons.mp present with rfl | later
        · omega
        · have := (below r later).1
          omega
      · intro ⟨present, _⟩
        exact present

/-- An arriving range ends last and, of those with its end, starts first, so it lies in
    none that arrived before and retires exactly those that lie in it. -/
theorem keepCovering_kept {n : Nat × Nat} (kept : Kept ranges covering)
    (last : ∀ r ∈ ranges, Emitted r n) : Kept (ranges ++ [n]) (keepCovering covering n) := by
  obtain ⟨falls, maximal, covers⟩ := kept
  have stays := mem_dropWhile_falling (n := n.1) falls
  have apart (r : Nat × Nat) (arrived : r ∈ ranges) : r.2 < n.2 ∨ r.2 = n.2 ∧ n.1 < r.1 := last r arrived
  refine ⟨?_, fun r => ?_, fun r listed => ?_⟩
  · refine List.pairwise_cons.mpr ⟨fun r present => ?_, falls.sublist (List.dropWhile_sublist _)⟩
    obtain ⟨old, before⟩ := (stays r).mp present
    have order := apart r ((maximal r).mp old).1
    omega
  · unfold keepCovering
    rw [List.mem_cons, stays, maximal, List.mem_append, List.mem_singleton]
    constructor
    · rintro (rfl | ⟨⟨arrived, largest⟩, before⟩)
      · refine ⟨Or.inr rfl, fun o listed inside => ?_⟩
        rcases List.mem_append.mp listed with arrived | here
        · have order := apart o arrived
          have ends := inside.2
          have starts := inside.1
          omega
        · exact List.mem_singleton.mp here
      · refine ⟨Or.inl arrived, fun o listed inside => ?_⟩
        rcases List.mem_append.mp listed with other | here
        · exact largest o other inside
        · obtain rfl := List.mem_singleton.mp here
          have starts := inside.1
          omega
    · rintro ⟨arrived | rfl, largest⟩
      · refine Or.inr ⟨⟨arrived, fun o other => largest o (List.mem_append_left _ other)⟩, ?_⟩
        by_contra after
        have order := apart r arrived
        have same := largest n (List.mem_append_right _ (List.mem_singleton_self n)) ⟨by omega, by omega⟩
        rw [same] at order
        omega
      · exact Or.inl rfl
  · rcases List.mem_append.mp listed with arrived | here
    · obtain ⟨k, present, inside⟩ := covers r arrived
      by_cases retired : n.1 ≤ k.1
      · have order := apart k ((maximal k).mp present).1
        refine ⟨n, List.mem_cons_self, ?_, ?_⟩
        · exact retired.trans inside.1
        · have ends := inside.2
          omega
      · exact ⟨k, List.mem_cons_of_mem _ ((stays k).mpr ⟨present, by omega⟩), inside⟩
    · obtain rfl := List.mem_singleton.mp here
      exact ⟨r, List.mem_cons_self, Nat.le_refl _, Nat.le_refl _⟩

theorem kept_ranges (order : ranges.Pairwise Emitted) : Kept ranges (ranges.foldl keepCovering []) := by
  induction ranges using List.reverseRecOn with
  | nil => exact ⟨List.Pairwise.nil, by simp, by simp⟩
  | append_singleton ranges n ih =>
    obtain ⟨before, _, last⟩ := List.pairwise_append.mp order
    rw [List.foldl_append]
    exact keepCovering_kept (ih before) fun r arrived => last r arrived n (List.mem_singleton_self n)

/-- The grams that a needle keeps of its sparse grams, in kept order. -/
structure CoveringChain (span length : Nat) (grams kept : List (Nat × Nat)) : Prop where
  /-- Kept are the grams that no other gram contains. -/
  maximal : ∀ r, r ∈ kept ↔ r ∈ grams ∧ ∀ o ∈ grams, Inside r o → o = r
  rises : kept.Pairwise fun a b => a.1 < b.1 ∧ a.2 < b.2
  starts : kept.head?.map Prod.fst = some 0
  ends : kept.getLast?.map Prod.snd = some length
  /-- Of two consecutive ones the later starts with the last window of the earlier. -/
  chained : kept.IsChain fun a b => b.1 + span = a.2
  covers : ∀ g ∈ grams, ∃ k ∈ kept, Inside g k
  nested : ∀ g ∈ grams, ∀ h ∈ grams, Inside g h ∨ Inside h g ∨ g.2 ≤ h.1 + span ∨ h.2 ≤ g.1 + span

/-- Grams of which every two neighbouring windows are one, and that nest or share a
    border window at most, with kept ones that rise and cover all. -/
structure Tiled (span length : Nat) (grams kept : List (Nat × Nat)) : Prop where
  framed : ∀ g ∈ grams, g.1 + span < g.2 ∧ g.2 ≤ length
  nested : ∀ g ∈ grams, ∀ h ∈ grams, Inside g h ∨ Inside h g ∨ g.2 ≤ h.1 + span ∨ h.2 ≤ g.1 + span
  adjacent : ∀ i, i + 1 + span ≤ length → (i, i + 1 + span) ∈ grams
  listed : ∀ r ∈ kept, r ∈ grams
  covers : ∀ g ∈ grams, ∃ k ∈ kept, Inside g k
  rises : kept.Pairwise fun a b => a.1 < b.1 ∧ a.2 < b.2

section Chain
variable {span length : Nat} {grams kept : List (Nat × Nat)}

theorem tiled_starts (tiled : Tiled span length grams kept) (long : span < length) :
    kept.head?.map Prod.fst = some 0 := by
  obtain ⟨k, present, inside⟩ := tiled.covers _ (tiled.adjacent 0 (by omega))
  have first : k.1 = 0 := Nat.le_zero.mp inside.1
  cases kept with
  | nil => cases present
  | cons head rest =>
    rcases List.mem_cons.mp present with rfl | later
    · exact congrArg some first
    · have := ((List.pairwise_cons.mp tiled.rises).1 k later).1
      omega

theorem tiled_ends (tiled : Tiled span length grams kept) (long : span < length) :
    kept.getLast?.map Prod.snd = some length := by
  obtain ⟨k, present, inside⟩ := tiled.covers _ (tiled.adjacent (length - span - 1) (by omega))
  have bound (r : Nat × Nat) (here : r ∈ kept) : r.2 ≤ length := (tiled.framed r (tiled.listed r here)).2
  have last : k.2 = length := by
    have ends : length - span - 1 + 1 + span ≤ k.2 := inside.2
    have := bound k present
    omega
  induction kept using List.reverseRecOn with
  | nil => cases present
  | append_singleton rest final _ =>
    rw [List.getLast?_concat]
    rcases List.mem_append.mp present with before | here
    · have := ((List.pairwise_append.mp tiled.rises).2.2 k before final (List.mem_singleton_self final)).2
      have := bound final (List.mem_append_right _ (List.mem_singleton_self final))
      omega
    · obtain rfl := List.mem_singleton.mp here
      exact congrArg some last

/-- A kept range between two consecutive ones would hold the two windows at the end of
    the first, so the second starts there. -/
theorem tiled_chained (tiled : Tiled span length grams kept) : kept.IsChain fun a b => b.1 + span = a.2 := by
  refine List.isChain_iff_forall_rel_of_append_cons_cons.mpr fun a b front back same => ?_
  have rises := tiled.rises
  rw [same, List.pairwise_append, List.pairwise_cons, List.pairwise_cons] at rises
  obtain ⟨_, ⟨after, ⟨later, _⟩⟩, before⟩ := rises
  have order := after b List.mem_cons_self
  have a_listed := tiled.listed a (same ▸ List.mem_append_right _ List.mem_cons_self)
  have b_listed := tiled.listed b (same ▸ List.mem_append_right _ (List.mem_cons_of_mem _ List.mem_cons_self))
  have a_framed := tiled.framed a a_listed
  have b_framed := tiled.framed b b_listed
  have apart : a.2 ≤ b.1 + span := by
    rcases tiled.nested a a_listed b b_listed with ⟨starts, _⟩ | ⟨_, ends⟩ | near | far
    · omega
    · omega
    · exact near
    · omega
  obtain ⟨k, present, starts, ends⟩ := tiled.covers _ (tiled.adjacent (a.2 - span) (by omega))
  simp only at starts ends
  rw [same, List.mem_append, List.mem_cons, List.mem_cons] at present
  rcases present with front_one | rfl | rfl | back_one
  · have := (before k front_one a List.mem_cons_self).2
    omega
  · omega
  · omega
  · have := (later k back_one).1
    omega

theorem tiled_chain (tiled : Tiled span length grams kept) (long : span < length)
    (maximal : ∀ r, r ∈ kept ↔ r ∈ grams ∧ ∀ o ∈ grams, Inside r o → o = r) :
    CoveringChain span length grams kept :=
  ⟨maximal, tiled.rises, tiled_starts tiled long, tiled_ends tiled long, tiled_chained tiled, tiled.covers,
    tiled.nested⟩

end Chain

section Needle
variable {Weight : Type*} [LinearOrder Weight] {weigh : List Char → Weight} {minGram maxGram : Nat}
  {codepoints : List Char}

theorem sparseGram_framed (window : 2 ≤ minGram) {first finish : Nat}
    (gram : IsSparseGram weigh minGram maxGram codepoints first finish) :
    first + (minGram - 1) < finish ∧
      Framed (windowWeight weigh minGram codepoints) first (finish - (minGram - 1)) := by
  obtain ⟨_, atLeast, _, lighter⟩ := gram
  refine ⟨by omega, by omega, fun i after before => ?_⟩
  exact lighter i after (by omega)

/-- The grams DecomposeNeedle keeps of a needle's sparse grams, by first codepoint. -/
def coveringGrams (ranges : List (Nat × Nat)) : List (Nat × Nat) := (ranges.foldl keepCovering []).reverse

theorem sparse_covering (window : 2 ≤ minGram) (order : minGram ≤ maxGram) (long : minGram ≤ codepoints.length) :
    CoveringChain (minGram - 1) codepoints.length (sparseRanges weigh minGram maxGram codepoints)
      (coveringGrams (sparseRanges weigh minGram maxGram codepoints)) := by
  have kept := kept_ranges (@sparseRanges_ordered _ _ weigh minGram maxGram codepoints)
  have member := @mem_sparseRanges _ _ weigh minGram maxGram codepoints window
  have maximal (r : Nat × Nat) := (@List.mem_reverse _ r _).trans (kept.maximal r)
  refine tiled_chain ⟨fun g listed => ?_, fun g left h right => ?_, fun i inside => ?_,
    fun r present => ((maximal r).mp present).1, fun g listed => ?_, List.pairwise_reverse.mpr kept.falls⟩
    (by omega) maximal
  · have gram := (member g.1 g.2).mp listed
    exact ⟨(sparseGram_framed window gram).1, gram.inside⟩
  · obtain ⟨some_g, framed_g⟩ := sparseGram_framed window ((member g.1 g.2).mp left)
    obtain ⟨some_h, framed_h⟩ := sparseGram_framed window ((member h.1 h.2).mp right)
    have apart := framed_nested framed_g framed_h
    unfold Inside
    omega
  · have gram : IsSparseGram weigh minGram maxGram codepoints i (i + minGram) :=
      shortest_gram order window (by omega)
    have ends : i + 1 + (minGram - 1) = i + minGram := by omega
    rw [ends]
    exact (member _ _).mpr gram
  · obtain ⟨k, present, inside⟩ := kept.covers g listed
    exact ⟨k, List.mem_reverse.mpr present, inside⟩

theorem tokenized_keys {options : GramOptions} (sparse : options.tokenizer = .sparse) {lower : Char → Nat}
    {mask : GramKeyMask} (needle : String) (maxKeys : Nat) (keys : NeedleKeys)
    (some_kept : coveringGrams (gramRanges (scratchOf (normalize lower options needle.toList)) options) ≠ []) :
    decomposeNeedle lower mask (bytes needle) options maxKeys keys =
      if (bytes needle).length > needleBytesPerKey .sparse * maxKeys % 2 ^ 64 then .ok (.overBudget, keys)
      else
        let added := keys.addAll maxKeys
          ((coveringGrams (gramRanges (scratchOf (normalize lower options needle.toList)) options)).map fun r =>
            tokenizedGramKey options (scratchOf (normalize lower options needle.toList)) r.1 r.2 mask)
        .ok (if added.1 then .probeable else .overBudget, added.2) := by
  rw [bytes_eq_encode]
  unfold decomposeNeedle
  rw [sparse]
  by_cases large : (encode needle.toList).length > needleBytesPerKey .sparse * maxKeys % 2 ^ 64
  · rw [if_pos large, if_pos large]
  · rw [if_neg large, if_neg large]
    refine (bind_of_ok (extractGramRanges_encode needle.toList)).trans ?_
    simp only
    exact if_neg some_kept

/-- Of a needle's sparse grams DecomposeNeedle keys those that no other contains. They
    tile the needle: each starts with the border window the one before it ends with. -/
theorem needle_covering {options : GramOptions} {fn : String} (valid : validateGramOptions options fn = .ok ())
    (sparse : options.tokenizer = .sparse) (lower : Char → Nat) (mask : GramKeyMask) (needle : String)
    (long : options.minGram ≤ needle.toList.length) :
    let codepoints := normalize lower options needle.toList
    let grams := gramRanges (scratchOf codepoints) options
    CoveringChain (options.minGram - 1) codepoints.length grams (coveringGrams grams) ∧
      ∀ maxKeys keys, decomposeNeedle lower mask (bytes needle) options maxKeys keys =
        if (bytes needle).length > needleBytesPerKey .sparse * maxKeys % 2 ^ 64 then .ok (.overBudget, keys)
        else
          let added := keys.addAll maxKeys
            ((coveringGrams grams).map fun r => tokenizedGramKey options (scratchOf codepoints) r.1 r.2 mask)
          .ok (if added.1 then .probeable else .overBudget, added.2) := by
  have sizes := valid
  unfold validateGramOptions at sizes
  rw [sparse] at sizes
  obtain ⟨three, sizes⟩ := check_ok sizes
  obtain ⟨order, _⟩ := check_ok sizes
  have chain : CoveringChain (options.minGram - 1) (normalize lower options needle.toList).length
      (gramRanges (scratchOf (normalize lower options needle.toList)) options)
      (coveringGrams (gramRanges (scratchOf (normalize lower options needle.toList)) options)) := by
    rw [gramRanges_sparse sparse (by omega)]
    exact sparse_covering (by omega) (by omega) (by simpa [normalize] using long)
  refine ⟨chain, fun maxKeys keys => tokenized_keys sparse needle maxKeys keys fun none_kept => ?_⟩
  have starts := chain.starts
  rw [none_kept] at starts
  cases starts

theorem zebra_covering :
    let options : GramOptions := ⟨.sparse, 3, 8, true⟩
    let codepoints := normalize (fun c => c.toLower.toNat) options "A ZéBRA crossing".toList
    coveringGrams (gramRanges (scratchOf codepoints) options) ≠ gramRanges (scratchOf codepoints) options ∧
      CoveringChain 2 16 (gramRanges (scratchOf codepoints) options)
        (coveringGrams (gramRanges (scratchOf codepoints) options)) :=
  ⟨by decide +kernel, (@needle_covering ⟨.sparse, 3, 8, true⟩ "ngram" rfl rfl (fun c => c.toLower.toNat)
    ⟨0xFFFFFFFFFFFFFFFF, 0xFFFFFFFFFFFFFFFF⟩ "A ZéBRA crossing" (by decide +kernel)).1⟩

end Needle
end Covering
end NgramGram
