import NgramIndex.LakeCoverage
import NgramIndex.LakeQuery
import NgramIndex.NeedleScan

/- The candidates of a DuckLake query are a superset of its rows. A version that
   the index covers is found through the postings, a later one through the tail. -/
namespace NgramLake
open LabelledRun AscendingLists Fallible NgramGram NgramProbe NgramIndexRegistry NgramSearchInit NgramRewrite
open Utf8
variable {host : LakeHost} {lower : Char → Nat} {mask : GramKeyMask} {options : GramOptions} {lake : Lake}
  {snapshot : Nat} {columnName : String} {needles : List LakeNeedle}

/-- SQL's lower() folds each codepoint as a folding index does. -/
def FoldsPerCodepoint (lower : Char → Nat) (host : LakeHost) : Prop :=
  ∀ text, host.sqlLower text = String.ofList (foldText lower text)

/-- What the optimizer or a call passes on as a needle. -/
def LakeNeedle.rewrite (needle : LakeNeedle) : RewriteNeedle := ⟨needle.text, needle.requiresCi⟩

section Needles

theorem holds_contains (folds : FoldsPerCodepoint lower host) {needle : RewriteNeedle} {text : String}
    (holds : Holds lower needle text) :
    bytes (host.sqlLower needle.text) <:+: bytes (host.sqlLower text) := by
  rw [folds, folds, bytes_eq_encode, bytes_eq_encode, String.toList_ofList, String.toList_ofList]
  apply encode_infix
  by_cases empty : needle.text.toList = []
  · unfold foldText NgramGram.normalize
    rw [empty]
    exact List.nil_infix
  · exact occurs_normalized empty (@holds_occurs lower folding needle text holds fun _ => rfl)

theorem lake_needles_folded {maxKeys : Nat} {state final : NeedleKeys × List String}
    (run : needles.foldlM (addLakeNeedle lower mask maxKeys options) state = .ok final) :
    (needles.map LakeNeedle.rewrite).foldlM (addNeedle lower mask maxKeys options) (state.1, state.2.length) =
        .ok (final.1, final.2.length) ∧
      ∀ text ∈ final.2, text ∈ state.2 ∨ ∃ needle ∈ needles, needle.text = text := by
  induction needles generalizing state with
  | nil =>
    obtain rfl := ok_inj run
    exact ⟨rfl, fun text listed => Or.inl listed⟩
  | cons needle rest ih =>
    obtain ⟨next, step, run⟩ := foldlM_cons_ok run
    obtain ⟨others, texts⟩ := ih run
    have one : addNeedle lower mask maxKeys options (state.1, state.2.length) needle.rewrite =
          .ok (next.1, next.2.length) ∧
        ∀ text ∈ next.2, text ∈ state.2 ∨ text = needle.text := by
      unfold addLakeNeedle at step
      unfold addNeedle
      rcases branch_ok step with ⟨skipped, step⟩ | ⟨used, step⟩
      · obtain rfl := ok_inj step
        exact ⟨if_pos skipped, fun text listed => Or.inl listed⟩
      · obtain ⟨⟨shape, own⟩, decomposed, step⟩ := bind_ok step
        have decomposes : decomposeNeedle lower mask (bytes needle.rewrite.text) options maxKeys .empty =
            .ok (shape, own) := decomposed
        rw [if_neg (show ¬ (needle.rewrite.requiresCi && !options.caseInsensitive) = true from used),
          bind_of_ok decomposes]
        rcases branch_ok step with ⟨probeable, step⟩ | ⟨short, step⟩
        · obtain rfl := ok_inj step
          refine ⟨?_, ?_⟩
          · simp only [if_pos probeable, List.length_append, List.length_singleton]
          · intro text listed
            rcases List.mem_append.mp listed with old | new
            · exact Or.inl old
            · exact Or.inr (List.mem_singleton.mp new)
        · obtain rfl := ok_inj step
          refine ⟨?_, fun text listed => Or.inl listed⟩
          simp only [if_neg short]
    refine ⟨?_, ?_⟩
    · rw [List.map_cons, List.foldlM_cons, bind_of_ok one.1]
      exact others
    · intro text listed
      rcases texts text listed with before | later
      · rcases one.2 text before with old | rfl
        · exact Or.inl old
        · exact Or.inr ⟨needle, List.mem_cons_self, rfl⟩
      · obtain ⟨other, present, same⟩ := later
        exact Or.inr ⟨other, List.mem_cons_of_mem needle present, same⟩

/-- A row on which every needle holds stores each key of the probe and has each text
    that the tail filter looks for. -/
theorem lake_needles_held {fn : String} (valid : validateGramOptions options fn = .ok ())
    (folds : FoldsPerCodepoint lower host) {maxKeys : Nat} {keys : NeedleKeys} {probed : List String}
    (folded : needles.foldlM (addLakeNeedle lower mask maxKeys options) (.empty, []) = .ok (keys, probed))
    (some_key : keys.keys ≠ []) {cell : Option String}
    (held : ∀ needle ∈ needles, Held lower cell needle.rewrite) :
    ∃ text, cell = some text ∧ (∀ key ∈ keys.keys, key ∈ storedKeys lower mask options text) ∧
      ∀ needle ∈ probed, bytes (host.sqlLower needle) <:+: bytes (host.sqlLower text) := by
  obtain ⟨as_scan, texts⟩ := lake_needles_folded folded
  cases needles with
  | nil =>
    cases ok_inj folded
    exact absurd rfl some_key
  | cons first rest =>
    obtain ⟨text, same, _⟩ := held first List.mem_cons_self
    have all : ∀ needle ∈ first :: rest, Holds lower needle.rewrite text := by
      intro needle present
      obtain ⟨whole, same_whole, inside⟩ := held needle present
      rw [same] at same_whole
      cases same_whole
      exact inside
    refine ⟨text, same, ?_, ?_⟩
    · apply folded_stored valid _ (fun key nothing => by cases nothing) as_scan
      exact List.forall_mem_map.mpr all
    · intro needle listed
      rcases texts needle listed with nothing | ⟨source, present, rfl⟩
      · cases nothing
      · exact holds_contains folds (all source present)

end Needles

section Candidates

theorem text_alike {a b : String} (same : ciEquals a b = true) (v : RowVersion) : v.text a = v.text b := by
  have folded : a.toList.map Char.toLower = b.toList.map Char.toLower := by
    unfold ciEquals at same
    exact of_decide_eq_true same
  unfold RowVersion.text ciEquals
  rw [folded]

theorem covered_posted {segments : List PostingRow} {chosen : List Uhugeint} (some_key : chosen ≠ [])
    {posted : List Nat} (run : intersectPostings (segments.filter (keyFilter chosen)) chosen = .ok posted)
    {r : Nat} (stored : ∀ key ∈ chosen, Stored segments key r) : r ∈ posted := by
  apply (intersectPostings_exact some_key run r).mpr
  refine ⟨(r / segmentRows : Nat), ?_⟩
  intro key wanted
  obtain ⟨row, listed, of_key, in_segment, present⟩ := stored key wanted
  refine ⟨row, List.mem_filter.mpr ⟨listed, keyFilter_keeps ?_⟩, of_key, in_segment, present⟩
  rw [of_key]
  exact wanted

theorem later_in_tail (reports : ReportsInsertions host) (only : OnlyWrites lake) {covered : Nat}
    {probed : List String} {tail : List Nat}
    (run : tailRowids host lake snapshot columnName probed covered = .ok tail) {v : RowVersion}
    (live : Live lake snapshot v) (after : covered < v.snapshotId) {text : String}
    (value : v.text columnName = some text)
    (contained : ∀ needle ∈ probed, bytes (host.sqlLower needle) <:+: bytes (host.sqlLower text)) :
    v.rowid ∈ tail := by
  obtain ⟨_, upto⟩ := live_committed only live
  unfold tailRowids at run
  rcases branch_ok run with ⟨_, run⟩ | ⟨reached, _⟩
  · obtain ⟨rows, read, run⟩ := bind_ok run
    obtain rfl := ok_inj run
    have listed := tail_lists reports only read (Nat.le_refl _) live after upto
    apply List.mem_map_of_mem
    apply List.mem_filter.mpr
    refine ⟨listed, ?_⟩
    unfold tailMatches
    rw [value]
    simp only [List.all_eq_true, decide_eq_true_eq]
    exact contained
  · omega

/-- An update and an insert that the index does not cover yet. -/
def uncoveredRows : List LakeEvent :=
  crossedMaintenance ++ [.commit [.write ⟨[], [(0, [("body", "abcd")])], [[("body", "xBcD")]]⟩] false ⟨0, [], []⟩]

def bodyFilter : TableFilter :=
  .expression (.function "~~*" [.reference .varchar, .constant (.varchar "%BCD%")])

theorem asciiHost_folds : FoldsPerCodepoint Char.toNat asciiHost := by
  intro text
  have ascii : ∀ n < 128, Char.toLower (Char.ofNat n) =
      Char.ofUInt8 (asciiToLower (Char.ofNat n).toUInt8) := by decide
  have fold (c : Char) : Char.toLower c = foldCodepoint Char.toNat folding c := by
    have insensitive : folding.caseInsensitive = true := rfl
    unfold foldCodepoint
    rw [if_pos insensitive]
    split
    · rename_i low
      have same := ascii c.toNat low
      rwa [Char.ofNat_toNat] at same
    · rename_i high
      rw [toLower_high (Nat.le_of_not_lt high), Char.ofNat_toNat, ite_self]
  change String.ofList (text.toList.map Char.toLower) = String.ofList (foldText Char.toNat text)
  unfold foldText NgramGram.normalize
  rw [List.map_congr_left fun c _ => fold c]

theorem toNat_keeps : LowerKeepsWildcards Char.toNat := by
  intro c high
  have percent : '%'.toNat = 37 := rfl
  have underscore : '_'.toNat = 95 := rfl
  constructor <;> omega

end Candidates
end NgramLake
