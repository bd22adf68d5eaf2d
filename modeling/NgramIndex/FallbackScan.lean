import NgramIndex.SearchExact
import NgramIndex.SearchInit

/- A full scan next to checkpoints. Its init has released the vacuum lock, yet
   its units are intervals of the rowids at that time, so a renumbering between
   two units can take a row across. -/
namespace NgramFallbackScan
open LabelledRun NgramGram NgramProbe NgramStorage NgramSearchCore NgramSearchInit Utf8
open scoped List
variable {Row : Type} {lower : Char → Nat} {mask : GramKeyMask} {settings : QuerySettings}
  {verdict : IndexVerdict} {segments : Option SegmentsTable} {outcome : ProbeOutcome}
  {core : SearchCore} {filters : ScanFilters Row} {t : DataTable Row}

/-- A search or a transparent scan whose init did not probe, whatever the reason. -/
inductive FellBack (lower : Char → Nat) (mask : GramKeyMask) (settings : QuerySettings)
    (verdict : IndexVerdict) (segments : Option SegmentsTable) : ProbeOutcome → Prop where
  | search {bind : QueryBindData} {found : SearchInit}
      (init : searchInitGlobal lower mask settings verdict segments bind = .ok found)
      (unprobed : found.outcome.probe = none) : FellBack lower mask settings verdict segments found.outcome
  | indexScan {needles : List RewriteNeedle} {outcome : ProbeOutcome}
      (init : ngramScanInitGlobal lower mask settings verdict segments needles = .ok (.fullScan, outcome)) :
      FellBack lower mask settings verdict segments outcome

theorem fell_back_unmarked (fell : FellBack lower mask settings verdict segments outcome) :
    outcome.probe = none ∧ outcome.hwm = -1 := by
  cases fell with
  | search init unprobed => exact ⟨unprobed, (searchInitGlobal_decided init).2.2.unprobed unprobed⟩
  | indexScan init =>
    obtain ⟨other, tried, run⟩ := Fallible.bind_ok init
    have same := Fallible.ok_inj run
    simp only [Prod.mk.injEq] at same
    obtain ⟨mode, rfl⟩ := same
    split at mode
    · cases mode
    · rename_i absent
      have unprobed : other.probe = none := by simpa using absent
      exact ⟨unprobed, (tryProbeIndex_decided tried).unprobed unprobed⟩

theorem fell_back_core {visible : List (SegmentRow Uhugeint)} {extraColumns : Bool}
    (fell : FellBack lower mask settings verdict segments outcome)
    (handed : outcome.core visible extraColumns = .ok core) : core = ⟨-1, none, extraColumns⟩ := by
  obtain ⟨unprobed, unmarked⟩ := fell_back_unmarked fell
  unfold ProbeOutcome.core at handed
  rw [unprobed, unmarked] at handed
  exact (Fallible.ok_inj handed).symm

section Renumbering
variable [DecidableEq Row] {visible : List (SegmentRow Uhugeint)} {extraColumns artOnly : Bool}
  {localRows : List Row} {workers : Nat} {events : List (SearchEvent Row)} {s : SearchState Row}

/-- A full scan is exact in every run whose checkpoints carry no matching row
    between the units already begun and the others. -/
theorem fallback_scan_exact (fell : FellBack lower mask settings verdict segments outcome)
    (handed : outcome.core visible extraColumns = .ok core) (some_worker : 0 < workers)
    (keeps : Along (searchStep core filters) (KeepsSides filters)
      (startSearch core t artOnly localRows workers) events)
    (run : exec (searchStep core filters) (startSearch core t artOnly localRows workers) events = some s) :
    (startSearch core t artOnly localRows workers).vacuumLock = false ∧
      SearchExact filters (startSearch core t artOnly localRows workers) s := by
  cases fell_back_core fell handed
  exact ⟨rfl, search_exact_along (unprobed_covers filters t extraColumns) some_worker keeps run⟩

end Renumbering

/-- Two row groups whose other rows are deleted, and what a vacuum makes of them
    once the index and its guard are dropped. -/
def twoRowGroups : DataTable String where
  rowGroups := [⟨0, some "abacus" :: List.replicate 2047 none⟩, ⟨2048, some "crab" :: List.replicate 2047 none⟩]
  nextRowId := 4096
  rowGroupSize := 2048
  ascending := by decide +kernel
  allocated := by decide +kernel

def mergedRowGroup : DataTable String where
  rowGroups := [⟨0, [some "abacus", some "crab"]⟩]
  nextRowId := 2
  rowGroupSize := 2048
  ascending := by decide
  allocated := by decide

def droppedIndex : IndexVerdict := ⟨.absent, "", ⟨.ngram, 3, 3, false⟩, -1⟩
def someSettings : QuerySettings := ⟨100, 4, ⟨1000000000, 4, 4, 0, 1000000, fun _ _ => false⟩⟩
def abSearch : QueryBindData := ⟨"ab", ⟨.ngram, 3, 3, false⟩⟩

def containsAb : ScanFilters String where
  passes row := containsPredicate id (bytes "ab") false (some row)
  excludes _ _ := false
  sound _ _ never := by cases never

def abOutcome : ProbeOutcome := fullScan unavailableReason
def abCore : SearchCore := ⟨-1, none, false⟩

theorem ab_fell_back :
    FellBack Char.toNat ⟨0, 0⟩ someSettings droppedIndex none abOutcome ∧
      abOutcome.core [] false = .ok abCore := by
  have init : searchInitGlobal Char.toNat ⟨0, 0⟩ someSettings droppedIndex none abSearch =
      .ok ⟨⟨.ngram, 3, 3, false⟩, bytes "ab", abOutcome⟩ := rfl
  exact ⟨.search init rfl, rfl⟩

/-- The vacuum comes after the last unit of the table has been begun. -/
theorem late_vacuum_harmless : ∃ s,
    exec (searchStep abCore containsAb) (startSearch abCore twoRowGroups true ["about"] 1)
      [.finalize, .run 0 1, .run 0 1, .run 0 1, .run 0 1, .run 0 1, .run 0 1, .checkpoint mergedRowGroup,
        .run 0 1, .run 0 1, .run 0 1, .run 0 1, .run 0 1, .run 0 1, .run 0 1] = some s ∧
      SearchExact containsAb (startSearch abCore twoRowGroups true ["about"] 1) s := by
  have ends : (exec (searchStep abCore containsAb) (startSearch abCore twoRowGroups true ["about"] 1)
      [.finalize, .run 0 1, .run 0 1, .run 0 1, .run 0 1, .run 0 1, .run 0 1, .checkpoint mergedRowGroup,
        .run 0 1, .run 0 1, .run 0 1, .run 0 1, .run 0 1, .run 0 1, .run 0 1]).map
          (fun s => (s.locals, s.emitted)) = some ([.done], ["abacus", "crab", "about"]) := by
    decide +kernel
  obtain ⟨s, run, _⟩ := Option.map_eq_some_iff.mp ends
  have keeps : Along (searchStep abCore containsAb) (KeepsSides containsAb)
      (startSearch abCore twoRowGroups true ["about"] 1)
      [.finalize, .run 0 1, .run 0 1, .run 0 1, .run 0 1, .run 0 1, .run 0 1, .checkpoint mergedRowGroup,
        .run 0 1, .run 0 1, .run 0 1, .run 0 1, .run 0 1, .run 0 1, .run 0 1] := by
    decide +kernel
  exact ⟨s, run, (fallback_scan_exact ab_fell_back.1 ab_fell_back.2 (by decide) keeps run).2⟩

/-- A vacuum between two units. The row that it carries into the unit already
    begun is lost; carried into a unit claimed but not begun yet, it is emitted twice. -/
theorem renumbered_row_lost_or_repeated :
    FellBack Char.toNat ⟨0, 0⟩ someSettings droppedIndex none abOutcome ∧
    abOutcome.core [] false = .ok abCore ∧
    (∃ s, exec (searchStep abCore containsAb) (startSearch abCore twoRowGroups true [] 1)
        [.finalize, .run 0 1, .run 0 1, .run 0 1, .run 0 1, .checkpoint mergedRowGroup, .run 0 1,
          .run 0 1, .run 0 1, .run 0 1, .run 0 1, .run 0 1, .run 0 1] = some s ∧
      s.finished ∧ s.emitted = ["abacus"] ∧
      ¬ SearchExact containsAb (startSearch abCore twoRowGroups true [] 1) s) ∧
    (∃ s, exec (searchStep abCore containsAb) (startSearch abCore twoRowGroups true [] 2)
        [.finalize, .run 0 1, .run 1 1, .run 1 1, .run 1 1, .checkpoint mergedRowGroup, .run 0 1,
          .run 0 1, .run 0 1] = some s ∧
      s.emitted = ["crab", "abacus", "crab"] ∧
      ¬ SearchExact containsAb (startSearch abCore twoRowGroups true [] 2) s) := by
  have all : ∀ workers, (startSearch abCore twoRowGroups true [] workers).matches containsAb =
      ["abacus", "crab"] := by
    intro workers
    have committed : (twoRowGroups.visible.map Prod.snd ++ []).filter containsAb.passes =
        ["abacus", "crab"] := by decide +kernel
    exact committed
  refine ⟨ab_fell_back.1, ab_fell_back.2, ?_, ?_⟩
  · have ends : (exec (searchStep abCore containsAb) (startSearch abCore twoRowGroups true [] 1)
        [.finalize, .run 0 1, .run 0 1, .run 0 1, .run 0 1, .checkpoint mergedRowGroup, .run 0 1,
          .run 0 1, .run 0 1, .run 0 1, .run 0 1, .run 0 1, .run 0 1]).map
            (fun s => (s.locals, s.emitted)) = some ([.done], ["abacus"]) := by
      decide +kernel
    obtain ⟨s, run, same⟩ := Option.map_eq_some_iff.mp ends
    obtain ⟨locals, emitted⟩ := Prod.mk.inj same
    have finished : s.finished := by
      intro l present
      rw [locals] at present
      exact List.mem_singleton.mp present
    refine ⟨s, run, finished, emitted, ?_⟩
    intro exact_scan
    have lost := exact_scan.complete finished
    rw [emitted, all] at lost
    exact absurd lost (by decide)
  · have ends : (exec (searchStep abCore containsAb) (startSearch abCore twoRowGroups true [] 2)
        [.finalize, .run 0 1, .run 1 1, .run 1 1, .run 1 1, .checkpoint mergedRowGroup, .run 0 1,
          .run 0 1, .run 0 1]).map SearchState.emitted = some ["crab", "abacus", "crab"] := by
      decide +kernel
    obtain ⟨s, run, emitted⟩ := Option.map_eq_some_iff.mp ends
    refine ⟨s, run, emitted, ?_⟩
    intro exact_scan
    have more := exact_scan.once.length_le
    rw [emitted, all] at more
    exact absurd more (by decide)

section Guarded
variable [DecidableEq Row] {visible : List (SegmentRow Uhugeint)} {extraColumns artOnly : Bool}
  {localRows : List Row} {workers : Nat} {events : List (SearchEvent Row)} {s : SearchState Row}

/-- No checkpoint finds the table without an index that is not an ART index. -/
def Guarded (s : SearchState Row) : SearchEvent Row → Prop
  | .checkpoint _ => s.artOnly = false
  | .finalize | .run _ _ | .commit _ _ => True

theorem guarded_keeps_sides {u : SearchState Row} (e : SearchEvent Row)
    (step : searchStep core filters s e = some u) (guarded : Guarded s e) : KeepsSides filters s e := by
  cases searchStep_move step with
  | @checkpointed table _ vacuums =>
    have still : table.visible = s.table.visible := by
      rw [Vacuums, if_neg (by simp [show s.artOnly = false from guarded])] at vacuums
      exact vacuums
    simp only [KeepsSides, still]
    exact List.forall₂_same.mpr fun _ _ _ => rfl
  | finalized | turned | committed => trivial

/-- While the guard or another such index stays, a full scan is exact under any
    vacuum. -/
theorem guarded_scan_exact (fell : FellBack lower mask settings verdict segments outcome)
    (handed : outcome.core visible extraColumns = .ok core) (some_worker : 0 < workers)
    (guarded : Along (searchStep core filters) Guarded
      (startSearch core t artOnly localRows workers) events)
    (run : exec (searchStep core filters) (startSearch core t artOnly localRows workers) events = some s) :
    SearchExact filters (startSearch core t artOnly localRows workers) s := by
  cases fell_back_core fell handed
  have keeps := along_of_run (fun _ e _ => guarded_keeps_sides e) run guarded
  exact search_exact_along (unprobed_covers filters t extraColumns) some_worker keeps run

end Guarded
end NgramFallbackScan
