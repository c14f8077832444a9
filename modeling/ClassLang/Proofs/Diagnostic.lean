import ClassLang.Diagnostic.Buffer
import ClassLang.Proofs.Type.Description

/-! Reported errors are counted, although reports that say the same are kept only once. -/

namespace ClassLang.DiagnosticBuffer

/-- If something has been seen whose code is an error, errors are counted. -/
def Counts (buffer : DiagnosticBuffer) : Prop :=
  ∀ key ∈ buffer.seen, key.1.defaultSeverity = .error → 0 < buffer.errorCount

variable {buffer : DiagnosticBuffer} {diagnostic : Diagnostic} {reports : List Diagnostic}

theorem counts_empty (config : BufferConfig) : Counts { config } := by simp [Counts]

theorem promote_isError (config : BufferConfig) (severe : diagnostic.isError = true) :
    (promote config diagnostic).isError = true := by
  unfold promote
  split
  · rfl
  · exact severe

theorem errorCount_push_le : buffer.errorCount ≤ (buffer.push diagnostic).errorCount :=
  Nat.le_add_right _ _

theorem errorCount_push_pos (severe : diagnostic.isError = true) :
    0 < (buffer.push diagnostic).errorCount := by
  simp [push, severe]

/-- One report: nothing is uncounted, and an error is counted. -/
theorem report_counts (counts : buffer.Counts) (standard : diagnostic.Standard) :
    (buffer.report diagnostic).Counts ∧
      buffer.errorCount ≤ (buffer.report diagnostic).errorCount ∧
      (diagnostic.isError = true → 0 < (buffer.report diagnostic).errorCount) := by
  have severity : diagnostic.code.defaultSeverity = .error → diagnostic.isError = true := by
    intro severe
    simp [Diagnostic.isError, standard.trans severe]
  have same : diagnostic.isError = true → diagnostic.key.1.defaultSeverity = .error := by
    intro severe
    exact standard.symm.trans (by simpa [Diagnostic.isError] using severe)
  unfold report
  dsimp only
  split
  · split
    · rename_i seen
      exact ⟨counts, Nat.le_refl _,
        fun severe => counts _ (List.contains_iff_mem.mp seen) (same severe)⟩
    · refine ⟨fun key member severe => ?_, Nat.le_add_right _ _,
        fun severe => errorCount_push_pos (promote_isError _ severe)⟩
      rcases List.mem_cons.mp member with rfl | old
      · exact errorCount_push_pos (promote_isError _ (severity severe))
      · exact Nat.lt_of_lt_of_le (counts key old severe) (Nat.le_add_right _ _)
  · exact ⟨fun key member severe =>
      Nat.lt_of_lt_of_le (counts key member severe) errorCount_push_le,
      errorCount_push_le, fun severe => errorCount_push_pos (promote_isError _ severe)⟩

/-- `report_counts` for several reports. -/
theorem reportAll_counts (counts : buffer.Counts) (standard : ∀ report ∈ reports, report.Standard) :
    (buffer.reportAll reports).Counts ∧
      buffer.errorCount ≤ (buffer.reportAll reports).errorCount ∧
      ((∃ report ∈ reports, report.isError = true) →
        0 < (buffer.reportAll reports).errorCount) := by
  induction reports generalizing buffer with
  | nil => exact ⟨counts, Nat.le_refl _, by simp⟩
  | cons first rest ih =>
    obtain ⟨kept, le, severe⟩ := report_counts counts (standard first List.mem_cons_self)
    obtain ⟨keptAll, leAll, severeAll⟩ :=
      ih kept fun report member => standard report (List.mem_cons_of_mem _ member)
    refine ⟨keptAll, Nat.le_trans le leAll, ?_⟩
    rintro ⟨report, member, isError⟩
    rcases List.mem_cons.mp member with rfl | later
    · exact Nat.lt_of_lt_of_le (severe isError) leAll
    · exact severeAll ⟨report, later, isError⟩

end ClassLang.DiagnosticBuffer
