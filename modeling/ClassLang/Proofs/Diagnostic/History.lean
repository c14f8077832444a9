import ClassLang.Diagnostic.Buffer

/-! What a buffer holds, as a function of all that was reported to it. The buffer itself looks at
one report at a time: it knows what has been said before by what it has seen, and counts errors as
they come. -/

namespace ClassLang

/-- The report says again what `earlier` said. -/
def Diagnostic.Repeats (report earlier : Diagnostic) : Prop :=
  report.code = earlier.code ∧ report.span = earlier.span ∧ report.args = earlier.args

instance (report earlier : Diagnostic) : Decidable (report.Repeats earlier) :=
  inferInstanceAs (Decidable (_ ∧ _ ∧ _))

theorem Diagnostic.key_eq_iff {report earlier : Diagnostic} : report.key = earlier.key ↔
    report.Repeats earlier := by
  simp [Diagnostic.key, Diagnostic.Repeats]

namespace BufferConfig

/-- The severity with which a report is held. -/
def severityOf (config : BufferConfig) (report : Diagnostic) : Severity :=
  if config.warningsAsErrors ∧ report.severity = .warning then .error else report.severity

/-- A report is dropped if repetitions are, and one of the reports before it said the same. -/
def Drops (config : BufferConfig) (before : List Diagnostic) (report : Diagnostic) : Prop :=
  config.deduplicate = true ∧ ∃ earlier ∈ before, report.Repeats earlier

instance (config : BufferConfig) (before : List Diagnostic) (report : Diagnostic) : Decidable
    (config.Drops before report) :=
  inferInstanceAs (Decidable (_ ∧ ∃ _ ∈ _, _))

/-- What is held of a history: the reports that are not dropped on account of those before them, in
order. -/
def held (config : BufferConfig) (history : List Diagnostic) : List Diagnostic :=
  (history.zipIdx.filter fun entry => ¬ config.Drops (history.take entry.2) entry.1).map
    fun entry => { entry.1 with severity := config.severityOf entry.1 }

variable (config : BufferConfig) (history : List Diagnostic) (report : Diagnostic)

/-- A report has no effect on what is held of those before it. -/
theorem held_concat : config.held (history ++ [report]) = config.held history ++
    if config.Drops history report then [] else
      [{ report with severity := config.severityOf report }] := by
  have earlier : history.zipIdx.filter
      (fun entry => ¬ config.Drops ((history ++ [report]).take entry.2) entry.1) =
      history.zipIdx.filter fun entry => ¬ config.Drops (history.take entry.2) entry.1 := by
    refine List.filter_congr fun entry member => ?_
    have inside : entry.2 ≤ history.length := Nat.le_of_lt (List.snd_lt_of_mem_zipIdx member)
    rw [List.take_append_of_le_length inside]
  unfold held
  rw [List.zipIdx_append, List.filter_append, List.map_append, earlier]
  congr 1
  by_cases dropped : config.Drops history report <;> simp [dropped]

end BufferConfig

namespace DiagnosticBuffer

theorem promote_eq (config : BufferConfig) (report : Diagnostic) :
    promote config report = { report with severity := config.severityOf report } := by
  unfold promote BufferConfig.severityOf
  by_cases promoted : config.warningsAsErrors = true ∧ report.severity = .warning <;>
    simp [promoted]

/-- The buffer is in the state that a history of reports leads to. -/
structure Reflects (buffer : DiagnosticBuffer) (history : List Diagnostic) : Prop where
  diagnostics : buffer.diagnostics = buffer.config.held history
  /-- A repetition is recognised, although what it repeats may have been dropped or changed
  itself. -/
  seen : buffer.config.deduplicate = true → ∀ key, key ∈ buffer.seen ↔ ∃ earlier ∈ history,
    earlier.key = key
  errorCount : buffer.errorCount = ClassLang.errorCount buffer.diagnostics

variable {buffer : DiagnosticBuffer} {history : List Diagnostic}

theorem reflects_empty (config : BufferConfig) : Reflects { config } [] :=
  ⟨rfl, by simp, rfl⟩

theorem errorCount_push (counted : buffer.errorCount = ClassLang.errorCount buffer.diagnostics)
    (report : Diagnostic) : (buffer.push report).errorCount = ClassLang.errorCount
    (buffer.push report).diagnostics := by
  simp [push, ClassLang.errorCount, counted, List.countP_singleton]

/-- With what it has seen the buffer decides what its history decides. -/
theorem Reflects.mem_seen_iff (reflects : buffer.Reflects history)
    (deduplicates : buffer.config.deduplicate = true) (report : Diagnostic) :
    report.key ∈ buffer.seen ↔ buffer.config.Drops history report := by
  rw [reflects.seen deduplicates]
  simp only [BufferConfig.Drops, deduplicates, true_and, eq_comm, Diagnostic.key_eq_iff]

/-- One report. -/
theorem Reflects.report (reflects : buffer.Reflects history) (next : Diagnostic) :
    (buffer.report next).Reflects (history ++ [next]) ∧
    (buffer.report next).config = buffer.config := by
  have concat := buffer.config.held_concat history next
  unfold DiagnosticBuffer.report
  dsimp only
  split
  · rename_i deduplicates
    have decides := reflects.mem_seen_iff deduplicates next
    have sees (keys : List (Code × Span × List String))
        (all : ∀ key, key ∈ keys ↔ key ∈ next.key :: buffer.seen)
        (key : Code × Span × List String) : key ∈ keys ↔ ∃ earlier ∈ history ++ [next],
        earlier.key = key := by
      rw [all, List.mem_cons, reflects.seen deduplicates]
      simp [or_comm, eq_comm, or_and_right, exists_or]
    split
    · rename_i repeated
      have repeated := List.contains_iff_mem.mp repeated
      rw [if_pos (decides.mp repeated), List.append_nil] at concat
      refine ⟨⟨reflects.diagnostics.trans concat.symm, fun _ => sees buffer.seen fun key => ?_,
        reflects.errorCount⟩, rfl⟩
      exact ⟨List.mem_cons_of_mem _, fun member => (List.mem_cons.mp member).elim (· ▸ repeated) id⟩
    · rename_i new
      have new : ¬ buffer.config.Drops history next := fun drops =>
        new (List.contains_iff_mem.mpr (decides.mpr drops))
      rw [if_neg new] at concat
      refine ⟨⟨?_, fun _ => sees _ fun _ => Iff.rfl, errorCount_push reflects.errorCount _⟩, rfl⟩
      rw [push, promote_eq, reflects.diagnostics]
      exact concat.symm
  · rename_i keeps
    rw [if_neg fun drops => keeps drops.1] at concat
    refine ⟨⟨?_, fun deduplicates => absurd deduplicates keeps,
      errorCount_push reflects.errorCount _⟩, rfl⟩
    rw [push, promote_eq, reflects.diagnostics]
    exact concat.symm

/-- Several reports. -/
theorem Reflects.reportAll (reflects : buffer.Reflects history) (reports : List Diagnostic) :
    (buffer.reportAll reports).Reflects (history ++ reports) ∧
    (buffer.reportAll reports).config = buffer.config := by
  induction reports generalizing buffer history with
  | nil => exact ⟨(List.append_nil history).symm ▸ reflects, rfl⟩
  | cons first rest ih =>
    obtain ⟨reflected, same⟩ := reflects.report first
    obtain ⟨all, sameAll⟩ := ih reflected
    rw [List.append_assoc] at all
    exact ⟨all, sameAll.trans same⟩

theorem isSome_guarantee? (buffer : DiagnosticBuffer) : buffer.guarantee?.isSome = true ↔
    0 < buffer.errorCount := by
  unfold guarantee? ErrorGuaranteed.ofCount?
  split <;> simp_all

/-- A buffer holds of the reports to it, in order, those that no earlier report agrees with in code,
place and arguments, or all of them, with warnings as errors where they count as such. Its counter
is the number of errors it holds, which is what it can vouch for; and buffers are merged one after
the other. -/
theorem holds_history (config : BufferConfig) (history : List Diagnostic) :
    (reportAll { config } history).diagnostics = config.held history ∧
      (reportAll { config } history).errorCount = (config.held history).countP
        (·.severity = .error) ∧
      ((reportAll { config } history).guarantee?.isSome = true ↔
        0 < (config.held history).countP (·.severity = .error)) ∧
      ∀ buffers : List DiagnosticBuffer, merge buffers = (buffers.map (·.diagnostics)).flatten := by
  obtain ⟨reflects, same⟩ := (reflects_empty config).reportAll history
  rw [List.nil_append] at reflects
  have holds : (reportAll { config } history).diagnostics = config.held history := by
    rw [reflects.diagnostics, same]
  have counted : (reportAll { config } history).errorCount = (config.held history).countP
      (·.severity = .error) := by
    rw [reflects.errorCount, holds]
    rfl
  refine ⟨holds, counted, ?_, fun buffers => List.flatMap_def⟩
  rw [isSome_guarantee?, counted]

/-- A warning that is said again as an error is held once, as the warning it was first. -/
example : (BufferConfig.held {} [{ code := .unreachablePattern, span := ⟨0, 1⟩ },
    { code := .unreachablePattern, severity := .error, span := ⟨0, 1⟩ }]).map (·.severity) =
      [.warning] := by
  decide

end DiagnosticBuffer
end ClassLang
