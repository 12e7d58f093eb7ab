import PiLSMer.Slate.Filter

/-! What a compaction does to a row: it never drops one, it rewrites only to a plan of the
same logical bytes, and it leaves alone what it cannot or may not read. -/
namespace PiLSMer

variable [Digests]

def FilterOutcome.Sound (f : PiLsmCompactionFilter) (clock : Nat → Nat) (e : ValueEnvelope)
    (outcome : FilterOutcome) : Prop :=
  outcome.result = .ok .keep ∨ (∃ err, outcome.result = .error err) ∨
  ∃ v plan, e.Holds f.reconstructor v ∧ f.planner.plan clock v = .ok plan ∧
    outcome.result = .ok (.modify (.value (ValueEnvelope.plan plan).encode))

theorem planRaw_sound (f : PiLsmCompactionFilter) (clock : Nat → Nat) (bytes : Bytes) :
    (f.planRaw clock bytes).Sound f clock (.raw bytes) := by
  obtain ⟨plan, planned, eq⟩ | ⟨_, _, _, eq⟩ | ⟨err, _, _, eq⟩ :=
    planRaw_cases (f := f) clock bytes
  · rw [eq]
    exact Or.inr (Or.inr ⟨bytes, plan, rfl, planned, rfl⟩)
  · rw [eq]
    exact Or.inl rfl
  · rw [eq]
    exact Or.inr (Or.inl ⟨err, rfl⟩)

theorem improvePlan_sound (f : PiLsmCompactionFilter) (clock : Nat → Nat)
    (p : ReconstructionPlan) : (f.improvePlan clock p).Sound f clock (.plan p) := by
  obtain ⟨v, plan, rebuilt, planned, _, eq⟩ | ⟨_, _, _, eq⟩ | ⟨err, _, eq⟩ :=
    improvePlan_cases (f := f) clock p
  · rw [eq]
    exact Or.inr (Or.inr ⟨v, plan, rebuilt, planned, rfl⟩)
  · rw [eq]
    exact Or.inl rfl
  · rw [eq]
    exact Or.inr (Or.inl ⟨err, rfl⟩)

theorem dispatch_sound (f : PiLsmCompactionFilter) (clock : Nat → Nat) (mode : CompactionMode)
    (e : ValueEnvelope) : (f.dispatch clock mode e).Sound f clock e := by
  cases e with
  | raw bytes =>
    cases mode with
    | disabled => exact Or.inl rfl
    | normal => exact planRaw_sound f clock bytes
    | forceRawToPlan => exact planRaw_sound f clock bytes
    | vacuumMeaning => exact planRaw_sound f clock bytes
  | plan p =>
    cases mode with
    | disabled => exact Or.inl rfl
    | normal => exact Or.inl rfl
    | forceRawToPlan => exact Or.inl rfl
    | vacuumMeaning => exact improvePlan_sound f clock p

def PiLsmCompactionFilter.Reads (f : PiLsmCompactionFilter) (entry : RowEntry)
    (e : ValueEnvelope) : Prop :=
  ¬ f.Protected entry ∧ ∃ bytes, entry.value = .value bytes ∧
    ValueEnvelope.decode bytes f.decodeLimits = .ok e

theorem filterEntry_unread {f : PiLsmCompactionFilter} (clock : Nat → Nat) {entry : RowEntry}
    (unread : ∀ e, ¬ f.Reads entry e) :
    (f.filterEntry clock entry).result = .ok .keep ∨
      ∃ err, (f.filterEntry clock entry).result = .error err := by
  unfold PiLsmCompactionFilter.filterEntry
  by_cases guarded : f.snapshotSafeFiltering ∧ ¬ f.snapshotSafeToModify entry
  · rw [if_pos guarded]
    exact Or.inl rfl
  · rw [if_neg guarded]
    cases value : entry.value with
    | merge operand => exact Or.inl rfl
    | tombstone => exact Or.inl rfl
    | value bytes =>
      cases decoded : ValueEnvelope.decode bytes f.decodeLimits with
      | ok e => exact absurd ⟨guarded, bytes, value, decoded⟩ (unread e)
      | error err =>
        simp only [decoded]
        obtain failed | ⟨_, kept⟩ := undecoded_cases (f := f) err
        · exact Or.inr ⟨err, by rw [failed, FilterOutcome.failed]⟩
        · exact Or.inl (by rw [kept, FilterOutcome.kept])

theorem filterEntry_read {f : PiLsmCompactionFilter} {clock : Nat → Nat} {entry : RowEntry}
    {e : ValueEnvelope} (reads : f.Reads entry e) :
    f.filterEntry clock entry = f.dispatch clock f.mode e := by
  obtain ⟨reach, bytes, value, decoded⟩ := reads
  exact filterEntry_decoded reach value decoded

/-- Whatever the row and the mode: never a drop, no touch of what is out of reach, and a
rewrite only to a plan of the same logical bytes. -/
theorem filter_preserves (f : PiLsmCompactionFilter) (clock : Nat → Nat) (entry : RowEntry)
    (s : FilterState) (decision : CompactionFilterDecision)
    (shared : f.planner.registry = f.reconstructor)
    (done : (f.filter clock entry s).1 = .ok decision) :
    (decision = .keep ∨ ∃ y, decision = .modify (.value y)) ∧
    ((entry.value = .tombstone ∨ (∃ operand, entry.value = .merge operand) ∨
      (∃ bytes, entry.value = .value bytes ∧
        ∃ err, ValueEnvelope.decode bytes f.decodeLimits = .error err) ∨
      f.mode = .disabled ∨
      (f.snapshotSafeFiltering = true ∧
        ∃ minSeq, f.context.retentionMinSeq = some minSeq ∧ minSeq ≤ entry.seq)) →
      decision = .keep) ∧
    (∀ y, decision = .modify (.value y) → ∃ bytes e v plan, entry.value = .value bytes ∧
      ValueEnvelope.decode bytes f.decodeLimits = .ok e ∧ e.Holds f.reconstructor v ∧
      y = (ValueEnvelope.plan plan).encode ∧ reconstruct f.reconstructor plan = .ok v) := by
  change (f.filterEntry clock entry).result = .ok decision at done
  by_cases unread : ∀ e, ¬ f.Reads entry e
  · obtain kept | ⟨err, failed⟩ := filterEntry_unread clock unread
    · rw [kept] at done
      cases done
      exact ⟨Or.inl rfl, fun _ => rfl, fun y h => by cases h⟩
    · rw [failed] at done
      cases done
  · push Not at unread
    obtain ⟨e, reads⟩ := unread
    rw [filterEntry_read reads] at done
    obtain ⟨reach, bytes, value, decoded⟩ := reads
    obtain kept | ⟨err, failed⟩ | ⟨v, plan, holds, planned, eq⟩ :=
      dispatch_sound f clock f.mode e
    · rw [kept] at done
      cases done
      exact ⟨Or.inl rfl, fun _ => rfl, fun y h => by cases h⟩
    · rw [failed] at done
      cases done
    · rw [eq] at done
      cases done
      refine ⟨Or.inr ⟨_, rfl⟩, ?_, ?_⟩
      · rintro (h | ⟨_, h⟩ | ⟨b, h, err, failed⟩ | h | ⟨safe, minSeq, h, late⟩)
        · rw [h] at value
          cases value
        · rw [h] at value
          cases value
        · rw [h] at value
          cases value
          rw [decoded] at failed
          cases failed
        · rw [h] at eq
          cases eq
        · refine absurd ⟨safe, ?_⟩ reach
          simp only [PiLsmCompactionFilter.snapshotSafeToModify, h, decide_eq_true_eq]
          exact UInt64.not_lt.mpr late
      · intro y h
        cases h
        refine ⟨bytes, e, v, plan, value, decoded, holds, rfl, ?_⟩
        rw [← shared]
        exact (Planner.planWithOptions_made planned).rebuilds

def sampleFilter (mode : CompactionMode) (allowLiterals : Bool) (limits : DecodeLimits) :
    PiLsmCompactionFilter where
  planner := barePlanner allowLiterals
  reconstructor := ⟨[]⟩
  decodeLimits := limits
  mode := mode
  strictEnvelopes := true
  snapshotSafeFiltering := true
  context := ⟨some 10⟩

def sampleRow : RowEntry := ⟨[0x6b], .value sampleRawFrame, 3⟩

def freshState : FilterState := ⟨fun _ => 0, fun _ => 0⟩

omit [Digests] in
theorem filter_preserves_sample :
    letI := sampleDigests
    ((sampleFilter .normal true .default).filter stopped sampleRow freshState).1 =
      .ok (.modify (.value samplePlanFrame)) ∧
    ∃ plan, samplePlanFrame = (ValueEnvelope.plan plan).encode ∧
      reconstruct ⟨[]⟩ plan = .ok [0x61] := by
  let _ := sampleDigests
  have done : ((sampleFilter .normal true .default).filter stopped sampleRow
      freshState).1 = .ok (.modify (.value samplePlanFrame)) := by decide
  obtain ⟨_, _, rewrites⟩ := filter_preserves (sampleFilter .normal true .default) stopped
    sampleRow freshState _ rfl done
  obtain ⟨bytes, e, v, plan, value, decoded, holds, same, rebuilt⟩ := rewrites _ rfl
  cases value
  have raw : ValueEnvelope.decode sampleRawFrame .default = .ok (.raw [0x61]) := by decide
  cases raw.symm.trans decoded
  cases holds
  exact ⟨done, plan, same, rebuilt⟩

def PiLsmCompactionFilter.OnlyPlanningFails (f : PiLsmCompactionFilter) (clock : Nat → Nat)
    (entry : RowEntry) : Prop :=
  ∃ bytes e v reason, entry.value = .value bytes ∧
    ValueEnvelope.decode bytes f.decodeLimits = .ok e ∧ e.Holds f.reconstructor v ∧
    f.planner.plan clock v = .error (.planningFailed reason)

theorem planRaw_failed {f : PiLsmCompactionFilter} {clock : Nat → Nat} {raw : Bytes}
    {reason : String} (failed : f.planner.plan clock raw = .error (.planningFailed reason)) :
    (f.planRaw clock raw).result =
      if f.mode = .normal then .ok .keep else .error (.planningFailed reason) := by
  unfold PiLsmCompactionFilter.planRaw
  rw [failed]
  dsimp only
  split <;> rfl

theorem improvePlan_failed {f : PiLsmCompactionFilter} {clock : Nat → Nat}
    {p : ReconstructionPlan} {v : Bytes} {reason : String}
    (rebuilt : reconstruct f.reconstructor p = .ok v)
    (failed : f.planner.plan clock v = .error (.planningFailed reason)) :
    (f.improvePlan clock p).result = .ok .keep := by
  unfold PiLsmCompactionFilter.improvePlan
  simp only [rebuilt, failed, FilterOutcome.kept]

theorem dispatch_plan_failed {f : PiLsmCompactionFilter} {clock : Nat → Nat}
    {p : ReconstructionPlan} {v : Bytes} {reason : String}
    (rebuilt : reconstruct f.reconstructor p = .ok v)
    (failed : f.planner.plan clock v = .error (.planningFailed reason)) :
    (f.dispatch clock f.mode (.plan p)).result = .ok .keep := by
  cases f.mode with
  | disabled => rfl
  | normal => rfl
  | forceRawToPlan => rfl
  | vacuumMeaning => exact improvePlan_failed rebuilt failed

/-- The error policy holds except where plan_raw meets a raw row in VacuumMeaning mode: its
guard names the Normal mode only. -/
theorem planning_failure_keeps_iff (f : PiLsmCompactionFilter) (clock : Nat → Nat)
    (entry : RowEntry) (s : FilterState) (only : f.OnlyPlanningFails clock entry) :
    (((∃ err, (f.filter clock entry s).1 = .error err) → f.mode = .forceRawToPlan) ∧
      (f.mode = .normal ∨ f.mode = .vacuumMeaning → (f.filter clock entry s).1 = .ok .keep)) ↔
    ¬ (f.mode = .vacuumMeaning ∧ ∃ raw, f.Reads entry (.raw raw)) := by
  change (((∃ err, (f.filterEntry clock entry).result = .error err) → _) ∧
    (_ → (f.filterEntry clock entry).result = .ok .keep)) ↔ _
  obtain ⟨bytes, e, v, reason, value, decoded, holds, failed⟩ := only
  by_cases reach : f.Protected entry
  · have kept : (f.filterEntry clock entry).result = .ok .keep := by
      unfold PiLsmCompactionFilter.Protected at reach
      simp only [PiLsmCompactionFilter.filterEntry, if_pos reach, FilterOutcome.kept]
    rw [kept]
    refine ⟨fun _ h => h.2.elim (fun _ reads => reads.1 reach), fun _ => ⟨?_, fun _ => rfl⟩⟩
    rintro ⟨_, h⟩
    cases h
  · have reads : f.Reads entry e := ⟨reach, bytes, value, decoded⟩
    rw [filterEntry_read reads]
    cases e with
    | plan p =>
      have kept := dispatch_plan_failed holds failed
      constructor
      · rintro _ ⟨_, raw, _, b, h, other⟩
        rw [value] at h
        cases h
        rw [decoded] at other
        cases other
      · intro _
        refine ⟨?_, fun _ => kept⟩
        rintro ⟨err, h⟩
        rw [kept] at h
        cases h
    | raw b =>
      have same : v = b := holds
      subst same
      have result := planRaw_failed failed
      cases mode : f.mode with
      | disabled =>
        refine iff_of_true ⟨?_, fun h => by simp at h⟩ (by simp)
        rintro ⟨_, h⟩
        cases h
      | normal =>
        rw [mode, if_pos rfl] at result
        refine iff_of_true ⟨?_, fun _ => result⟩ (by simp)
        rintro ⟨_, h⟩
        change (f.planRaw clock v).result = _ at h
        rw [result] at h
        cases h
      | forceRawToPlan => exact iff_of_true ⟨fun _ => rfl, fun h => by simp at h⟩ (by simp)
      | vacuumMeaning =>
        rw [mode, if_neg (by decide)] at result
        refine iff_of_false (fun h => ?_) (fun h => h ⟨rfl, v, reads⟩)
        have kept := h.2 (Or.inr rfl)
        change (f.planRaw clock v).result = _ at kept
        rw [result] at kept
        cases kept

omit [Digests] in
theorem vacuum_aborts_on_raw :
    ¬ ∀ [Digests] (f : PiLsmCompactionFilter) (clock : Nat → Nat) (entry : RowEntry)
      (s : FilterState), f.OnlyPlanningFails clock entry →
      ((∃ err, (f.filter clock entry s).1 = .error err) → f.mode = .forceRawToPlan) ∧
      (f.mode = .normal ∨ f.mode = .vacuumMeaning →
        (f.filter clock entry s).1 = .ok .keep) := by
  intro claim
  have failed : ∃ bytes e v reason, sampleRow.value = .value bytes ∧
      @ValueEnvelope.decode sampleDigests bytes .default = .ok e ∧
      @ValueEnvelope.Holds sampleDigests ⟨[]⟩ v e ∧
      @Planner.plan sampleDigests (barePlanner false) stopped v =
        .error (.planningFailed reason) :=
    ⟨sampleRawFrame, .raw [0x61], [0x61], "target cannot be covered", rfl, by decide, rfl,
      by decide⟩
  have policy := @claim sampleDigests (sampleFilter .vacuumMeaning false .default) stopped
    sampleRow freshState failed
  have kept := policy.2 (Or.inr rfl)
  revert kept
  decide

omit [Digests] in
theorem planning_failure_keeps_sample :
    letI := sampleDigests
    (sampleFilter .normal false .default).OnlyPlanningFails stopped sampleRow ∧
    ((sampleFilter .normal false .default).filter stopped sampleRow freshState).1 =
      .ok .keep := by
  let _ := sampleDigests
  have failed : (sampleFilter .normal false .default).OnlyPlanningFails stopped sampleRow :=
    ⟨sampleRawFrame, .raw [0x61], [0x61], "target cannot be covered", rfl, by decide, rfl,
      by decide⟩
  have policy := (planning_failure_keeps_iff (sampleFilter .normal false .default) stopped
    sampleRow freshState failed).mpr (fun h => by cases h.1)
  exact ⟨failed, policy.2 (Or.inl rfl)⟩

theorem filterEntry_unread_clock {f : PiLsmCompactionFilter} (clock clock' : Nat → Nat)
    {entry : RowEntry} (unread : ∀ e, ¬ f.Reads entry e) :
    f.filterEntry clock entry = f.filterEntry clock' entry := by
  unfold PiLsmCompactionFilter.filterEntry
  by_cases guarded : f.snapshotSafeFiltering ∧ ¬ f.snapshotSafeToModify entry
  · rw [if_pos guarded, if_pos guarded]
  · rw [if_neg guarded, if_neg guarded]
    cases value : entry.value with
    | merge operand => rfl
    | tombstone => rfl
    | value bytes =>
      cases decoded : ValueEnvelope.decode bytes f.decodeLimits with
      | ok e => exact absurd ⟨guarded, bytes, value, decoded⟩ (unread e)
      | error err => simp only [decoded]

theorem filterEntry_unread_settles {f : PiLsmCompactionFilter} {clock : Nat → Nat}
    (clock' : Nat → Nat) {entry : RowEntry} {decision : CompactionFilterDecision}
    (unread : ∀ e, ¬ f.Reads entry e)
    (done : (f.filterEntry clock entry).result = .ok decision) :
    decision = .keep ∧ (f.filterEntry clock' entry).result = .ok .keep := by
  have kept : decision = .keep := by
    obtain kept | ⟨err, failed⟩ := filterEntry_unread clock unread
    · exact Except.ok.inj (done.symm.trans kept)
    · cases done.symm.trans failed
  rw [filterEntry_unread_clock clock' clock unread]
  exact ⟨kept, kept ▸ done⟩

theorem filterEntry_normal_plan {f : PiLsmCompactionFilter} {clock : Nat → Nat} {entry : RowEntry}
    {p : ReconstructionPlan} (normal : f.mode = .normal) (reads : f.Reads entry (.plan p)) :
    f.filterEntry clock entry = .kept .plansKept := by
  rw [filterEntry_read reads, normal]
  rfl

theorem filterEntry_normal_raw {f : PiLsmCompactionFilter} {clock : Nat → Nat} {entry : RowEntry}
    {raw : Bytes} (normal : f.mode = .normal) (reads : f.Reads entry (.raw raw)) :
    f.filterEntry clock entry = f.planRaw clock raw := by
  rw [filterEntry_read reads, normal]
  rfl

theorem planRaw_settles {f : PiLsmCompactionFilter} {clock clock' : Nat → Nat} {raw : Bytes}
    {decision : CompactionFilterDecision} (normal : f.mode = .normal)
    (unhurried : f.planner.options.Unhurried clock)
    (unhurried' : f.planner.options.Unhurried clock')
    (done : (f.planRaw clock raw).result = .ok decision) :
    (decision = .keep ∧ (f.planRaw clock' raw).result = .ok .keep) ∨
    ∃ plan, f.planner.plan clock raw = .ok plan ∧
      decision = .modify (.value (ValueEnvelope.plan plan).encode) := by
  obtain ⟨plan, planned, eq⟩ | ⟨reason, failed, _, eq⟩ | ⟨err, _, _, eq⟩ :=
    planRaw_cases (f := f) clock raw
  · rw [eq] at done
    cases done
    exact Or.inr ⟨plan, planned, rfl⟩
  · rw [eq] at done
    cases done
    rw [Planner.plan, Planner.planWithOptions_unhurried _ unhurried,
      ← Planner.planWithOptions_unhurried _ unhurried'] at failed
    exact Or.inl ⟨rfl, by rw [planRaw_failed failed, if_pos normal]⟩
  · rw [eq] at done
    cases done

theorem PiLsmCompactionFilter.Reads.wellFormed_iff {f : PiLsmCompactionFilter}
    {clock : Nat → Nat} {entry : RowEntry} {raw : Bytes} {plan : ReconstructionPlan}
    (reads : f.Reads entry (.raw raw)) (planned : f.planner.plan clock raw = .ok plan) :
    plan.WellFormed f.decodeLimits ↔ plan.Admitted f.decodeLimits := by
  obtain ⟨_, bytes, _, decoded⟩ := reads
  exact (Planner.planWithOptions_made planned).wellFormed_iff
    (Nat.lt_of_le_of_lt (decode_raw_short decoded) f.decodeLimits.maxLogicalLen.toNat_lt) _

/-- A second Normal pass finds nothing to do exactly when the plan of a raw row, if one was
found, is within the filter's own decode limits. -/
theorem normal_filter_settles_iff (f : PiLsmCompactionFilter) (clock clock' : Nat → Nat)
    (entry : RowEntry) (s s' : FilterState) (normal : f.mode = .normal)
    (unhurried : f.planner.options.Unhurried clock)
    (unhurried' : f.planner.options.Unhurried clock') :
    (∀ decision entry', (f.filter clock entry s).1 = .ok decision →
      decision.apply entry = some entry' →
      (f.filter clock' entry' s').1 = .ok .keep ∧
      (decision ≠ .keep → (∃ bytes p, entry'.value = .value bytes ∧
          ValueEnvelope.decode bytes f.decodeLimits = .ok (.plan p)) ∧
        (f.filter clock' entry' s').2 = s'.tally .plansKept 1)) ↔
    ∀ raw, f.Reads entry (.raw raw) →
      f.planner.Admits f.decodeLimits raw f.planner.options := by
  constructor
  · intro settles raw reads plan found
    have planned : f.planner.plan clock raw = .ok plan := by
      rw [Planner.plan, Planner.planWithOptions_unhurried _ unhurried]
      exact found
    rw [← reads.wellFormed_iff planned]
    have modified : (f.filter clock entry s).1 =
        .ok (.modify (.value (ValueEnvelope.plan plan).encode)) := by
      change (f.filterEntry clock entry).result = _
      rw [filterEntry_normal_raw normal reads, PiLsmCompactionFilter.planRaw]
      rw [planned]
    obtain ⟨_, again⟩ := settles _ _ modified rfl
    obtain ⟨⟨bytes, p, value, decoded⟩, _⟩ := again (by simp)
    cases value
    exact (decode_encode_plan.mp decoded).1
  · intro admits decision entry' done applied
    change (f.filterEntry clock entry).result = .ok decision at done
    have still : ∀ {more : Prop}, decision = .keep →
        (f.filterEntry clock' entry).result = .ok .keep →
        (f.filter clock' entry' s').1 = .ok .keep ∧ (decision ≠ .keep → more) := by
      rintro _ rfl kept
      cases applied
      exact ⟨kept, fun changed => absurd rfl changed⟩
    by_cases unread : ∀ e, ¬ f.Reads entry e
    · obtain ⟨rfl, kept⟩ := filterEntry_unread_settles clock' unread done
      exact still rfl kept
    push Not at unread
    obtain ⟨e, reads⟩ := unread
    cases e with
    | plan p =>
      rw [filterEntry_normal_plan normal reads] at done
      cases done
      exact still rfl (by rw [filterEntry_normal_plan normal reads]; rfl)
    | raw raw =>
      rw [filterEntry_normal_raw normal reads] at done
      obtain ⟨rfl, kept⟩ | ⟨plan, planned, rfl⟩ :=
        planRaw_settles normal unhurried unhurried' done
      · exact still rfl (by rw [filterEntry_normal_raw normal reads]; exact kept)
      · cases applied
        have wellFormed := (reads.wellFormed_iff planned).mpr ((admits raw reads).plan planned)
        have decoded := decode_encode_plan.mpr ⟨wellFormed, rfl⟩
        have again : f.filterEntry clock'
            { entry with value := .value (ValueEnvelope.plan plan).encode } = .kept .plansKept :=
          filterEntry_normal_plan normal ⟨reads.1, _, rfl, decoded⟩
        refine ⟨?_, fun _ => ⟨⟨_, plan, rfl, decoded⟩, ?_⟩⟩
        · change (f.filterEntry clock' _).result = _
          rw [again]
          rfl
        · simp only [PiLsmCompactionFilter.filter, again]
          rfl

omit [Digests] in
theorem normal_filter_rejects_own_frame :
    ¬ ∀ [Digests] (f : PiLsmCompactionFilter) (clock clock' : Nat → Nat) (entry : RowEntry)
      (s s' : FilterState), f.mode = .normal → f.planner.options.Unhurried clock →
      f.planner.options.Unhurried clock' →
      ∀ decision entry', (f.filter clock entry s).1 = .ok decision →
        decision.apply entry = some entry' →
        (f.filter clock' entry' s').1 = .ok .keep ∧
        (decision ≠ .keep → (∃ bytes p, entry'.value = .value bytes ∧
            ValueEnvelope.decode bytes f.decodeLimits = .ok (.plan p)) ∧
          (f.filter clock' entry' s').2 = s'.tally .plansKept 1) := by
  intro claim
  have modified : (@PiLsmCompactionFilter.filter sampleDigests
      (sampleFilter .normal true narrowLimits) stopped sampleRow freshState).1 =
        .ok (.modify (.value samplePlanFrame)) := by decide
  have again := (@claim sampleDigests (sampleFilter .normal true narrowLimits) stopped
    stopped sampleRow freshState freshState rfl (fun _ => Nat.zero_le _)
    (fun _ => Nat.zero_le _) _ _ modified rfl).1
  revert again
  decide

omit [Digests] in
theorem normal_filter_settles_sample :
    letI := sampleDigests
    ((sampleFilter .normal true .default).filter stopped
      { sampleRow with value := .value samplePlanFrame } freshState).1 = .ok .keep := by
  let _ := sampleDigests
  have modified : ((sampleFilter .normal true .default).filter stopped sampleRow
      freshState).1 = .ok (.modify (.value samplePlanFrame)) := by decide
  have admits : ∀ raw, (sampleFilter .normal true .default).Reads sampleRow (.raw raw) →
      (barePlanner true).Admits .default raw (barePlanner true).options := by
    rintro raw ⟨_, bytes, value, decoded⟩ plan planned
    cases value
    have same : ValueEnvelope.decode sampleRawFrame .default = .ok (.raw [0x61]) := by decide
    cases same.symm.trans decoded
    have found : (barePlanner true).planWithOptions stopped [0x61]
      (barePlanner true).options = .ok samplePlan := by decide
    cases found.symm.trans planned
    exact ⟨by decide, by decide, by decide, by decide, by decide, by decide,
      by decide⟩
  exact ((normal_filter_settles_iff (sampleFilter .normal true .default) stopped
    stopped sampleRow freshState freshState rfl (fun _ => Nat.zero_le _)
    (fun _ => Nat.zero_le _)).mpr admits _ _ modified rfl).1

end PiLSMer
