import PiLSMer.Core.Bounded
import PiLSMer.Lib.Versions
import PiLSMer.Slate.Durable
import PiLSMer.Slate.TwoVacuums

/-! Compaction jobs over the rows of the engine. A job passes some rows through a filter; if that
fails for none of them, its decisions are applied. Whatever jobs have run, every snapshot sees
what it saw, and for the map of newest rows a job is a sequence of the compaction steps that the
clients live with. -/
namespace PiLSMer
open Versions

def RowEntry.number (row : RowEntry) : Nat := row.seq.toNat

variable [Digests]

/-- A job over some of the rows that its filter lets finish. -/
inductive Job (f : PiLsmCompactionFilter) : List RowEntry → List RowEntry → Prop
  | nil : Job f [] []
  | pass {row : RowEntry} {rows rows' : List RowEntry} (rest : Job f rows rows') :
      Job f (row :: rows) (row :: rows')
  | filter {row : RowEntry} {rows rows' : List RowEntry} {clock : Nat → Nat} {s : FilterState}
      {decision : CompactionFilterDecision} (done : (f.filter clock row s).1 = .ok decision)
      (rest : Job f rows rows') : Job f (row :: rows) ((decision.apply row).toList ++ rows')

/-- What a row is after compaction: the same, or another frame for the same value. -/
structure RowEntry.Becomes (registry : StreamRegistry) (frozen : Set UInt64)
    (row row' : RowEntry) : Prop where
  key : row'.key = row.key
  seq : row'.seq = row.seq
  value : row'.value = row.value ∨ ∃ bytes bytes', row.value = .value bytes ∧
    row'.value = .value bytes' ∧ ∀ v, FrameOf registry bytes v → FrameOf registry bytes' v
  frozen : row.seq ∈ frozen → row' = row

namespace Views

variable {registry : StreamRegistry} {frozen : Set UInt64} {f : PiLsmCompactionFilter}
  {row row' : RowEntry} {rows rows' : List RowEntry}

theorem becomes_refl (row : RowEntry) : row.Becomes registry frozen row :=
  ⟨rfl, rfl, .inl rfl, fun _ => rfl⟩

theorem becomes_trans (a b c : RowEntry) (first : a.Becomes registry frozen b)
    (second : b.Becomes registry frozen c) : a.Becomes registry frozen c where
  key := second.key.trans first.key
  seq := second.seq.trans first.seq
  frozen safe := by
    have same := first.frozen safe
    rw [← same] at safe
    exact (second.frozen safe).trans same
  value := by
    rcases first.value with same | ⟨x, y, here, there, keeps⟩
    · rw [← same]
      exact second.value
    · rcases second.value with same | ⟨y', z, here', there', keeps'⟩
      · exact .inr ⟨x, y, here, same.trans there, keeps⟩
      · rw [there] at here'
        cases here'
        exact .inr ⟨x, z, here, there', fun v h => keeps' v (keeps v h)⟩

theorem stamped : Stamped RowEntry.key RowEntry.number
    (RowEntry.Becomes registry frozen) :=
  ⟨fun _ _ h => h.key, fun _ _ h => congrArg UInt64.toNat h.seq⟩

theorem filter_decides {clock : Nat → Nat} {s : FilterState} {decision : CompactionFilterDecision}
    (done : (f.filter clock row s).1 = .ok decision) :
    decision = .keep ∨ ∃ e, f.Reads row e ∧ (f.dispatch clock f.mode e).result = .ok decision := by
  change (f.filterEntry clock row).result = .ok decision at done
  by_cases unread : ∀ e, ¬ f.Reads row e
  · obtain kept | ⟨err, failed⟩ := filterEntry_unread clock unread
    · exact .inl (Except.ok.inj (done.symm.trans kept))
    · cases failed.symm.trans done
  · push Not at unread
    obtain ⟨e, reads⟩ := unread
    rw [filterEntry_read reads] at done
    exact .inr ⟨e, reads, done⟩

theorem holds_unique {e : ValueEnvelope} {v w : Bytes} (first : e.Holds registry v)
    (second : e.Holds registry w) : v = w := by
  cases e with
  | raw bytes => exact Eq.trans first (Eq.symm second)
  | plan p => exact Except.ok.inj (Eq.trans (Eq.symm first) second)

theorem filter_becomes (below : f.reconstructor.Below registry)
    (shared : f.planner.registry = f.reconstructor)
    (guards : ∀ row : RowEntry, row.seq ∈ frozen → f.Protected row) {clock : Nat → Nat}
    {s : FilterState} {decision : CompactionFilterDecision}
    (done : (f.filter clock row s).1 = .ok decision) :
    ∃ row', decision.apply row = some row' ∧ row.Becomes registry frozen row' := by
  rcases filter_decides done with rfl | ⟨e, ⟨reach, bytes, value, decoded⟩, dispatched⟩
  · exact ⟨row, rfl, becomes_refl row⟩
  · rcases dispatch_sound f clock f.mode e with kept | ⟨err, failed⟩ | ⟨v, p, holds, planned, eq⟩
    · cases kept.symm.trans dispatched
      exact ⟨row, rfl, becomes_refl row⟩
    · cases failed.symm.trans dispatched
    · cases eq.symm.trans dispatched
      have rebuilt := (Planner.planWithOptions_made planned).rebuilds
      rw [shared] at rebuilt
      refine ⟨_, rfl, rfl, rfl, .inr ⟨bytes, _, value, rfl, fun w frame => ?_⟩,
        fun safe => absurd (guards row safe) reach⟩
      have same := holds_unique (below.holds holds) (frame.decoded decoded)
      exact ⟨.plan p, rfl, same ▸ below.reconstruct rebuilt⟩

theorem job_becomes (below : f.reconstructor.Below registry)
    (shared : f.planner.registry = f.reconstructor)
    (guards : ∀ row : RowEntry, row.seq ∈ frozen → f.Protected row) (job : Job f rows rows') :
    List.Forall₂ (RowEntry.Becomes registry frozen) rows rows' := by
  induction job with
  | nil => exact .nil
  | pass _ ih => exact .cons (becomes_refl _) ih
  | filter done _ ih =>
    obtain ⟨row', applied, becomes⟩ := filter_becomes below shared guards done
    rw [applied]
    exact .cons becomes ih

end Views

/-- What happens in the engine after a snapshot was taken: rows with later numbers, and jobs whose
filters hold back from the frozen rows. -/
inductive EngineStep (registry : StreamRegistry) (frozen : Set UInt64) (snapshot : Nat) :
    List RowEntry → List RowEntry → Prop
  | write {rows : List RowEntry} {row : RowEntry} (later : snapshot < row.number) :
      EngineStep registry frozen snapshot rows (row :: rows)
  | job {f : PiLsmCompactionFilter} {rows rows' : List RowEntry} (own : f.reconstructor = registry)
      (shared : f.planner.registry = registry)
      (guards : ∀ row : RowEntry, row.seq ∈ frozen → f.Protected row) (job : Job f rows rows') :
      EngineStep registry frozen snapshot rows rows'

abbrev Sees (rows : List RowEntry) (snapshot : Nat) (key : Bytes) (row : RowEntry) : Prop :=
  Visible RowEntry.key RowEntry.number rows snapshot key row

/-- Whatever is written and whatever jobs run, in whatever mode, a snapshot sees a row of a key if
it saw one, with the same value; a tombstone stays one, and a frozen row is the same bytes. -/
theorem snapshots_keep_their_view {registry : StreamRegistry} {frozen : Set UInt64}
    {snapshot : Nat} {rows rows' : List RowEntry}
    (run : Relation.ReflTransGen (EngineStep registry frozen snapshot) rows rows') (key : Bytes) :
    (∀ row, Sees rows snapshot key row →
      ∃ row', Sees rows' snapshot key row' ∧ row.Becomes registry frozen row') ∧
    ∀ row', Sees rows' snapshot key row' →
      ∃ row, Sees rows snapshot key row ∧ row.Becomes registry frozen row' := by
  refine view_kept Views.stamped Views.becomes_refl Views.becomes_trans
    (run.lift id (fun rows rows' step => ?_)) key
  cases step with
  | write later => exact .write later
  | job own shared guards job =>
    subst own
    exact .change (Views.job_becomes (StreamRegistry.Below.refl _) shared guards job)

def samplePlanRow : RowEntry := { sampleRow with value := .value samplePlanFrame }

omit [Digests] in
theorem sample_filtered :
    letI := sampleDigests
    ((sampleFilter .normal true .default).filter stopped sampleRow freshState).1 =
      .ok (.modify (.value samplePlanFrame)) := by decide

omit [Digests] in
theorem snapshots_keep_their_view_sample :
    letI := sampleDigests
    Sees [sampleRow] 5 [0x6b] sampleRow ∧
    ∃ row', Sees [⟨[0x6b], .tombstone, 12⟩, samplePlanRow] 5 [0x6b] row' ∧
      sampleRow.Becomes ⟨[]⟩ {seq | 10 ≤ seq} row' := by
  let _ := sampleDigests
  let later : RowEntry := ⟨[0x6b], .tombstone, 12⟩
  let f := sampleFilter .normal true .default
  have sees : Sees [sampleRow] 5 [0x6b] sampleRow := by
    refine ⟨.head _, rfl, by decide, fun other member _ _ => ?_⟩
    rw [List.mem_singleton.mp member]
  have guards : ∀ row : RowEntry, row.seq ∈ {seq : UInt64 | 10 ≤ seq} → f.Protected row := by
    intro row safe
    refine ⟨rfl, ?_⟩
    simp only [f, sampleFilter, PiLsmCompactionFilter.snapshotSafeToModify, decide_eq_true_eq]
    exact UInt64.not_lt.mpr safe
  have job : Job f [later, sampleRow] [later, samplePlanRow] := .pass (.filter sample_filtered .nil)
  have run : Relation.ReflTransGen (EngineStep ⟨[]⟩ {seq | 10 ≤ seq} 5) [sampleRow]
      [later, samplePlanRow] :=
    .tail (.single (.write (show 5 < later.number by decide))) (.job rfl rfl guards job)
  exact ⟨sees, (snapshots_keep_their_view run [0x6b]).1 sampleRow sees⟩

def Stores (rows : List RowEntry) (store : Bytes → Option Bytes) : Prop :=
  ∀ key frame, store key = some frame ↔
    ∃ row, Sees rows (2 ^ 64) key row ∧ row.value = .value frame

abbrev Numbered (rows : List RowEntry) : Prop :=
  Distinct RowEntry.key RowEntry.number rows

namespace Views

variable {registry : StreamRegistry} {frozen : Set UInt64} {f : PiLsmCompactionFilter}
  {row row' : RowEntry} {rows rows' : List RowEntry}

def swap (row row' other : RowEntry) : RowEntry := if other = row then row' else other

omit [Digests] in
theorem swap_self : swap row row' row = row' := if_pos rfl

omit [Digests] in
theorem swap_other {other : RowEntry} (differ : other ≠ row) : swap row row' other = other :=
  if_neg differ

theorem swap_key (becomes : row.Becomes registry frozen row') (other : RowEntry) :
    (swap row row' other).key = other.key := by
  by_cases same : other = row
  · rw [same, swap_self, becomes.key]
  · rw [swap_other same]

theorem swap_seq (becomes : row.Becomes registry frozen row') (other : RowEntry) :
    (swap row row' other).number = other.number := by
  by_cases same : other = row
  · rw [same, swap_self, RowEntry.number, becomes.seq]
    rfl
  · rw [swap_other same]

omit [Digests] in
theorem swap_append {before after : List RowEntry} (numbered : Numbered (before ++ row :: after)) :
    (before ++ row :: after).map (swap row row') = before ++ row' :: after := by
  obtain ⟨_, tail, apart⟩ := List.pairwise_append.mp numbered
  have first : before.map (swap row row') = before := by
    refine List.map_congr_left (fun other member => swap_other ?_) |>.trans (List.map_id _)
    rintro rfl
    exact apart other member other (.head _) rfl rfl
  have last : after.map (swap row row') = after := by
    refine List.map_congr_left (fun other member => swap_other ?_) |>.trans (List.map_id _)
    rintro rfl
    exact (List.pairwise_cons.mp tail).1 other member rfl rfl
  rw [List.map_append, List.map_cons, first, last, swap_self]

theorem numbered_swap (becomes : row.Becomes registry frozen row') (numbered : Numbered rows) :
    Numbered (rows.map (swap row row')) := by
  refine List.pairwise_map.mpr (numbered.imp (fun {a b} apart keys => ?_))
  rw [swap_key becomes, swap_key becomes] at keys
  rw [swap_seq becomes, swap_seq becomes]
  exact apart keys

/-- For the map of newest rows, a row replaced is a compaction step or nothing. -/
theorem swap_stores (becomes : row.Becomes registry frozen row') (numbered : Numbered rows)
    {s : Db} (stores : Stores rows s.store) :
    ∃ s', Relation.ReflTransGen (Compacts registry) s s' ∧
      Stores (rows.map (swap row row')) s'.store := by
  have shows (key frame : Bytes) : (∃ r, Sees (rows.map (swap row row')) (2 ^ 64) key r ∧
      r.value = .value frame) ↔
      ∃ r, Sees rows (2 ^ 64) key r ∧ (swap row row' r).value = .value frame := by
    simp only [Sees, visible_map (swap_key becomes) (swap_seq becomes)]
    constructor
    · rintro ⟨_, ⟨r, visible, rfl⟩, value⟩
      exact ⟨r, visible, value⟩
    · rintro ⟨r, visible, value⟩
      exact ⟨_, ⟨r, visible, rfl⟩, value⟩
  by_cases newest : ∃ frame, Sees rows (2 ^ 64) row.key row ∧ row.value = .value frame
  · obtain ⟨frame, visible, value⟩ := newest
    obtain ⟨frame', value', keeps⟩ : ∃ frame', row'.value = .value frame' ∧
        ∀ v, FrameOf registry frame v → FrameOf registry frame' v := by
      rcases becomes.value with same | ⟨x, y, here, there, keeps⟩
      · exact ⟨frame, same.trans value, fun _ h => h⟩
      · cases here.symm.trans value
        exact ⟨y, there, keeps⟩
    have there := (stores row.key frame).mpr ⟨row, visible, value⟩
    refine ⟨_, .single ⟨row.key, frame, frame', there, keeps, rfl⟩, fun key found => ?_⟩
    rw [shows]
    change Function.update s.store row.key (some frame') key = some found ↔ _
    by_cases same : key = row.key
    · subst same
      rw [Function.update_self, Option.some.injEq]
      constructor
      · rintro rfl
        exact ⟨row, visible, by rw [swap_self, value']⟩
      · rintro ⟨r, other, content⟩
        rw [other.unique numbered visible, swap_self, value'] at content
        cases content
        rfl
    · rw [Function.update_of_ne same, stores]
      refine exists_congr (fun r => and_congr_right (fun other => ?_))
      have differ : r ≠ row := by
        rintro rfl
        exact same other.keyed.symm
      rw [swap_other differ]
  · refine ⟨s, .refl, fun key found => ?_⟩
    rw [shows, stores]
    refine exists_congr (fun r => and_congr_right (fun visible => ?_))
    by_cases same : r = row
    · subst same
      rw [swap_self]
      rcases becomes.value with same | ⟨x, y, here, _, _⟩
      · rw [same]
      · have keyed := visible.keyed
        subst keyed
        exact absurd ⟨x, visible, here⟩ newest
    · rw [swap_other same]

theorem job_stores (below : f.reconstructor.Below registry)
    (shared : f.planner.registry = f.reconstructor) (job : Job f rows rows')
    (before : List RowEntry) (numbered : Numbered (before ++ rows)) {s : Db}
    (stores : Stores (before ++ rows) s.store) :
    ∃ s', Relation.ReflTransGen (Compacts registry) s s' ∧ Stores (before ++ rows') s'.store := by
  induction job generalizing before s with
  | nil => exact ⟨s, .refl, stores⟩
  | @pass row rows rows' _ ih =>
    rw [List.append_cons] at numbered stores ⊢
    exact ih (before ++ [row]) numbered stores
  | @filter row rows rows' _ _ _ done _ ih =>
    have guards : ∀ row : RowEntry, row.seq ∈ (∅ : Set UInt64) → f.Protected row :=
      fun _ none => none.elim
    obtain ⟨row', applied, becomes⟩ := filter_becomes below shared guards done
    rw [applied]
    obtain ⟨s₁, moved, stores₁⟩ := swap_stores becomes numbered stores
    have numbered₁ := numbered_swap becomes numbered
    rw [swap_append numbered, List.append_cons] at stores₁ numbered₁
    obtain ⟨s', rest, stores'⟩ := ih (before ++ [row']) numbered₁ stores₁
    rw [← List.append_cons] at stores'
    exact ⟨s', moved.trans rest, stores'⟩

theorem job_numbered (shared : f.planner.registry = f.reconstructor) (job : Job f rows rows')
    (numbered : Numbered rows) : Numbered rows' := by
  have guards : ∀ row : RowEntry, row.seq ∈ (∅ : Set UInt64) → f.Protected row :=
    fun _ none => none.elim
  exact numbered.related stamped (job_becomes (StreamRegistry.Below.refl _) shared guards job)

end Views

/-- A job is, for the map of newest rows, a sequence of the compaction steps that the clients
live with. -/
theorem job_compacts {f : PiLsmCompactionFilter} {rows rows' : List RowEntry}
    (shared : f.planner.registry = f.reconstructor) (job : Job f rows rows')
    (numbered : Numbered rows) {s : Db} (stores : Stores rows s.store) :
    ∃ s', Relation.ReflTransGen (Compacts f.reconstructor) s s' ∧ Stores rows' s'.store :=
  Views.job_stores (StreamRegistry.Below.refl _) shared job [] numbered stores

omit [Digests] in
theorem job_compacts_sample :
    letI := sampleDigests
    ∃ s s' : Db, Relation.ReflTransGen (Compacts ⟨[]⟩) s s' ∧ s.store [0x6b] = some sampleRawFrame ∧
      Stores [samplePlanRow] s'.store := by
  let _ := sampleDigests
  let s : Db := { Db.empty 0 with
    store := Function.update (fun _ => none) [0x6b] (some sampleRawFrame) }
  have there : s.store [0x6b] = some sampleRawFrame := by decide
  have stores : Stores [sampleRow] s.store := by
    intro key frame
    constructor
    · intro found
      obtain ⟨rfl, rfl⟩ := only_stored found
      refine ⟨sampleRow, ⟨.head _, rfl, by decide, fun other member _ _ => ?_⟩, rfl⟩
      rw [List.mem_singleton.mp member]
    · rintro ⟨row, visible, value⟩
      have keyed := visible.keyed
      rw [List.mem_singleton.mp visible.member] at value keyed
      cases value
      exact keyed ▸ there
  have job : Job (sampleFilter .normal true .default) [sampleRow] [samplePlanRow] :=
    .filter sample_filtered .nil
  obtain ⟨s', moved, stores'⟩ := job_compacts rfl job (List.pairwise_singleton _ _) stores
  exact ⟨s, s', moved, there, stores'⟩

/-- The rank of a row: the filter's own score of a plan as it is written, above all scores for
anything else. -/
noncomputable def RowEntry.rank (row : RowEntry) : Nat :=
  open Classical in
  if written : ∃ p, row.value = .value (ValueEnvelope.plan p).encode then
    filterPlanScore (ValueEnvelope.plan written.choose).encode
  else maxScore + 1

noncomputable def totalRank (rows : List RowEntry) : Nat := (rows.map RowEntry.rank).sum

namespace Views

variable {f : PiLsmCompactionFilter} {row row' : RowEntry} {rows rows' : List RowEntry}

theorem rank_plan {p : ReconstructionPlan}
    (written : row.value = .value (ValueEnvelope.plan p).encode) :
    row.rank = filterPlanScore (ValueEnvelope.plan p).encode := by
  have some : ∃ p, row.value = .value (ValueEnvelope.plan p).encode := ⟨p, written⟩
  rw [RowEntry.rank, dif_pos some]
  have same := some.choose_spec.symm.trans written
  exact congrArg filterPlanScore (ValueDeletable.value.inj same)

theorem rank_other (other : ∀ p, row.value ≠ .value (ValueEnvelope.plan p).encode) :
    row.rank = maxScore + 1 :=
  dif_neg (fun ⟨p, written⟩ => other p written)

theorem score_le (p : ReconstructionPlan) :
    filterPlanScore (ValueEnvelope.plan p).encode ≤ maxScore := by
  by_cases wellFormed : p.WellFormed .default
  · rw [filterPlanScore_wellFormed wellFormed]
    exact Nat.le_of_lt (planScore_lt_maxScore wellFormed)
  · rw [filterPlanScore_illFormed wellFormed]

def Lowers (e : ValueEnvelope) (result : Except PiLsmError CompactionFilterDecision) : Prop :=
  ∀ decision, result = .ok decision → decision = .keep ∨ ∃ new,
    decision = .modify (.value (ValueEnvelope.plan new).encode) ∧ ∀ old, e = .plan old →
      filterPlanScore (ValueEnvelope.plan new).encode <
        filterPlanScore (ValueEnvelope.plan old).encode

theorem kept_lowers (e : ValueEnvelope) : Lowers e (.ok .keep) :=
  fun _ done => .inl (Except.ok.inj done).symm

theorem planRaw_lowers (f : PiLsmCompactionFilter) (clock : Nat → Nat) (raw : Bytes) :
    Lowers (.raw raw) (f.planRaw clock raw).result := by
  obtain ⟨new, _, eq⟩ | ⟨_, _, _, eq⟩ | ⟨err, _, _, eq⟩ :=
    planRaw_cases (f := f) clock raw
  · rw [eq]
    exact fun _ done => .inr ⟨new, (Except.ok.inj done).symm, fun _ none => (by cases none)⟩
  · rw [eq]
    exact kept_lowers _
  · rw [eq]
    exact fun _ done => (by cases done)

theorem improvePlan_lowers (f : PiLsmCompactionFilter) (clock : Nat → Nat)
    (p : ReconstructionPlan) : Lowers (.plan p) (f.improvePlan clock p).result := by
  obtain ⟨_, new, _, _, better, eq⟩ | ⟨_, _, _, eq⟩ | ⟨err, _, eq⟩ :=
    improvePlan_cases (f := f) clock p
  · rw [eq]
    refine fun _ done => .inr ⟨new, (Except.ok.inj done).symm, fun old same => ?_⟩
    cases same
    exact better
  · rw [eq]
    exact kept_lowers _
  · rw [eq]
    exact fun _ done => (by cases done)

theorem dispatch_lowers (f : PiLsmCompactionFilter) (clock : Nat → Nat) (mode : CompactionMode)
    (e : ValueEnvelope) : Lowers e (f.dispatch clock mode e).result := by
  cases e with
  | raw bytes =>
    cases mode with
    | disabled => exact kept_lowers _
    | _ => exact planRaw_lowers f clock bytes
  | plan p =>
    cases mode with
    | vacuumMeaning => exact improvePlan_lowers f clock p
    | _ => exact kept_lowers _

theorem filter_lowers {clock : Nat → Nat} {s : FilterState} {decision : CompactionFilterDecision}
    (done : (f.filter clock row s).1 = .ok decision) :
    ∃ row', decision.apply row = some row' ∧ (row' = row ∨ row'.rank < row.rank) := by
  rcases filter_decides done with rfl | ⟨e, ⟨_, bytes, value, decoded⟩, dispatched⟩
  · exact ⟨row, rfl, .inl rfl⟩
  · rcases dispatch_lowers f clock f.mode e decision dispatched with rfl | ⟨new, rfl, better⟩
    · exact ⟨row, rfl, .inl rfl⟩
    · refine ⟨_, rfl, .inr ?_⟩
      rw [rank_plan (p := new) rfl]
      by_cases written : ∃ old, row.value = .value (ValueEnvelope.plan old).encode
      · obtain ⟨old, written⟩ := written
        rw [rank_plan written]
        cases written.symm.trans value
        exact better old (decode_encode_sound decoded)
      · push Not at written
        rw [rank_other written]
        exact Nat.lt_succ_of_le (score_le new)

theorem totalRank_cons (row : RowEntry) (rows : List RowEntry) :
    totalRank (row :: rows) = row.rank + totalRank rows := by
  rw [totalRank, List.map_cons, List.sum_cons, totalRank]

theorem job_lowers (job : Job f rows rows') :
    rows' = rows ∨ totalRank rows' < totalRank rows := by
  induction job with
  | nil => exact .inl rfl
  | @pass row rows rows' _ ih =>
    rcases ih with rfl | lower
    · exact .inl rfl
    · rw [totalRank_cons, totalRank_cons]
      exact .inr (Nat.add_lt_add_left lower _)
  | @filter row rows rows' _ _ _ done _ ih =>
    obtain ⟨row', applied, changed⟩ := filter_lowers done
    rw [applied, Option.toList_some, List.singleton_append]
    rw [totalRank_cons, totalRank_cons]
    rcases changed with rfl | first <;> rcases ih with rfl | rest
    · exact .inl rfl
    · exact .inr (Nat.add_lt_add_left rest _)
    · exact .inr (Nat.add_lt_add_right first _)
    · exact .inr (Nat.add_lt_add first rest)

end Views

/-- Compaction settles: jobs that run over the same rows again and again, with any filters, change
them a bounded number of times, and then no more. -/
theorem compaction_settles {rows : Nat → List RowEntry}
    (jobs : ∀ n, ∃ f : PiLsmCompactionFilter, Job f (rows n) (rows (n + 1))) :
    (∀ n, (List.range n).countP (fun i => rows (i + 1) ≠ rows i) ≤ totalRank (rows 0)) ∧
    ∃ settled, ∀ n, settled ≤ n → rows n = rows settled := by
  have descends (n : Nat) : rows (n + 1) = rows n ∨
      totalRank (rows (n + 1)) < totalRank (rows n) := by
    obtain ⟨f, job⟩ := jobs n
    exact Views.job_lowers job
  constructor
  · intro n
    exact Nat.le_trans (Nat.le_add_right _ _) (changes_bounded descends n)
  · exact settles descends

omit [Digests] in
theorem compaction_settles_sample :
    letI := sampleDigests
    ∃ rows : Nat → List RowEntry, rows 0 = [sampleRow] ∧ rows 1 = [samplePlanRow] ∧
      ∃ settled, ∀ n, settled ≤ n → rows n = rows settled := by
  let _ := sampleDigests
  let rows : Nat → List RowEntry := fun n => if n = 0 then [sampleRow] else [samplePlanRow]
  have jobs : ∀ n, ∃ f : PiLsmCompactionFilter, Job f (rows n) (rows (n + 1)) := by
    intro n
    refine ⟨sampleFilter .normal true .default, ?_⟩
    cases n with
    | zero => exact .filter sample_filtered .nil
    | succ n => exact .pass .nil
  exact ⟨rows, rfl, rfl, (compaction_settles jobs).2⟩

end PiLSMer
