import PiLSMer.Lib.Locking
import PiLSMer.Slate.ReadPaths

/-! Who waits for whom. Every operation of PiLsmDb takes a key lock with empty hands and gives
it back on every path, errors included. So whatever clients put together from the operations
comes to an end under every schedule. -/
namespace PiLSMer
open Interleave

def DbAct.locking : ∀ β : Type, DbAct β → Locking Bytes
  | _, .lock key => .takes key
  | _, .unlock key => .frees key
  | _, _ => .neither

/-- The key locks of the machine. A lock is waited for, nothing else is. -/
def dbLocks : Locks dbMachine Bytes where
  owner s := s.locks
  role := DbAct.locking
  taken {β a key o t s b s'} role run k u := by
    cases a with
    | lock key' =>
      cases role
      obtain ⟨free, rfl⟩ := exec_lock run
      by_cases same : k = key
      · subst same
        simp [free, eq_comm]
      · simp [same]
    | _ => cases role
  freed {β a key o t s b s'} role run k u := by
    cases a with
    | unlock key' =>
      cases role
      cases run
      by_cases same : k = key
      · subst same
        simp
      · simp [same]
    | _ => cases role
  left {β a o t s b s'} role run := by
    cases a with
    | lock key => cases role
    | unlock key => cases role
    | _ =>
      cases run
      rfl
  waits {β a key} t s role free := by
    cases a with
    | lock key' =>
      cases role
      exact ⟨⟨fun _ => 0, 0, fun _ => 0⟩, (), _, if_pos free⟩
    | _ => cases role
  goes {β a} t s role := by
    cases a with
    | lock key => exact absurd rfl (role key)
    | _ => exact ⟨⟨fun _ => 0, 0, fun _ => 0⟩, _, _, rfl⟩

def Tidy {α : Type} (op : DbOp α) (held : Option Bytes) : Prop :=
  op.run.Tidy DbAct.locking held held

section Tidy

variable {α γ : Type} {held : Option Bytes}

theorem Tidy.pure (a : α) : Tidy (pure a : DbOp α) held := rfl

theorem Tidy.throw (e : PiLsmError) : Tidy (throw e : DbOp α) held := rfl

theorem Tidy.andThen {x : DbOp α} {f : α → DbOp γ} (first : Tidy x held)
    (next : ∀ a, Tidy (f a) held) : Tidy (x >>= f) held :=
  Prog.Tidy.andThen first next

theorem Tidy.issue {a : DbAct α} (role : DbAct.locking α a = .neither) :
    Tidy (issue a : DbOp α) held := by
  refine ⟨held, ?_, fun _ => rfl⟩
  rw [role]
  rfl

theorem Tidy.holding {key : Bytes} {body : DbOp α} (h : Tidy body (some key)) :
    Tidy (holding key body) none := by
  refine ⟨some key, ⟨rfl, rfl⟩, fun _ => ?_⟩
  have release : ∀ r : Except PiLsmError α,
      (perform (DbAct.unlock key) >>= fun _ => Prog.done r).Tidy DbAct.locking none (some key) :=
    fun _ => ⟨none, ⟨rfl, rfl⟩, fun _ => rfl⟩
  exact Prog.Tidy.bind (p := body.run) h release

end Tidy

variable [Digests] (db : PiLsmDb) {held : Option Bytes}

theorem tidy_planBytesWithOptions (bytes : Bytes) (options : PlanOptions) :
    Tidy (db.planBytesWithOptions bytes options) held :=
  ⟨held, rfl, fun _ => ⟨held, rfl, fun _ => rfl⟩⟩

theorem tidy_newEnvelope (value : Bytes) (options : PutOptions) :
    Tidy (db.newEnvelope value options) held := by
  unfold PiLsmDb.newEnvelope
  split
  · exact (tidy_planBytesWithOptions db value _).andThen (fun _ => Tidy.pure _)
  · exact Tidy.pure _

theorem tidy_putWithOptions (key value : Bytes) (options : PutOptions) :
    Tidy (db.putWithOptions key value options) none := by
  refine Tidy.holding ((tidy_newEnvelope db value options).andThen (fun envelope => ?_))
  refine (Tidy.issue rfl).andThen (fun _ => ?_)
  split
  · exact (Tidy.issue rfl).andThen (fun _ => Tidy.pure _)
  · exact Tidy.pure _

omit [Digests] in
theorem tidy_delete (key : Bytes) : Tidy (db.delete key) none :=
  Tidy.holding ((Tidy.issue rfl).andThen (fun _ => Tidy.pure _))

theorem tidy_reconstructPlan (p : ReconstructionPlan) (limit : UInt64) :
    Tidy (db.reconstructPlan p limit) held := by
  unfold PiLsmDb.reconstructPlan
  split
  · exact Tidy.throw _
  refine (Tidy.issue rfl).andThen (fun found => ?_)
  cases found with
  | some value => exact Tidy.pure _
  | none =>
    refine (Tidy.issue rfl).andThen (fun _ => ?_)
    cases reconstructWithLimit db.reconstructor p limit with
    | error e => exact Tidy.throw _
    | ok value =>
      exact (Tidy.issue rfl).andThen (fun _ => (Tidy.issue rfl).andThen (fun _ => Tidy.pure _))

theorem tidy_logicalBytes (e : ValueEnvelope) (limit : UInt64) :
    Tidy (db.logicalBytes e limit) held := by
  cases e with
  | raw bytes => exact Tidy.pure _
  | plan p => exact tidy_reconstructPlan db p limit

theorem tidy_getEnvelope (key : Bytes) : Tidy (db.getEnvelope key) held := by
  refine (Tidy.issue rfl).andThen (fun found => ?_)
  cases found with
  | none => exact Tidy.pure _
  | some encoded =>
    dsimp only
    cases ValueEnvelope.decode encoded db.decodeLimits with
    | ok e => exact Tidy.pure _
    | error e => exact Tidy.throw _

theorem tidy_get (key : Bytes) : Tidy (db.get key) held := by
  refine (tidy_getEnvelope db key).andThen (fun found => ?_)
  cases found with
  | none => exact Tidy.pure _
  | some e => exact (tidy_logicalBytes db e _).andThen (fun _ => Tidy.pure _)

theorem tidy_explain (key : Bytes) : Tidy (db.explain key) held := by
  refine (Tidy.issue rfl).andThen (fun found => ?_)
  cases found with
  | none => exact Tidy.pure _
  | some encoded =>
    dsimp only
    cases ValueEnvelope.decode encoded db.decodeLimits with
    | ok e => exact Tidy.pure _
    | error e => exact Tidy.throw _

theorem tidy_next (it : PiLsmIterator) (entry : Option (Bytes × Bytes)) :
    Tidy (it.next entry) held := by
  cases entry with
  | none => exact Tidy.pure _
  | some row =>
    simp only [PiLsmIterator.next]
    split
    · cases ValueEnvelope.decode row.2 it.decodeLimits with
      | error e => exact Tidy.throw _
      | ok e =>
        cases e with
        | raw bytes => exact Tidy.pure _
        | plan p =>
          dsimp only
          split
          · exact Tidy.throw _
          refine (Tidy.issue rfl).andThen (fun found => ?_)
          cases found with
          | some value => exact Tidy.pure _
          | none =>
            refine (Tidy.issue rfl).andThen (fun _ => ?_)
            cases reconstructWithLimit it.reconstructor p it.maxReconstructBytes with
            | error e => exact Tidy.throw _
            | ok value =>
              exact (Tidy.issue rfl).andThen (fun _ =>
                (Tidy.issue rfl).andThen (fun _ => Tidy.pure _))
    · exact Tidy.pure _

theorem tidy_explainNext (it : PiLsmExplainIterator) (entry : Option (Bytes × Bytes)) :
    Tidy (it.next entry) held := by
  cases entry with
  | none => exact Tidy.pure _
  | some row =>
    simp only [PiLsmExplainIterator.next]
    cases ValueEnvelope.decode row.2 it.decodeLimits with
    | ok e => exact Tidy.pure _
    | error e => exact Tidy.throw _

theorem tidy_readCurrentEnvelope (key : Bytes) :
    Tidy (holding key (db.readCurrentEnvelope key)) none := by
  refine Tidy.holding ((Tidy.issue rfl).andThen (fun found => ?_))
  cases found with
  | none => exact Tidy.pure _
  | some encoded =>
    dsimp only
    cases ValueEnvelope.decode encoded db.decodeLimits with
    | ok e => exact Tidy.pure _
    | error e => exact Tidy.throw _

theorem tidy_writeIfSourceUnchanged (key : Bytes) (hash : Arr 32) (encodedPlan : Bytes)
    (report : PlanReport) : Tidy (db.writeIfSourceUnchanged key hash encodedPlan report) none := by
  refine Tidy.holding ((Tidy.issue rfl).andThen (fun found => ?_))
  cases found with
  | none => exact Tidy.pure _
  | some current =>
    dsimp only
    split
    · exact Tidy.pure _
    · exact (Tidy.issue rfl).andThen (fun _ => Tidy.pure _)

theorem tidy_planAndWrite (key : Bytes) (source : Source) (bytes : Bytes) (options : PlanOptions)
    (oldChunkCount : Option Nat) (unwanted : Bytes → Nat → Bool) :
    Tidy (db.planAndWrite key source bytes options oldChunkCount unwanted) none := by
  have attempted : Tidy (attempt (db.planBytesWithOptions bytes options)) none :=
    ⟨none, rfl, fun _ => ⟨none, rfl, fun _ => rfl⟩⟩
  refine attempted.andThen (fun result => ?_)
  cases result with
  | error e =>
    cases e with
    | planningFailed reason => exact (Tidy.issue rfl).andThen (fun _ => Tidy.pure _)
    | _ => exact Tidy.throw _
  | ok plan =>
    dsimp only
    split
    · exact Tidy.pure _
    · exact tidy_writeIfSourceUnchanged db key _ _ _

omit [Digests] in
theorem tidy_countRewritten (report : PlanReport) (counter : DbCounter) (value : UInt64) :
    Tidy (countRewritten report counter value) held := by
  unfold countRewritten
  split
  · exact (Tidy.issue rfl).andThen (fun _ => Tidy.pure _)
  · exact Tidy.pure _

theorem tidy_planKey (key : Bytes) (options : PlanOptions) :
    Tidy (db.planKey key options) none := by
  refine (tidy_readCurrentEnvelope db key).andThen (fun found => ?_)
  cases found with
  | none => exact Tidy.pure _
  | some source =>
    cases content : source.envelope with
    | plan p =>
      simp only [content]
      exact Tidy.pure _
    | raw bytes =>
      simp only [content]
      exact (tidy_planAndWrite db key source bytes options _ _).andThen
        (fun report => tidy_countRewritten report _ _)

theorem tidy_vacuumMeaning (key : Bytes) (options : VacuumOptions) :
    Tidy (db.vacuumMeaning key options) none := by
  refine (Tidy.issue rfl).andThen (fun _ =>
    (tidy_readCurrentEnvelope db key).andThen (fun found => ?_))
  cases found with
  | none => exact Tidy.pure _
  | some source =>
    cases content : source.envelope with
    | raw bytes =>
      simp only [content]
      exact tidy_planKey db key options.planOptions
    | plan old =>
      simp only [content]
      exact (tidy_reconstructPlan db old _).andThen (fun w =>
        (tidy_planAndWrite db key source w _ _ _).andThen
          (fun report => tidy_countRewritten report _ _))

theorem tidy_replanKey (key : Bytes) (options : VacuumOptions) :
    Tidy (db.replanKey key options) none := by
  refine (tidy_readCurrentEnvelope db key).andThen (fun found => ?_)
  cases found with
  | none => exact Tidy.pure _
  | some source =>
    exact (tidy_logicalBytes db source.envelope _).andThen (fun w =>
      tidy_planAndWrite db key source w _ _ _)

/-- What a client can put together from the operations of a handle: one after the other, each
depending on what those before it returned. A failure that is not caught ends the client. -/
inductive Served (db : PiLsmDb) : ∀ {α : Type}, DbOp α → Prop where
  | pure {α : Type} (a : α) : Served db (pure a)
  | throw {α : Type} (e : PiLsmError) : Served db (throw e : DbOp α)
  | put (key value : Bytes) (options : PutOptions) : Served db (db.putWithOptions key value options)
  | delete (key : Bytes) : Served db (db.delete key)
  | get (key : Bytes) : Served db (db.get key)
  | getEnvelope (key : Bytes) : Served db (db.getEnvelope key)
  | explain (key : Bytes) : Served db (db.explain key)
  | next (options : ScanOptions) (entry : Option (Bytes × Bytes)) :
      Served db ((db.scanWithOptions options).next entry)
  | explainNext (entry : Option (Bytes × Bytes)) : Served db (db.scanExplain.next entry)
  | planKey (key : Bytes) (options : PlanOptions) : Served db (db.planKey key options)
  | vacuumMeaning (key : Bytes) (options : VacuumOptions) :
      Served db (db.vacuumMeaning key options)
  | replanKey (key : Bytes) (options : VacuumOptions) : Served db (db.replanKey key options)
  | flush : Served db (issue .flush)
  | andThen {α γ : Type} {x : DbOp α} {f : α → DbOp γ} (first : Served db x)
      (next : ∀ a, Served db (f a)) : Served db (x >>= f)
  | attempt {α : Type} {x : DbOp α} (inner : Served db x) : Served db (attempt x)

variable {db}

theorem Served.tidy {α : Type} {op : DbOp α} (served : Served db op) : Tidy op none := by
  induction served with
  | pure a => exact Tidy.pure a
  | throw e => exact Tidy.throw e
  | put key value options => exact tidy_putWithOptions db key value options
  | delete key => exact tidy_delete db key
  | get key => exact tidy_get db key
  | getEnvelope key => exact tidy_getEnvelope db key
  | explain key => exact tidy_explain db key
  | next options entry => exact tidy_next _ entry
  | explainNext entry => exact tidy_explainNext _ entry
  | planKey key options => exact tidy_planKey db key options
  | vacuumMeaning key options => exact tidy_vacuumMeaning db key options
  | replanKey key options => exact tidy_replanKey db key options
  | flush => exact Tidy.issue rfl
  | andThen _ _ first next => exact first.andThen next
  | attempt _ inner => exact Prog.Tidy.bind inner (fun _ => rfl)

def Clients (db : PiLsmDb) {α : Type} (p : Prog DbAct (Except PiLsmError α)) : Prop :=
  ∃ op : DbOp α, Served db op ∧ p = op.run

/-- No deadlock and no lock left behind. In every state that clients reach, a held lock belongs to
a client that has not ended; while there is one of these, some client can move; and under every
schedule that does not neglect the clients all of them end, with every key lock free. Compaction
and other engine work may come in between. -/
theorem clients_end {α : Type} (db : PiLsmDb) (cacheBytes : UInt64) {env : Db → Db → Prop}
    (keeps : ∀ s s', env s s' → s'.locks = s.locks) {good : Db → Prop}
    {pool : Pool DbAct Db (Except PiLsmError α)}
    (reach : Pool.Reach dbMachine (Clients db) env good (Db.empty cacheBytes) pool) :
    (∀ key t, pool.state.locks key = some t →
      ∃ (β : Type) (a : DbAct β) (next : β → Prog DbAct _), pool.threads[t]? = some (.act a next)) ∧
    (pool.Busy → ∃ pool', Pool.Turns dbMachine pool pool') ∧
    ∀ run : Nat → Pool DbAct Db (Except PiLsmError α), run 0 = pool →
      (∀ i, Pool.Step dbMachine (fun _ => False) env (run i) (run (i + 1))) →
      (∀ i, (run i).Busy → ∃ j, i ≤ j ∧ (run (j + 1)).threads ≠ (run j).threads) →
      ∃ n, ¬ (run n).Busy ∧ ∀ key, (run n).state.locks key = none := by
  have tidy : ∀ p : Prog DbAct (Except PiLsmError α), Clients db p →
      p.Tidy dbLocks.role none none := by
    rintro p ⟨op, served, rfl⟩
    exact served.tidy
  have held : pool.Held dbLocks := reach.held (fun _ => rfl) tidy keeps
  refine ⟨fun key t owned => ?_, held.progress, ?_⟩
  · obtain ⟨p, there, holds⟩ := held.holder owned
    cases p with
    | done r => cases holds
    | act a next => exact ⟨_, a, next, there⟩
  · rintro run rfl steps fair
    exact Pool.Held.completes (L := dbLocks) keeps run held steps fair

omit [Digests] in
/-- A vacuum waits for a put that holds the lock of its key; the put can go on. -/
theorem clients_end_sample :
    letI := sampleDigests
    ∃ pool : Pool DbAct Db (Except PiLsmError Unit), pool.state.locks [0x6b] = some 0 ∧
      (∃ next, pool.threads[1]? = some (.act (DbAct.lock [0x6b]) next)) ∧
      ∃ pool', Pool.Turns dbMachine pool pool' := by
  let _ := sampleDigests
  let db := sampleDb .default
  let o : Oracle := ⟨stopped, 0, fun _ => 0⟩
  let calls : Prog DbAct (Except PiLsmError Unit) → Prop := Clients db
  let Run := Pool.Reach dbMachine calls (fun s s' => s'.locks = s.locks)
    (fun _ => True) (Db.empty 0)
  have put : Clients db (db.putWithOptions [0x6b] [0x61] ⟨false, false⟩ >>=
      fun _ => (pure () : DbOp Unit)).run :=
    ⟨_, (Served.put _ _ _).andThen (fun _ => Served.pure _), rfl⟩
  have vacuum : Clients db (db.vacuumMeaning [0x6b] (.ofPlanOptions (barePlanner true).options) >>=
      fun _ => (pure () : DbOp Unit)).run :=
    ⟨_, (Served.vacuumMeaning _ _).andThen (fun _ => Served.pure _), rfl⟩
  have both : Run _ := ((Pool.Reach.start trivial).step (Pool.Step.spawn put) trivial).step
    (Pool.Step.spawn vacuum) trivial
  have locked : Run _ := both.step (Pool.Step.act (t := 0) (o := o) rfl rfl) trivial
  have counted : Run _ := locked.step (Pool.Step.act (t := 1) (o := o) rfl rfl) trivial
  obtain ⟨_, progress, _⟩ := clients_end db 0 (fun _ _ same => same) counted
  exact ⟨_, rfl, ⟨_, rfl⟩, progress ⟨1, _, _, _, rfl⟩⟩

end PiLSMer
