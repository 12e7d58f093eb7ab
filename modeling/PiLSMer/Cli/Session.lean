import PiLSMer.Cli.Passes
import PiLSMer.Cli.Shell
import PiLSMer.Slate.Snapshots

/-! A shell session, line by line, while the engine compacts. It means what it would mean over a
plain map: what a GET prints is what the last PUT before it stored, however often the session
compacted into nonexistence or vacuumed meaning in between. -/
namespace PiLSMer
open Interleave

inductive Printed where
  | ok
  | value (value : Bytes)
  | explain (explain : ExplainValue)
  | report (report : VacuumAllReport)
  deriving DecidableEq

inductive ShellError where
  | parse (line : Nat) (message : Text)
  | keyNotFound (key : Text)
  | db (error : PiLsmError)
  deriving DecidableEq

variable [Digests]

/-- PutOptions::default. -/
def PiLsmDb.put (db : PiLsmDb) (key value : Bytes) : DbOp WriteHandle :=
  db.putWithOptions key value ⟨false, false⟩

/-- The options of COMPACT INTO NONEXISTENCE. -/
def PlanOptions.compactOptions (planOptions : PlanOptions) : PlanOptions :=
  { planOptions with maxK := 1, planCodec := .ceremonialCbor }

/-- The body of the loop of run_shell, given the entries that a scan would yield. A command that
bails returns its error; exit never gets here. -/
def ShellCommand.op (db : PiLsmDb) (planOptions : PlanOptions) (entries : List (Bytes × Bytes)) :
    ShellCommand → DbOp (Except ShellError Printed)
  | .put key value => do
    let _handle ← db.put (asBytes key) value
    issue .flush
    pure (.ok .ok)
  | .get key => do
    match ← db.get (asBytes key) with
    | none => pure (.error (.keyNotFound key))
    | some value => pure (.ok (.value value))
  | .explainGet key => do
    match ← db.explain (asBytes key) with
    | none => pure (.error (.keyNotFound key))
    | some explain => pure (.ok (.explain explain))
  | .compactIntoNonexistence => do
    let pass ← db.planAll entries planOptions.compactOptions
    issue .flush
    pure (.ok (.report pass.1))
  | .vacuumMeaning => do
    let pass ← db.vacuumAll entries planOptions none
    issue .flush
    pure (.ok (.report pass.1))
  | .exit => pure (.ok .ok)

def ShellCommand.Taken : ShellCommand → Prop
  | .put key _ => EngineKey (asBytes key)
  | _ => True

/-- run_shell from the line of this number on: what it prints, the error it ends with if any, and
the state it leaves. The environment moves between the actions and between the lines. The calls
of the engine succeed, but a put under a key that it does not take is a panic. -/
inductive ShellRun (db : PiLsmDb) (planOptions : PlanOptions) (env : Db → Db → Prop) (t : Nat) :
    Nat → List Text → Db → List Printed → Option ShellError → Db → Prop where
  | done (line : Nat) (s : Db) : ShellRun db planOptions env t line [] s [] none s
  | env {line : Nat} {lines : List Text} {s s₁ s' : Db} {printed : List Printed}
      {ending : Option ShellError} (move : env s s₁)
      (rest : ShellRun db planOptions env t line lines s₁ printed ending s') :
      ShellRun db planOptions env t line lines s printed ending s'
  | unparsed {line : Nat} {text message : Text} {lines : List Text} {s : Db}
      (parsed : parseShellCommand text = .error message) :
      ShellRun db planOptions env t line (text :: lines) s [] (some (.parse line message)) s
  | skip {line : Nat} {text : Text} {lines : List Text} {s s' : Db} {printed : List Printed}
      {ending : Option ShellError} (parsed : parseShellCommand text = .ok none)
      (rest : ShellRun db planOptions env t (line + 1) lines s printed ending s') :
      ShellRun db planOptions env t line (text :: lines) s printed ending s'
  | exit {line : Nat} {text : Text} {lines : List Text} {s : Db}
      (parsed : parseShellCommand text = .ok (some .exit)) :
      ShellRun db planOptions env t line (text :: lines) s [] none s
  | panicked {line : Nat} {text : Text} {lines : List Text} {s : Db} {command : ShellCommand}
      (parsed : parseShellCommand text = .ok (some command)) (unfit : ¬ command.Taken) :
      ShellRun db planOptions env t line (text :: lines) s [] (some (.db .panicked)) s
  | failed {line : Nat} {text : Text} {lines : List Text} {s s' : Db} {command : ShellCommand}
      {entries : List (Bytes × Bytes)} {e : PiLsmError}
      (parsed : parseShellCommand text = .ok (some command)) (runs : command ≠ .exit)
      (fit : command.Taken)
      (scan : EngineRows s.store (fun _ => True) entries)
      (run : Runs dbMachine env t (command.op db planOptions entries).run s (.error e) s') :
      ShellRun db planOptions env t line (text :: lines) s [] (some (.db e)) s'
  | bailed {line : Nat} {text : Text} {lines : List Text} {s s' : Db} {command : ShellCommand}
      {entries : List (Bytes × Bytes)} {e : ShellError}
      (parsed : parseShellCommand text = .ok (some command)) (runs : command ≠ .exit)
      (fit : command.Taken) (scan : EngineRows s.store (fun _ => True) entries)
      (run : Runs dbMachine env t (command.op db planOptions entries).run s (.ok (.error e)) s') :
      ShellRun db planOptions env t line (text :: lines) s [] (some e) s'
  | next {line : Nat} {text : Text} {lines : List Text} {s s₁ s' : Db} {command : ShellCommand}
      {entries : List (Bytes × Bytes)} {one : Printed} {printed : List Printed}
      {ending : Option ShellError}
      (parsed : parseShellCommand text = .ok (some command)) (runs : command ≠ .exit)
      (fit : command.Taken) (scan : EngineRows s.store (fun _ => True) entries)
      (run : Runs dbMachine env t (command.op db planOptions entries).run s (.ok (.ok one)) s₁)
      (rest : ShellRun db planOptions env t (line + 1) lines s₁ printed ending s') :
      ShellRun db planOptions env t line (text :: lines) s (one :: printed) ending s'

inductive Shown where
  | ok
  | value (value : Bytes)
  | length (length : Nat)
  | report (contents : Bytes → Option Bytes)

omit [Digests] in
def ShellCommand.meaning (m : Bytes → Option Bytes) :
    ShellCommand → Except ShellError (Shown × (Bytes → Option Bytes))
  | .put key value => .ok (.ok, Function.update m (asBytes key) (some value))
  | .get key =>
    match m (asBytes key) with
    | none => .error (.keyNotFound key)
    | some value => .ok (.value value, m)
  | .explainGet key =>
    match m (asBytes key) with
    | none => .error (.keyNotFound key)
    | some value => .ok (.length value.length, m)
  | .compactIntoNonexistence => .ok (.report m, m)
  | .vacuumMeaning => .ok (.report m, m)
  | .exit => .ok (.ok, m)

omit [Digests] in
/-- A session over a map: what it shows, how it ends and the map it leaves. -/
def session (line : Nat) (m : Bytes → Option Bytes) :
    List Text → List Shown × Option ShellError × (Bytes → Option Bytes)
  | [] => ([], none, m)
  | text :: lines =>
    match parseShellCommand text with
    | .error message => ([], some (.parse line message), m)
    | .ok none => session (line + 1) m lines
    | .ok (some .exit) => ([], none, m)
    | .ok (some command) =>
      match command.meaning m with
      | .error e => ([], some e, m)
      | .ok (shown, m') =>
        let rest := session (line + 1) m' lines
        (shown :: rest.1, rest.2)

/-- Every key of the map was visited once, and each visit is in one of the counts. -/
structure VacuumAllReport.Accounts (report : VacuumAllReport) (m : Bytes → Option Bytes) :
    Prop where
  keys : ∃ keys : List Bytes, keys.Nodup ∧ (∀ key, key ∈ keys ↔ m key ≠ none) ∧
    report.visited = lenU64 keys.length
  split : report.visited = report.rewritten + report.kept + report.staleOrMissing
  finished : report.timedOut = false

def Printed.For : Printed → Shown → Prop
  | .ok, .ok => True
  | .value v, .value w => v = w
  | .explain e, .length n => e.logicalUserBytes = lenU64 n
  | .report r, .report m => r.Accounts m
  | _, _ => False

namespace Session

variable {registry : StreamRegistry} {values : Set Bytes} {t : Nat} {key : Bytes}

/-- One client: the others write nothing that users see and leave its locks alone. -/
def protocol (registry : StreamRegistry) (values : Set Bytes) (t : Nat) : Protocol Db where
  good _ := True
  inv := Durable.Inv registry values
  rely u s s' := u = t → s'.log = s.log ∧ ∀ k, s.locks k = some t → s'.locks k = some t
  refl _ _ _ := ⟨rfl, fun _ h => h⟩
  trans u s s' s'' first second same := by
    obtain ⟨log, locks⟩ := first same
    obtain ⟨log', locks'⟩ := second same
    exact ⟨log'.trans log, fun k h => locks' k (locks k h)⟩

theorem others {s s' : Db} : ∀ u, u ≠ t → (protocol registry values t).rely u s s' :=
  fun _ other same => absurd same other

theorem orderly : Orderly (protocol registry values t) t key where
  quiet s s' step inv := by
    have locks : Orderly (Durable.protocol registry ∅ values) t key := Durable.orderly
    exact ⟨(locks.quiet s s' step inv).1, others⟩
  locks _ _ moved held := (moved rfl).2 key held

theorem compaction {s s' : Db} (move : Compacts registry s s')
    (inv : Durable.Inv registry values s) :
    Durable.Inv registry values s' ∧ (protocol registry values t).rely t s s' := by
  obtain ⟨inv', _⟩ := Durable.compaction_step move inv
  obtain ⟨_, _, _, _, _, rfl⟩ := move
  exact ⟨inv', fun _ => ⟨rfl, fun _ h => h⟩⟩

variable (registry values t) in
theorem contents_steady (m : Bytes → Option Bytes) :
    Steady (protocol registry values t) t (fun s => s.contents = m) := by
  constructor
  · intro s s' h moved _ _
    funext k
    rw [← h, Db.contents, Db.contents, (moved rfl).1]
  · intro s s' step h
    funext k
    rw [← h, Db.contents, Db.contents, step.log]

/-- What one client knows of the frames it reads: they hold what the map says. -/
def discipline {db : PiLsmDb} (below : db.reconstructor.Below registry) (values : Set Bytes)
    (t : Nat) (m : Bytes → Option Bytes) (key : Bytes) (limit : UInt64) :
    Discipline (protocol registry values t) t db key limit where
  before s := s.contents = m
  after s := s.contents = m
  seen f := ∃ v ∈ values, m key = some v ∧ FrameOf registry f v
  hit := Trusted values
  miss _ := True
  guarded c _ := ∃ v, m key = some v ∧ FrameOf registry c v
  orderly := orderly
  steady := contents_steady _ _ _ m
  steady' := contents_steady _ _ _ m
  guarded_stable c s s' hs moved inv good :=
    ⟨(moved rfl).2 key hs.1, (contents_steady _ _ _ m).stable s s' hs.2.1 moved inv good, hs.2.2⟩
  sees s f before inv _ there := by
    obtain ⟨v, valued, last, holds⟩ := inv.stored there
    exact ⟨v, valued, (congrFun before key).symm.trans last, holds⟩
  hits _ k w _ inv := inv.cached k w
  misses _ _ _ _ _ := trivial
  caches s pick f p w before inv seen decoded _ rebuilt := by
    obtain ⟨v, valued, _, holds⟩ := seen
    have rebuilt := below.reconstruct (reconstructWithLimit_iff.mp rebuilt).2
    have same : w = v := Except.ok.inj (rebuilt.symm.trans (holds.decoded decoded))
    exact ⟨⟨inv.keeps, inv.valued, Trusted.insert pick inv.cached rebuilt (same ▸ valued)⟩, others,
      before⟩
  guards s c _ before inv _ there := by
    obtain ⟨v, _, last, holds⟩ := inv.stored there
    exact ⟨v, (congrFun before key).symm.trans last, holds⟩

variable {db : PiLsmDb} (below : db.reconstructor.Below registry) {m : Bytes → Option Bytes}
  {limit : UInt64}

include below in
theorem obtained_value (injective : ∀ kind, values.InjOn (computeLogicalHash kind)) {f v w : Bytes}
    {e : ValueEnvelope} (holds : FrameOf registry f v) (valued : v ∈ values)
    (decoded : ValueEnvelope.decode f db.decodeLimits = .ok e)
    (obtained : (discipline below values t m key limit).Obtained w e) : w = v := by
  have content := holds.decoded decoded
  cases e with
  | raw bytes => exact Eq.trans obtained content.symm
  | plan p =>
    obtain ⟨_, hit | ⟨_, rebuilt⟩⟩ := obtained
    · exact Trusted.same injective hit content valued
    · exact Except.ok.inj ((below.reconstruct rebuilt).symm.trans content)

include below in
theorem allows (shared : db.planner.registry = db.reconstructor)
    (injective : ∀ kind, values.InjOn (computeLogicalHash kind)) {options : PlanOptions}
    {due : Source → ReconstructionPlan → Prop} :
    (discipline below values t m key limit).Allows options due := by
  rintro s source w clock plan c ⟨f, ⟨v, valued, present, holds⟩, decoded, _, _⟩ obtained planned
    _ _
    held before _ inv _ s' _
  have same : w = v := obtained_value below injective holds valued decoded obtained
  subst same
  have rebuilt := (Planner.planWithOptions_made planned).rebuilds
  rw [shared] at rebuilt
  have rebuilt := below.reconstruct rebuilt
  have still : s'.contents = m :=
    (tame_exec (a := .put key (ValueEnvelope.plan plan).encode .rewrite)
      (o := ⟨clock, 0, fun _ => 0⟩) (t := t) rfl rfl).trans before
  have last : written key s'.log = some w := (congrFun still key).trans present
  obtain ⟨inv', _⟩ := Durable.write_step (some (ValueEnvelope.plan plan).encode) .rewrite inv held
    (by
      rw [Db.Keeps, last]
      exact ⟨_, Function.update_self .., .plan plan, rfl, rebuilt⟩)
    (fun v' h => by
      cases last.symm.trans h
      exact valued)
  exact ⟨inv', others, still⟩

theorem rewrite_still {below : db.reconstructor.Below registry} {x : DbOp PlanReport}
    (h : Triple dbMachine (protocol registry values t) t
      (discipline below values t m key limit).before x.run
      (onResult (discipline below values t m key limit).Ends
        (discipline below values t m key limit).before)) :
    Triple dbMachine (protocol registry values t) t (fun s => s.contents = m) x.run
      (onResult (fun _ s => s.contents = m) (fun s => s.contents = m)) := by
  refine h.consequence (fun _ hs => hs) (fun r s _ _ hs => ?_)
  cases r with
  | error e => exact hs
  | ok report =>
    change Discipline.Ends _ report s at hs
    unfold Discipline.Ends at hs
    split at hs
    · exact hs
    · exact hs

include below in
theorem planKey_still (shared : db.planner.registry = db.reconstructor)
    (injective : ∀ kind, values.InjOn (computeLogicalHash kind)) (options : PlanOptions)
    (key : Bytes) :
    Triple dbMachine (protocol registry values t) t (fun s => s.contents = m)
      (db.planKey key options).run
      (onResult (fun _ s => s.contents = m) (fun s => s.contents = m)) := by
  let R := discipline below values t m key 0
  exact rewrite_still (R.planKey (allows below shared injective))

include below in
theorem vacuumMeaning_still (shared : db.planner.registry = db.reconstructor)
    (injective : ∀ kind, values.InjOn (computeLogicalHash kind)) (options : VacuumOptions)
    (key : Bytes) :
    Triple dbMachine (protocol registry values t) t (fun s => s.contents = m)
      (db.vacuumMeaning key options).run
      (onResult (fun _ s => s.contents = m) (fun s => s.contents = m)) := by
  let R := discipline below values t m key (db.callLimit options)
  exact rewrite_still (R.vacuumMeaning rfl (allows below shared injective))

def Stored (registry : StreamRegistry) (values : Set Bytes) (m : Bytes → Option Bytes)
    (key : Bytes) : Option Bytes → Prop
  | none => m key = none
  | some f => ∃ v ∈ values, m key = some v ∧ FrameOf registry f v

theorem look (m : Bytes → Option Bytes) (key : Bytes) :
    Triple dbMachine (protocol registry values t) t (fun s => s.contents = m)
      (issue (.get key) : DbOp (Option Bytes)).run
      (onResult (fun found s => Stored registry values m key found ∧ s.contents = m)
        (fun s => s.contents = m)) := by
  have steady := contents_steady registry values t m
  refine Triple.issued steady.stable (fun _ => ((Steady.pure _).and steady).stable) ?_
  intro s o b s' before inv _ run _
  cases run
  refine ⟨inv, others, ?_, before⟩
  have same : written key s.log = m key := congrFun before key
  cases there : s.store key with
  | some f =>
    obtain ⟨v, valued, last, holds⟩ := inv.stored there
    exact ⟨v, valued, same.symm.trans last, holds⟩
  | none =>
    have kept := inv.keeps key
    cases last : written key s.log with
    | none => exact same.symm.trans last
    | some v =>
      rw [Db.Keeps, last] at kept
      obtain ⟨_, there', _⟩ := kept
      cases there.symm.trans there'

def Decoded (db : PiLsmDb) (registry : StreamRegistry) (values : Set Bytes)
    (m : Bytes → Option Bytes) (key : Bytes) :
    Option ValueEnvelope → Prop
  | none => m key = none
  | some e => ∃ f, Stored registry values m key (some f) ∧
      ValueEnvelope.decode f db.decodeLimits = .ok e

include below in
theorem get_reads (injective : ∀ kind, values.InjOn (computeLogicalHash kind)) (key : Bytes) :
    Triple dbMachine (protocol registry values t) t (fun s => s.contents = m)
      (db.get key).run
      (onResult (fun x s => x = m key ∧ s.contents = m) (fun s => s.contents = m)) := by
  have steady := contents_steady registry values t m
  have envelope : Triple dbMachine (protocol registry values t) t
      (fun s => s.contents = m) (db.getEnvelope key).run
      (onResult (fun found s => Decoded db registry values m key found ∧ s.contents = m)
        (fun s => s.contents = m)) := by
    refine Triple.andThen (look m key) steady.stable
      (fun found => Triple.of_pure (fun stored => ?_))
    cases found with
    | none => exact Triple.pure steady.stable (fun _ hs _ _ => ⟨stored, hs⟩)
    | some f =>
      dsimp only
      cases decoded : ValueEnvelope.decode f db.decodeLimits with
      | ok e => exact Triple.pure steady.stable (fun _ hs _ _ => ⟨⟨f, stored, decoded⟩, hs⟩)
      | error e => exact Triple.throw steady.stable (fun _ hs _ _ => hs)
  refine Triple.andThen envelope steady.stable (fun found => Triple.of_pure (fun known => ?_))
  cases found with
  | none => exact Triple.pure steady.stable (fun _ hs _ _ => ⟨Eq.symm known, hs⟩)
  | some e =>
    obtain ⟨f, ⟨v, valued, present, holds⟩, decoded⟩ := known
    have read : (discipline below values t m key db.maxReconstructBytes).Read
        ⟨envelopeHash f, e, f.length⟩ := ⟨f, ⟨v, valued, present, holds⟩, decoded, rfl, rfl⟩
    refine Triple.andThen (Discipline.logicalBytes read) steady.stable
      (fun w => Triple.of_pure (fun obtained => ?_))
    have same : w = v := obtained_value below injective holds valued decoded obtained
    subst same
    exact Triple.pure steady.stable (fun _ hs _ _ => ⟨present.symm, hs⟩)

theorem explained_length {registry : StreamRegistry} {f v : Bytes} {limits : DecodeLimits}
    {e : ValueEnvelope} (holds : FrameOf registry f v)
    (decoded : ValueEnvelope.decode f limits = .ok e) (length : Nat) :
    (explainEnvelope e length).logicalUserBytes = lenU64 v.length := by
  have content := holds.decoded decoded
  cases e with
  | raw bytes =>
    have same : v = bytes := content
    rw [same]
    rfl
  | plan p =>
    exact (reconstruct_ok_iff.mp content).2.2.1.symm

def Explained (m : Bytes → Option Bytes) (key : Bytes) : Option ExplainValue → Prop
  | none => m key = none
  | some e => ∃ v, m key = some v ∧ e.logicalUserBytes = lenU64 v.length

theorem explain_reads (key : Bytes) :
    Triple dbMachine (protocol registry values t) t (fun s => s.contents = m)
      (db.explain key).run
      (onResult (fun found s => Explained m key found ∧ s.contents = m)
        (fun s => s.contents = m)) := by
  have steady := contents_steady registry values t m
  refine Triple.andThen (look m key) steady.stable (fun found => Triple.of_pure (fun stored => ?_))
  cases found with
  | none => exact Triple.pure steady.stable (fun _ hs _ _ => ⟨stored, hs⟩)
  | some f =>
    obtain ⟨v, _, present, holds⟩ := stored
    dsimp only
    cases decoded : ValueEnvelope.decode f db.decodeLimits with
    | ok e =>
      exact Triple.pure steady.stable
        (fun _ hs _ _ => ⟨⟨v, present, explained_length holds decoded _⟩, hs⟩)
    | error e => exact Triple.throw steady.stable (fun _ hs _ _ => hs)

include below in
theorem put_updates (shared : db.planner.registry = db.reconstructor) {key value : Bytes}
    (valued : value ∈ values) :
    Triple dbMachine (protocol registry values t) t (fun s => s.contents = m)
      (db.put key value).run
      (onResult (fun _ s => s.contents = Function.update m key (some value))
        (fun s => s.contents = m)) := by
  refine orderly.put (contents_steady _ _ _ m) (contents_steady _ _ _ _)
    (fun s e stores held before inv _ _ => ?_)
  refine ⟨(Linear.put_step valued
    (below.holds (Linear.stores_holds shared stores)) held inv).1, others, ?_⟩
  rw [← before]
  exact contents_write s t key (some e.encode) value

theorem flush_still {err : Db → Prop} : Triple dbMachine (protocol registry values t) t
    (fun s => s.contents = m) (issue .flush : DbOp Unit).run
    (onResult (fun _ s => s.contents = m) err) :=
  (orderly : Orderly (protocol registry values t) t []).issued
    (contents_steady _ _ _ m).calm DbAct.Counts.flush

def Passed (m : Bytes → Option Bytes) (n : Nat) (pass : VacuumAllReport × List RewriteStatus)
    (s : Db) : Prop :=
  (VacuumAllReport.default.Tallies pass.1 pass.2 ∧ pass.2.length = n) ∧ s.contents = m

include below in
theorem planAll_passes (shared : db.planner.registry = db.reconstructor)
    (injective : ∀ kind, values.InjOn (computeLogicalHash kind))
    (entries : List (Bytes × Bytes)) (options : PlanOptions) :
    Triple dbMachine (protocol registry values t) t (fun s => s.contents = m)
      (db.planAll entries options).run
      (onResult (Passed m entries.length) (fun s => s.contents = m)) := by
  have stable := (contents_steady registry values t m).stable
  unfold PiLsmDb.planAll
  cases scanned : db.scanKeys entries with
  | error e => exact Triple.throw stable (fun _ hs _ _ => hs)
  | ok keys =>
    cases Migrate.scanKeys_ok scanned
    have pass := rewriteAll_tallies stable stable
      (fun key => planKey_still below shared injective options key) (entries.map Prod.fst) .default
    rw [List.length_map] at pass
    exact pass

include below in
theorem vacuumAll_passes (shared : db.planner.registry = db.reconstructor)
    (injective : ∀ kind, values.InjOn (computeLogicalHash kind))
    (entries : List (Bytes × Bytes)) (options : PlanOptions) :
    Triple dbMachine (protocol registry values t) t (fun s => s.contents = m)
      (db.vacuumAll entries options none).run
      (onResult (Passed m entries.length) (fun s => s.contents = m)) := by
  have stable := (contents_steady registry values t m).stable
  refine Triple.andThen (Q := fun _ s => s.contents = m)
    (Triple.issued stable (fun _ => stable) ?_) stable (fun elapsed => ?_)
  · intro s o b s' before inv _ run _
    cases run
    exact ⟨inv, others, before⟩
  · cases scanned : db.scanKeys entries with
    | error e => exact Triple.throw stable (fun _ hs _ _ => hs)
    | ok keys =>
      cases Migrate.scanKeys_ok scanned
      dsimp only
      rw [PiLsmDb.vacuumWithin_eq, within_none, List.take_length]
      refine Triple.andThen (rewriteAll_tallies stable stable
        (fun key => vacuumMeaning_still below shared injective _ key) (entries.map Prod.fst)
          .default)
        stable (fun pass => Triple.of_pure (fun tallied => ?_))
      rw [List.length_map] at tallied
      refine Triple.pure stable (fun _ hs _ _ => ⟨?_, hs⟩)
      simpa [VacuumAllReport.stopped] using tallied

theorem Passed.accounts {n : Nat} {pass : VacuumAllReport × List RewriteStatus} {s s' : Db}
    (passed : Passed m n pass s') {entries : List (Bytes × Bytes)} (here : s.contents = m)
    (inv : Durable.Inv registry values s) (size : entries.length = n)
    (scan : EngineRows s.store (fun _ => True) entries) : pass.1.Accounts m := by
  obtain ⟨⟨tallies, visits⟩, _⟩ := passed
  obtain ⟨distinct, same⟩ := Snapshots.scanned_keys inv scan
  rw [here] at same
  refine ⟨⟨_, distinct, fun key => (same key).trans (and_iff_right trivial), ?_⟩, tallies.split,
    tallies.timedOut⟩
  have visited := tallies.visited
  rw [visits, ← size] at visited
  rw [visited, List.length_map]
  exact UInt64.zero_add _

variable (m) in
def Did (command : ShellCommand) : Except ShellError Printed → Db → Prop
  | .error e, s => command.meaning m = .error e ∧ s.contents = m
  | .ok one, s => ∃ shown m', command.meaning m = .ok (shown, m') ∧ one.For shown ∧ s.contents = m'

include below in
theorem command_means (shared : db.planner.registry = db.reconstructor)
    (injective : ∀ kind, values.InjOn (computeLogicalHash kind)) {command : ShellCommand}
    (runs : command ≠ .exit) (valued : ∀ key value, command = .put key value → value ∈ values)
    (planOptions : PlanOptions) {s₀ : Db} (here : s₀.contents = m)
    (inv : Durable.Inv registry values s₀) {entries : List (Bytes × Bytes)}
    (scan : EngineRows s₀.store (fun _ => True) entries) :
    Triple dbMachine (protocol registry values t) t (fun s => s.contents = m)
      (command.op db planOptions entries).run
      (onResult (Did m command) (fun s => s.contents = m)) := by
  have stable := (contents_steady registry values t m).stable
  have passed (command : ShellCommand) (meaning : command.meaning m = .ok (.report m, m))
      (pass : VacuumAllReport × List RewriteStatus) :
      Triple dbMachine (protocol registry values t) t (Passed m entries.length pass)
        (issue .flush >>= fun _ => pure (.ok (.report pass.1)) :
          DbOp (Except ShellError Printed)).run
        (onResult (Did m command) (fun s => s.contents = m)) := by
    refine Triple.of_pure (fun tallied => Triple.andThen flush_still stable (fun _ =>
      Triple.pure stable (fun s hs _ _ => ?_)))
    have passed : Passed m entries.length pass s := ⟨tallied, hs⟩
    exact ⟨_, _, meaning, passed.accounts here inv rfl scan, hs⟩
  cases command with
  | put key value =>
    refine Triple.andThen (put_updates below shared (valued key value rfl)) stable (fun _ => ?_)
    exact Triple.andThen flush_still stable (fun _ =>
      Triple.pure (contents_steady _ _ _ _).stable (fun _ hs _ _ => ⟨.ok, _, rfl, trivial, hs⟩))
  | get key =>
    refine Triple.andThen (get_reads below injective (asBytes key)) stable
      (fun found => Triple.of_pure (fun same => ?_))
    cases found with
    | none =>
      exact Triple.pure stable (fun _ hs _ _ => ⟨by simp [ShellCommand.meaning, ← same], hs⟩)
    | some value =>
      exact Triple.pure stable (fun _ hs _ _ =>
        ⟨.value value, m, by simp [ShellCommand.meaning, ← same], rfl, hs⟩)
  | explainGet key =>
    refine Triple.andThen (explain_reads (asBytes key)) stable
      (fun found => Triple.of_pure (fun told => ?_))
    cases found with
    | none =>
      have absent : m (asBytes key) = none := told
      exact Triple.pure stable (fun _ hs _ _ => ⟨by simp [ShellCommand.meaning, absent], hs⟩)
    | some e =>
      obtain ⟨v, present, length⟩ := told
      exact Triple.pure stable (fun _ hs _ _ =>
        ⟨.length v.length, m, by simp [ShellCommand.meaning, present], length, hs⟩)
  | compactIntoNonexistence =>
    exact Triple.andThen (planAll_passes below shared injective entries _) stable
      (passed .compactIntoNonexistence rfl)
  | vacuumMeaning =>
    exact Triple.andThen (vacuumAll_passes below shared injective entries _) stable
      (passed .vacuumMeaning rfl)
  | exit => exact absurd rfl runs

omit [Digests] in
theorem session_next {line : Nat} {text : Text} {lines : List Text} {command : ShellCommand}
    {shown : Shown} {m' : Bytes → Option Bytes}
    (parsed : parseShellCommand text = .ok (some command)) (runs : command ≠ .exit)
    (meaning : command.meaning m = .ok (shown, m')) :
    session line m (text :: lines) = (shown :: (session (line + 1) m' lines).1,
      (session (line + 1) m' lines).2) := by
  cases command <;> first | exact absurd rfl runs | simp [session, parsed, meaning]

omit [Digests] in
theorem session_bailed {line : Nat} {text : Text} {lines : List Text} {command : ShellCommand}
    {e : ShellError} (parsed : parseShellCommand text = .ok (some command))
    (runs : command ≠ .exit) (meaning : command.meaning m = .error e) :
    session line m (text :: lines) = ([], some e, m) := by
  cases command <;> first | exact absurd rfl runs | simp [session, parsed, meaning]

omit [Digests] in
theorem meaning_error {command : ShellCommand} {e : ShellError}
    (meaning : command.meaning m = .error e) : ∃ key, e = .keyNotFound key := by
  cases command with
  | get key | explainGet key =>
    cases there : m (asBytes key) with
    | none =>
      simp only [ShellCommand.meaning, there, Except.error.injEq] at meaning
      exact ⟨key, meaning.symm⟩
    | some value => simp [ShellCommand.meaning, there] at meaning
  | _ => cases meaning

/-- A run of the shell against the session over the map it starts from. If the engine or a frame
failed a command, the lines before it were served. -/
structure Agrees (line : Nat) (m : Bytes → Option Bytes) (lines : List Text)
    (printed : List Printed) (ending : Option ShellError) (m' : Bytes → Option Bytes)
    (shown : List Shown) : Prop where
  prints : List.Forall₂ Printed.For printed shown
  whole : (∀ e, ending ≠ some (.db e)) → session line m lines = (shown, ending, m')
  part : ∀ e, ending = some (.db e) →
    ∃ n < lines.length, session line m (lines.take n) = (shown, none, m')

omit [Digests] in
theorem Agrees.skip {line : Nat} {text : Text} {lines : List Text} {printed : List Printed}
    {ending : Option ShellError} {m' : Bytes → Option Bytes} {shown : List Shown}
    (parsed : parseShellCommand text = .ok none)
    (rest : Agrees (line + 1) m lines printed ending m' shown) :
    Agrees line m (text :: lines) printed ending m' shown where
  prints := rest.prints
  whole fine := by simpa [session, parsed] using rest.whole fine
  part e failed := by
    obtain ⟨n, before, served⟩ := rest.part e failed
    exact ⟨n + 1, Nat.succ_lt_succ before, by simpa [session, parsed] using served⟩

omit [Digests] in
theorem Agrees.next {line : Nat} {text : Text} {lines : List Text} {command : ShellCommand}
    {one : Printed} {printed : List Printed} {ending : Option ShellError} {first : Shown}
    {m' m'' : Bytes → Option Bytes} {shown : List Shown}
    (parsed : parseShellCommand text = .ok (some command)) (runs : command ≠ .exit)
    (meaning : command.meaning m = .ok (first, m')) (prints : one.For first)
    (rest : Agrees (line + 1) m' lines printed ending m'' shown) :
    Agrees line m (text :: lines) (one :: printed) ending m'' (first :: shown) where
  prints := .cons prints rest.prints
  whole fine := by rw [session_next parsed runs meaning, rest.whole fine]
  part e failed := by
    obtain ⟨n, before, served⟩ := rest.part e failed
    refine ⟨n + 1, Nat.succ_lt_succ before, ?_⟩
    rw [List.take_succ_cons, session_next parsed runs meaning, served]

include below in
theorem ran (shared : db.planner.registry = db.reconstructor)
    (injective : ∀ kind, values.InjOn (computeLogicalHash kind)) {command : ShellCommand}
    (runs : command ≠ .exit) (valued : ∀ key value, command = .put key value → value ∈ values)
    {planOptions : PlanOptions} {s s' : Db} (inv : Durable.Inv registry values s)
    {entries : List (Bytes × Bytes)} (scan : EngineRows s.store (fun _ => True) entries)
    {r : Except PiLsmError (Except ShellError Printed)}
    (run : Runs dbMachine (Compacts registry) t (command.op db planOptions entries).run s r s') :
    Durable.Inv registry values s' ∧
      onResult (Did s.contents command) (fun s' => s'.contents = s.contents) r s' :=
  Runs.safe (P := protocol registry values t) (fun _ => trivial)
    (fun _ _ move inv => compaction move inv) run
    (command_means below shared injective runs valued planOptions rfl inv scan s rfl) inv

include below in
theorem serves (shared : db.planner.registry = db.reconstructor)
    (injective : ∀ kind, values.InjOn (computeLogicalHash kind)) {planOptions : PlanOptions}
    {line : Nat} {lines : List Text} {s s' : Db} {printed : List Printed}
    {ending : Option ShellError}
    (run : ShellRun db planOptions (Compacts registry) t line lines s printed ending s')
    (puts : ∀ text ∈ lines, ∀ key value,
      parseShellCommand text = .ok (some (.put key value)) → value ∈ values)
    (inv : Durable.Inv registry values s) :
    Durable.Inv registry values s' ∧
      ∃ shown, Agrees line s.contents lines printed ending s'.contents shown := by
  induction run with
  | done line s => exact ⟨inv, [], .nil, fun _ => rfl, fun _ h => (by cases h)⟩
  | env move _ ih =>
    obtain ⟨inv', same⟩ := compaction (t := t) move inv
    have still := (contents_steady registry values t _).stable _ _ rfl same inv' trivial
    rw [← still]
    exact ih puts inv'
  | unparsed parsed =>
    exact ⟨inv, [], .nil, fun _ => by simp [session, parsed], fun _ h => (by cases h)⟩
  | skip parsed _ ih =>
    obtain ⟨inv', shown, agrees⟩ := ih (fun text member => puts text (.tail _ member)) inv
    exact ⟨inv', shown, agrees.skip parsed⟩
  | exit parsed =>
    exact ⟨inv, [], .nil, fun _ => by simp [session, parsed], fun _ h => (by cases h)⟩
  | panicked parsed unfit =>
    exact ⟨inv, [], .nil, fun fine => absurd rfl (fine _), fun _ _ => ⟨0, Nat.succ_pos _, rfl⟩⟩
  | failed parsed runs fit scan run =>
    obtain ⟨inv', still⟩ := ran below shared injective runs
      (fun key value same => puts _ (.head _) key value (same ▸ parsed)) inv scan run
    refine ⟨inv', [], .nil, fun fine => absurd rfl (fine _), fun _ _ => ⟨0, Nat.succ_pos _, ?_⟩⟩
    exact congrArg (fun m => ([], none, m)) (Eq.symm still)
  | bailed parsed runs fit scan run =>
    obtain ⟨inv', meaning, still⟩ := ran below shared injective runs
      (fun key value same => puts _ (.head _) key value (same ▸ parsed)) inv scan run
    obtain ⟨key, rfl⟩ := meaning_error meaning
    rw [still]
    exact ⟨inv', [], .nil, fun _ => session_bailed parsed runs meaning,
      fun _ h => (by cases h)⟩
  | next parsed runs fit scan run _ ih =>
    obtain ⟨inv₁, first, m₁, meaning, prints, here⟩ := ran below shared injective runs
      (fun key value same => puts _ (.head _) key value (same ▸ parsed)) inv scan run
    obtain ⟨inv', shown, agrees⟩ := ih (fun text member => puts text (.tail _ member)) inv₁
    rw [here] at agrees
    exact ⟨inv', first :: shown, agrees.next parsed runs meaning prints⟩

end Session

/-- Whatever lines the shell is given and however the engine compacts meanwhile, the shell prints
what a plain map would, and leaves the store with what that map holds. -/
theorem shell_session {db : PiLsmDb} {values : Set Bytes}
    (shared : db.planner.registry = db.reconstructor)
    (injective : ∀ kind, values.InjOn (computeLogicalHash kind)) {planOptions : PlanOptions}
    {t line : Nat} {lines : List Text} {s s' : Db} {printed : List Printed}
    {ending : Option ShellError}
    (run : ShellRun db planOptions (Compacts db.reconstructor) t line lines s printed ending s')
    (puts : ∀ text ∈ lines, ∀ key value,
      parseShellCommand text = .ok (some (.put key value)) → value ∈ values)
    (inv : Durable.Inv db.reconstructor values s) :
    Durable.Inv db.reconstructor values s' ∧
      ∃ shown, Session.Agrees line s.contents lines printed ending s'.contents shown :=
  Session.serves (StreamRegistry.Below.refl _) shared injective run puts inv

omit [Digests] in
theorem shell_session_sample :
    letI := sampleDigests
    ∃ s' shown, ShellRun (sampleDb .default) .default (Compacts ⟨[]⟩) 0 0
        ["PUT k a".toList, "GET k".toList, "GET x".toList] (Db.empty 0) [.ok, .value [0x61]]
        (some (.keyNotFound "x".toList)) s' ∧
      Session.Agrees 0 (fun _ => none) ["PUT k a".toList, "GET k".toList, "GET x".toList]
        [.ok, .value [0x61]] (some (.keyNotFound "x".toList)) s'.contents shown := by
  let _ := sampleDigests
  let o : Oracle := ⟨stopped, 0, fun _ => 0⟩
  have put : parseShellCommand "PUT k a".toList = .ok (some (.put "k".toList [0x61])) := by decide
  have get : parseShellCommand "GET k".toList = .ok (some (.get "k".toList)) := by decide
  have miss : parseShellCommand "GET x".toList = .ok (some (.get "x".toList)) := by decide
  have there : Function.update (fun _ => none) (asBytes "k".toList)
      (some (ValueEnvelope.raw [0x61]).encode) (asBytes "k".toList) = some sampleRawFrame := by
    decide
  have absent : Function.update (fun _ => none) (asBytes "k".toList)
      (some (ValueEnvelope.raw [0x61]).encode) (asBytes "x".toList) = none := by decide
  have empty : EngineRows (Db.empty 0).store (fun _ => True) [] :=
    ⟨fun key f => ⟨fun h => (by cases h), fun h => (by cases h.2)⟩, .nil⟩
  obtain ⟨s₁, run₁, store₁⟩ : ∃ s₁, Runs dbMachine (Compacts ⟨[]⟩) 0
      ((ShellCommand.put "k".toList [0x61]).op (sampleDb .default) .default []).run (Db.empty 0)
      (.ok (.ok .ok)) s₁ ∧ s₁.store = Function.update (fun _ => none) (asBytes "k".toList)
        (some (ValueEnvelope.raw [0x61]).encode) :=
    ⟨_, alone_runs (o := o) rfl, rfl⟩
  have rows : EngineRows s₁.store (fun _ => True) [(asBytes "k".toList, sampleRawFrame)] := by
    rw [store₁]
    refine ⟨fun key f => ?_, List.pairwise_singleton _ _⟩
    rw [List.mem_singleton, Prod.mk.injEq]
    constructor
    · rintro ⟨rfl, rfl⟩
      exact ⟨trivial, there⟩
    · rintro ⟨_, stored⟩
      obtain ⟨rfl, rfl⟩ := only_stored stored
      exact ⟨rfl, by decide⟩
  have run₂ : Runs dbMachine (Compacts ⟨[]⟩) 0 ((ShellCommand.get "k".toList).op
      (sampleDb .default) .default [(asBytes "k".toList, sampleRawFrame)]).run s₁
      (.ok (.ok (.value [0x61]))) s₁ :=
    .act (o := o) (b := some sampleRawFrame)
      (congrArg (fun found => some (found, s₁)) ((congrFun store₁ _).trans there))
      (alone_runs (o := o) rfl)
  have run₃ : Runs dbMachine (Compacts ⟨[]⟩) 0 ((ShellCommand.get "x".toList).op
      (sampleDb .default) .default [(asBytes "k".toList, sampleRawFrame)]).run s₁
      (.ok (.error (.keyNotFound "x".toList))) s₁ :=
    .act (o := o) (b := none)
      (congrArg (fun found => some (found, s₁)) ((congrFun store₁ _).trans absent))
      (alone_runs (o := o) rfl)
  have fits : EngineKey (asBytes "k".toList) := by decide
  have run : ShellRun (sampleDb .default) .default (Compacts ⟨[]⟩) 0 0
      ["PUT k a".toList, "GET k".toList, "GET x".toList] (Db.empty 0) [.ok, .value [0x61]]
      (some (.keyNotFound "x".toList)) s₁ :=
    .next put (fun h => (by cases h)) fits empty run₁
      (.next get (fun h => (by cases h)) trivial rows run₂
        (.bailed miss (fun h => (by cases h)) trivial rows run₃))
  have start : Durable.Inv (sampleDb .default).reconstructor {[0x61]} (Db.empty 0) :=
    ⟨fun _ => rfl, nofun, nofun⟩
  have puts : ∀ text ∈ ["PUT k a".toList, "GET k".toList, "GET x".toList], ∀ key value,
      parseShellCommand text = .ok (some (.put key value)) → value ∈ ({[0x61]} : Set Bytes) := by
    intro text member key value parsed
    simp only [List.mem_cons, List.not_mem_nil, or_false] at member
    obtain rfl | rfl | rfl := member
    · cases put.symm.trans parsed
      rfl
    · cases get.symm.trans parsed
    · cases miss.symm.trans parsed
  obtain ⟨_, shown, agrees⟩ :=
    @shell_session sampleDigests (sampleDb .default) {[0x61]} rfl (by simp) _ _ _ _ _ _ _ _ run
      puts start
  exact ⟨s₁, shown, run, agrees⟩

end PiLSMer
