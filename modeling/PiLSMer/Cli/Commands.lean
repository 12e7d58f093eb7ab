import PiLSMer.Cli.Runtime
import PiLSMer.Cli.Session
import PiLSMer.Slate.Supplier
import PiLSMer.Slate.Views

/-! main of the command line: one process after another opens the same store, each with a stream
and options of its own. A runtime may not be able to read what an earlier one planned; together
they still are one map, and none of them answers anything but what was last put. -/
namespace PiLSMer
open Interleave

inductive Humiliation where
  | modest
  | maximum
  deriving DecidableEq, Repr

structure CompactOptions where
  runs : Nat
  minCompactionSources : Nat
  mode : Option CompactionMode
  intoNonexistence : Bool
  humiliation : Option Humiliation
  strictEnvelopes : Bool
  ignoreSnapshotRepresentationSafety : Bool

/-- A value stands for the file it is read from, lines for the input of the shell. -/
inductive Command where
  | init
  | put (key : Text) (value : Bytes)
  | get (key : Text)
  | delete (key : Text)
  | explain (key : Text)
  | planKey (key : Text)
  | vacuumMeaning (key : Option Text) (all : Bool) (budget : Option Nat)
  | metrics
  | shell (lines : List Text)
  | migrate (constant target : ConstantKind)
  | compact (options : CompactOptions)

structure Cli where
  stream : StreamKind
  prefixBytes : Option UInt64
  maxK : Nat
  planCodec : PlanCodec
  allowLiterals : Bool
  command : Command

def defaultPrefixBytes : StreamKind → UInt64
  | .sha256Counter => PlanOptions.default.maxPrefixLen
  | .piPrefix => UInt64.ofNat PI_HEX_FRACTION_PREFIX_BYTES
  | .ePrefix => UInt64.ofNat E_HEX_FRACTION_PREFIX_BYTES
  | .sqrt2Prefix => UInt64.ofNat SQRT2_HEX_FRACTION_PREFIX_BYTES

def defaultConstantPrefixBytes : ConstantKind → UInt64
  | .pi => UInt64.ofNat PI_HEX_FRACTION_PREFIX_BYTES
  | .e => UInt64.ofNat E_HEX_FRACTION_PREFIX_BYTES
  | .sqrt2 => UInt64.ofNat SQRT2_HEX_FRACTION_PREFIX_BYTES

def compactMode (mode : Option CompactionMode) (intoNonexistence : Bool)
    (humiliation : Option Humiliation) : Except String CompactionMode :=
  if mode.isSome ∧ intoNonexistence then
    .error "--mode conflicts with --into-nonexistence"
  else if mode.isSome ∧ humiliation = some .maximum then
    .error "--mode conflicts with --humiliation maximum"
  else if intoNonexistence ∨ humiliation = some .maximum then .ok .forceRawToPlan
  else .ok (mode.getD .normal)

def Cli.planOptions (cli : Cli) : PlanOptions :=
  { PlanOptions.default with
    maxPrefixLen := cli.prefixBytes.getD (defaultPrefixBytes cli.stream)
    maxK := cli.maxK
    planCodec := cli.planCodec
    allowLiterals := cli.allowLiterals }

/-- plan_options, or migrate_options, or compact_plan_options. -/
def Cli.options (cli : Cli) : PlanOptions :=
  match cli.command with
  | .migrate _ target =>
    if cli.prefixBytes.isNone then
      { cli.planOptions with maxPrefixLen := defaultConstantPrefixBytes target }
    else cli.planOptions
  | .compact options =>
    if options.humiliation = some .maximum then
      { cli.planOptions with maxK := 1, planCodec := .ceremonialCbor }
    else cli.planOptions
  | _ => cli.planOptions

/-- The arguments that main turns down before it opens anything. -/
def Cli.refusal (cli : Cli) : Option String :=
  match cli.command with
  | .migrate constant target =>
    if constant = target then some "--constant and --to must differ" else none
  | .compact options =>
    if options.minCompactionSources < 2 then some "--min-compaction-sources must be at least 2"
    else if options.runs = 0 then some "--runs must be at least 1"
    else match compactMode options.mode options.intoNonexistence options.humiliation with
      | .error message => some message
      | .ok mode =>
        if mode = .forceRawToPlan ∧ cli.allowLiterals then
          some "--allow-literals conflicts with forced compaction into plans"
        else none
  | _ => none

def Cli.launch (cli : Cli) : Launch :=
  match cli.command with
  | .migrate constant target => .migration constant target
  | _ => .runtime cli.stream

inductive CliOutput where
  | printed (printed : Printed)
  | status (status : RewriteStatus)
  | metrics (metrics : PiLsmMetrics)

/-- Arguments turned down, a command that failed, or a compactor that did. -/
inductive CliError where
  | refused (message : String)
  | failed (error : ShellError)
  | compactor
  deriving DecidableEq

/-- from_db over a store that is there already, with the options of PiLsmOptions::new. -/
def Db.opened (s : Db) : Db :=
  { s with locks := fun _ => none, cache := .new 0, counters := fun _ => 0 }

variable [Digests]

/-- An arm of main once the store is open, given the entries that a scan would yield. The shell
and the compactor have rules of their own. -/
def Command.op (db : PiLsmDb) (options : PlanOptions) (entries : List (Bytes × Bytes)) :
    Command → DbOp (Except CliError (List CliOutput))
  | .put key value => do
    let _handle ← db.put (asBytes key) value
    issue .flush
    pure (.ok [])
  | .get key => do
    match ← db.get (asBytes key) with
    | none => pure (.error (.failed (.keyNotFound key)))
    | some value => pure (.ok [.printed (.value value)])
  | .delete key => do
    let _handle ← db.delete (asBytes key)
    issue .flush
    pure (.ok [])
  | .explain key => do
    match ← db.explain (asBytes key) with
    | none => pure (.error (.failed (.keyNotFound key)))
    | some explained => pure (.ok [.printed (.explain explained)])
  | .planKey key => do
    let report ← db.planKey (asBytes key) options
    issue .flush
    pure (.ok [.status report.status])
  | .vacuumMeaning none true budget => do
    let pass ← db.vacuumAll entries options budget
    issue .flush
    pure (.ok [.printed (.report pass.1)])
  | .vacuumMeaning (some key) false _ => do
    let report ← db.vacuumMeaning (asBytes key) (.ofPlanOptions options)
    issue .flush
    pure (.ok [.status report.status])
  | .vacuumMeaning (some _) true _ =>
    pure (.error (.refused "--all conflicts with a key argument"))
  | .vacuumMeaning none false _ =>
    pure (.error (.refused "vacuum-meaning requires a key or --all"))
  | .metrics => do
    let metrics ← db.metrics entries
    pure (.ok [.metrics metrics])
  | .migrate _ _ => do
    let pass ← db.migrateAll entries options
    issue .flush
    pure (.ok [.printed (.report pass.1)])
  | .init | .shell _ | .compact _ => pure (.ok [])

def Command.Single : Command → Prop
  | .shell _ | .compact _ => False
  | _ => True

def Command.Taken : Command → Prop
  | .put key _ | .delete key => EngineKey (asBytes key)
  | _ => True

def CompactOptions.supplier (options : CompactOptions) (db : PiLsmDb) (mode : CompactionMode) :
    PiLsmCompactionFilterSupplier where
  planner := db.planner
  reconstructor := db.reconstructor
  decodeLimits := .default
  mode := mode
  strictEnvelopes := options.strictEnvelopes
  snapshotSafeFiltering := !options.ignoreSnapshotRepresentationSafety

/-- One job of the engine's compactor, with the filter that the supplier creates for it. -/
def PiLsmCompactionFilterSupplier.Step (supplier : PiLsmCompactionFilterSupplier)
    (rows rows' : List RowEntry) : Prop :=
  ∃ context, Job (supplier.createCompactionFilter context) rows rows'

/-- The runs of the compactor: any number of jobs over the rows of the store. -/
def CompactOptions.Compaction (options : CompactOptions) (db : PiLsmDb) (mode : CompactionMode)
    (store store' : Bytes → Option Bytes) : Prop :=
  ∃ rows rows', Numbered rows ∧ Stores rows store ∧
    Relation.ReflTransGen (options.supplier db mode).Step rows rows' ∧ Stores rows' store'

/-- main on a store: what it prints, how it ends and what it leaves. Other processes may compact
meanwhile, with streams of the registry. Reading the value of a put, opening and closing the
store and the calls of the engine succeed, but a put or delete under a key that the engine does
not take is a panic. -/
inductive Executes (registry : StreamRegistry) (cli : Cli) (s : Db) :
    List CliOutput → Option CliError → Db → Prop where
  | refused {message : String} (refusal : cli.refusal = some message) :
      Executes registry cli s [] (some (.refused message)) s
  | unstarted {e : PiLsmError} (taken : cli.refusal = none)
      (started : cli.launch.start cli.options = .error e) :
      Executes registry cli s [] (some (.failed (.db e))) s
  | panicked {db : PiLsmDb} (taken : cli.refusal = none)
      (started : cli.launch.start cli.options = .ok db) (unfit : ¬ cli.command.Taken) :
      Executes registry cli s [] (some (.failed (.db .panicked))) s
  | failed {db : PiLsmDb} {entries : List (Bytes × Bytes)} {e : PiLsmError} {s' : Db}
      (taken : cli.refusal = none) (started : cli.launch.start cli.options = .ok db)
      (single : cli.command.Single) (fit : cli.command.Taken)
      (scan : EngineRows s.store (fun _ => True) entries)
      (run : Runs dbMachine (Compacts registry) 0 (cli.command.op db cli.options entries).run
        s.opened (.error e) s') : Executes registry cli s [] (some (.failed (.db e))) s'
  | bailed {db : PiLsmDb} {entries : List (Bytes × Bytes)} {e : CliError} {s' : Db}
      (taken : cli.refusal = none) (started : cli.launch.start cli.options = .ok db)
      (single : cli.command.Single) (fit : cli.command.Taken)
      (scan : EngineRows s.store (fun _ => True) entries)
      (run : Runs dbMachine (Compacts registry) 0 (cli.command.op db cli.options entries).run
        s.opened (.ok (.error e)) s') : Executes registry cli s [] (some e) s'
  | done {db : PiLsmDb} {entries : List (Bytes × Bytes)} {printed : List CliOutput} {s' : Db}
      (taken : cli.refusal = none) (started : cli.launch.start cli.options = .ok db)
      (single : cli.command.Single) (fit : cli.command.Taken)
      (scan : EngineRows s.store (fun _ => True) entries)
      (run : Runs dbMachine (Compacts registry) 0 (cli.command.op db cli.options entries).run
        s.opened (.ok (.ok printed)) s') : Executes registry cli s printed none s'
  | shell {db : PiLsmDb} {lines : List Text} {printed : List Printed} {ending : Option ShellError}
      {s' : Db} (taken : cli.refusal = none) (started : cli.launch.start cli.options = .ok db)
      (command : cli.command = .shell lines)
      (run : ShellRun db cli.options (Compacts registry) 0 1 lines s.opened printed ending s') :
      Executes registry cli s (printed.map .printed) (ending.map .failed) s'
  | compacted {db : PiLsmDb} {options : CompactOptions} {mode : CompactionMode}
      {store' : Bytes → Option Bytes} (taken : cli.refusal = none)
      (started : cli.launch.start cli.options = .ok db) (command : cli.command = .compact options)
      (allowed : compactMode options.mode options.intoNonexistence options.humiliation = .ok mode)
      (jobs : options.Compaction db mode s.store store') :
      Executes registry cli s [] none { s.opened with store := store' }
  | stopped {db : PiLsmDb} {options : CompactOptions} {mode : CompactionMode}
      {store' : Bytes → Option Bytes} (taken : cli.refusal = none)
      (started : cli.launch.start cli.options = .ok db) (command : cli.command = .compact options)
      (allowed : compactMode options.mode options.intoNonexistence options.humiliation = .ok mode)
      (jobs : options.Compaction db mode s.store store') :
      Executes registry cli s [] (some .compactor) { s.opened with store := store' }

structure Invocation where
  cli : Cli
  printed : List CliOutput
  ending : Option CliError

/-- The processes that have run on a store so far. Between them others may compact; so may the
engine fall back to a frame that it had before a rewrite was flushed. -/
inductive History (registry : StreamRegistry) : List Invocation → Db → Prop where
  | nil : History registry [] (Db.empty 0)
  | between {events : List Invocation} {s s' : Db} (before : History registry events s)
      (move : Compacts registry s s') : History registry events s'
  | snoc {events : List Invocation} {event : Invocation} {s s' : Db}
      (before : History registry events s)
      (executes : Executes registry event.cli s event.printed event.ending s') :
      History registry (events ++ [event]) s'

inductive CliShown where
  | shown (shown : Shown)
  | tour (budgeted : Bool) (contents : Bytes → Option Bytes)
  | status
  | metrics (contents : Bytes → Option Bytes)

omit [Digests] in
/-- A command over a map: what it shows, how it ends and the map it leaves. -/
def Command.meaning (m : Bytes → Option Bytes) :
    Command → List CliShown × Option CliError × (Bytes → Option Bytes)
  | .put key value => ([], none, Function.update m (asBytes key) (some value))
  | .delete key => ([], none, Function.update m (asBytes key) none)
  | .get key =>
    match m (asBytes key) with
    | none => ([], some (.failed (.keyNotFound key)), m)
    | some value => ([.shown (.value value)], none, m)
  | .explain key =>
    match m (asBytes key) with
    | none => ([], some (.failed (.keyNotFound key)), m)
    | some value => ([.shown (.length value.length)], none, m)
  | .planKey _ => ([.status], none, m)
  | .vacuumMeaning none true budget => ([.tour budget.isSome m], none, m)
  | .vacuumMeaning (some _) false _ => ([.status], none, m)
  | .vacuumMeaning (some _) true _ =>
    ([], some (.refused "--all conflicts with a key argument"), m)
  | .vacuumMeaning none false _ =>
    ([], some (.refused "vacuum-meaning requires a key or --all"), m)
  | .metrics => ([.metrics m], none, m)
  | .migrate _ _ => ([.tour false m], none, m)
  | .shell lines =>
    let r := session 1 m lines
    (r.1.map .shown, r.2.1.map .failed, r.2.2)
  | .init | .compact _ => ([], none, m)

structure VacuumAllReport.Reached (report : VacuumAllReport) (budgeted : Bool) (size : Nat) :
    Prop where
  visits : ∃ n ≤ size, (budgeted = false → n = size) ∧ report.visited = lenU64 n ∧
    report.timedOut = decide (n < size)
  split : report.visited = report.rewritten + report.kept + report.staleOrMissing

def VacuumAllReport.Tours (report : VacuumAllReport) (budgeted : Bool)
    (m : Bytes → Option Bytes) : Prop :=
  ∃ keys : List Bytes, keys.Nodup ∧ (∀ key, key ∈ keys ↔ m key ≠ none) ∧
    report.Reached budgeted keys.length

def PiLsmMetrics.Counts (metrics : PiLsmMetrics) (m : Bytes → Option Bytes) : Prop :=
  ∃ keys : List Bytes, keys.Nodup ∧ (∀ key, key ∈ keys ↔ m key ≠ none) ∧
    (keys.length < 2 ^ 64 →
      metrics.rawValuesTotal.toNat + metrics.plannedValuesTotal.toNat = keys.length) ∧
    ((keys.map (fun key => ((m key).getD []).length)).sum < 2 ^ 64 →
      metrics.logicalBytesTotal.toNat = (keys.map (fun key => ((m key).getD []).length)).sum)

def CliOutput.For : CliOutput → CliShown → Prop
  | .printed (.report report), .tour budgeted m => report.Tours budgeted m
  | .printed one, .shown shown => one.For shown
  | .status _, .status => True
  | .metrics found, .metrics m => found.Counts m
  | _, _ => False

/-- The commands that may have to read what another runtime wrote. -/
def Command.Reads : Command → Prop
  | .init | .put _ _ | .delete _ | .compact _ => False
  | _ => True

/-- An invocation against the map: served, turned down, by the engine too, or failed with the map
as it was. The lines of a shell before the one that failed were served. -/
inductive Serves (m : Bytes → Option Bytes) (event : Invocation) (m' : Bytes → Option Bytes) :
    Prop where
  | served {shown : List CliShown} (prints : List.Forall₂ CliOutput.For event.printed shown)
      (meaning : event.cli.command.meaning m = (shown, event.ending, m'))
  | refused {message : String} (refusal : event.cli.refusal = some message)
      (printed : event.printed = []) (ending : event.ending = some (.refused message))
      (same : m' = m)
  | unstarted {e : PiLsmError} (started : event.cli.launch.start event.cli.options = .error e)
      (printed : event.printed = []) (ending : event.ending = some (.failed (.db e)))
      (same : m' = m)
  | panicked (unfit : ¬ event.cli.command.Taken) (printed : event.printed = [])
      (ending : event.ending = some (.failed (.db .panicked))) (same : m' = m)
  | failed {e : PiLsmError} (reads : event.cli.command.Reads) (printed : event.printed = [])
      (ending : event.ending = some (.failed (.db e))) (same : m' = m)
  | stopped {options : CompactOptions} (command : event.cli.command = .compact options)
      (printed : event.printed = []) (ending : event.ending = some .compactor) (same : m' = m)
  | broken {lines : List Text} {n : Nat} {shown : List CliShown} {e : PiLsmError}
      (command : event.cli.command = .shell lines) (before : n < lines.length)
      (prints : List.Forall₂ CliOutput.For event.printed shown)
      (ending : event.ending = some (.failed (.db e)))
      (meaning : (Command.shell (lines.take n)).meaning m = (shown, none, m'))

def Command.Puts (values : Set Bytes) : Command → Prop
  | .put _ value => value ∈ values
  | .shell lines => ∀ text ∈ lines, ∀ key value,
    parseShellCommand text = .ok (some (.put key value)) → value ∈ values
  | _ => True

/-- The map that a list of invocations leaves, each served in its turn. -/
inductive Chronicle : List Invocation → (Bytes → Option Bytes) → Prop where
  | nil : Chronicle [] (fun _ => none)
  | snoc {events : List Invocation} {event : Invocation} {m m' : Bytes → Option Bytes}
      (before : Chronicle events m) (serves : Serves m event m') :
      Chronicle (events ++ [event]) m'

namespace Commands

variable {registry : StreamRegistry} {values : Set Bytes} {t : Nat} {db : PiLsmDb}
  {m : Bytes → Option Bytes}

theorem delete_updates {key : Bytes} :
    Triple dbMachine (Session.protocol registry values t) t (fun s => s.contents = m)
      (db.delete key).run
      (onResult (fun _ s => s.contents = Function.update m key none)
        (fun s => s.contents = m)) := by
  refine Session.orderly.delete (Session.contents_steady _ _ _ m)
    (Session.contents_steady _ _ _ _) (fun s held before inv _ _ => ?_)
  refine ⟨(Linear.delete_step held inv).1, Session.others, ?_⟩
  rw [← before]
  exact contents_delete s t key

section Passes

variable (below : db.reconstructor.Below registry)
  (shared : db.planner.registry = db.reconstructor)
  (injective : ∀ kind, values.InjOn (computeLogicalHash kind))

include below shared injective in
theorem replanKey_still (options : VacuumOptions) (key : Bytes) :
    Triple dbMachine (Session.protocol registry values t) t (fun s => s.contents = m)
      (db.replanKey key options).run
      (onResult (fun _ s => s.contents = m) (fun s => s.contents = m)) := by
  let R := Session.discipline below values t m key (db.callLimit options)
  exact Session.rewrite_still (R.replanKey rfl (Session.allows below shared injective))

theorem rewriteAll_reaches {rewrite : Bytes → DbOp PlanReport}
    (one : ∀ key, Triple dbMachine (Session.protocol registry values t) t
      (fun s => s.contents = m) (rewrite key).run
      (onResult (fun _ s => s.contents = m) (fun s => s.contents = m)))
    {keys : List Bytes} {n : Nat} (within : n ≤ keys.length) {budgeted : Bool}
    (whole : budgeted = false → n = keys.length) :
    Triple dbMachine (Session.protocol registry values t) t (fun s => s.contents = m)
      (rewriteAll rewrite (keys.take n) .default >>= fun pass =>
        pure (pass.1.stopped (n < keys.length), pass.2) :
          DbOp (VacuumAllReport × List RewriteStatus)).run
      (onResult (fun pass s => pass.1.Reached budgeted keys.length ∧ s.contents = m)
        (fun s => s.contents = m)) := by
  have stable := (Session.contents_steady registry values t m).stable
  refine Triple.andThen (rewriteAll_tallies stable stable one (keys.take n) .default) stable
    (fun pass => Triple.of_pure (fun tallied => Triple.pure stable (fun _ hs _ _ => ⟨?_, hs⟩)))
  obtain ⟨tallies, size⟩ := tallied
  obtain ⟨visited, _, _, _, split, timedOut⟩ := tallies.stopped (n < keys.length)
  rw [size, List.length_take, Nat.min_eq_left within] at visited
  exact ⟨⟨n, within, whole, visited, timedOut⟩, split⟩

include below shared injective in
theorem migrateAll_reaches (entries : List (Bytes × Bytes)) (options : PlanOptions) :
    Triple dbMachine (Session.protocol registry values t) t (fun s => s.contents = m)
      (db.migrateAll entries options).run
      (onResult (fun pass s => pass.1.Reached false entries.length ∧ s.contents = m)
        (fun s => s.contents = m)) := by
  have stable := (Session.contents_steady registry values t m).stable
  unfold PiLsmDb.migrateAll
  cases scanned : db.scanKeys entries with
  | error e => exact Triple.throw stable (fun _ hs _ _ => hs)
  | ok keys =>
    cases Migrate.scanKeys_ok scanned
    have size : (entries.map Prod.fst).length = entries.length := List.length_map _
    dsimp only
    rw [rewriteAll_stopped, ← size]
    exact rewriteAll_reaches (fun key => replanKey_still below shared injective _ key)
      (Nat.le_refl _) (fun _ => rfl)

include below shared injective in
theorem vacuumAll_reaches (entries : List (Bytes × Bytes)) (options : PlanOptions)
    (budget : Option Nat) :
    Triple dbMachine (Session.protocol registry values t) t (fun s => s.contents = m)
      (db.vacuumAll entries options budget).run
      (onResult (fun pass s => pass.1.Reached budget.isSome entries.length ∧ s.contents = m)
        (fun s => s.contents = m)) := by
  have stable := (Session.contents_steady registry values t m).stable
  refine Triple.andThen (Q := fun _ s => s.contents = m)
    (Triple.issued stable (fun _ => stable) ?_) stable (fun elapsed => ?_)
  · intro s o b s' before inv _ run _
    cases run
    exact ⟨inv, Session.others, before⟩
  · cases scanned : db.scanKeys entries with
    | error e => exact Triple.throw stable (fun _ hs _ _ => hs)
    | ok keys =>
      cases Migrate.scanKeys_ok scanned
      have size : (entries.map Prod.fst).length = entries.length := List.length_map _
      dsimp only
      rw [PiLsmDb.vacuumWithin_eq, ← size]
      refine rewriteAll_reaches
        (fun key => Session.vacuumMeaning_still below shared injective _ key)
        (within_le ..) (fun unbounded => ?_)
      cases budget with
      | none => exact within_none _ _
      | some budget => cases unbounded

end Passes

variable (m) in
def Did (command : Command) : Except CliError (List CliOutput) → Db → Prop
  | .error e, s => command.meaning m = ([], some e, m) ∧ s.contents = m
  | .ok printed, s => ∃ shown m', command.meaning m = (shown, none, m') ∧
    List.Forall₂ CliOutput.For printed shown ∧ s.contents = m'

theorem flushed {α : Type} {command : Command} {x : DbOp α} {f : α → List CliOutput}
    {fact : α → Prop} {shown : List CliShown} {m' : Bytes → Option Bytes}
    (h : Triple dbMachine (Session.protocol registry values t) t (fun s => s.contents = m) x.run
      (onResult (fun a s => fact a ∧ s.contents = m') (fun s => s.contents = m)))
    (meaning : command.meaning m = (shown, none, m'))
    (prints : ∀ a, fact a → List.Forall₂ CliOutput.For (f a) shown) :
    Triple dbMachine (Session.protocol registry values t) t (fun s => s.contents = m)
      (x >>= fun a => issue .flush >>= fun _ => pure (.ok (f a)) :
        DbOp (Except CliError (List CliOutput))).run
      (onResult (Did m command) (fun s => s.contents = m)) := by
  have stable (m : Bytes → Option Bytes) := (Session.contents_steady registry values t m).stable
  refine Triple.andThen h (stable m) (fun a => Triple.of_pure (fun known => ?_))
  exact Triple.andThen Session.flush_still (stable m) (fun _ =>
    Triple.pure (stable m') (fun _ hs _ _ => ⟨shown, m', meaning, prints a known, hs⟩))

section Scans

variable {s₀ : Db} (here : s₀.contents = m) (inv : Durable.Inv registry values s₀)
  {entries : List (Bytes × Bytes)} (scan : EngineRows s₀.store (fun _ => True) entries)
include here inv scan

theorem reached_tours {report : VacuumAllReport} {budgeted : Bool}
    (reached : report.Reached budgeted entries.length) : report.Tours budgeted m := by
  obtain ⟨distinct, keys⟩ := Snapshots.scanned_keys inv scan
  rw [here] at keys
  refine ⟨entries.map Prod.fst, distinct, fun key => (keys key).trans (and_iff_right trivial), ?_⟩
  rw [List.length_map]
  exact reached

theorem metrics_reads : Triple dbMachine (Session.protocol registry values t) t
    (fun s => s.contents = m) (db.metrics entries).run
    (onResult (fun metrics s => metrics.Counts m ∧ s.contents = m) (fun s => s.contents = m)) := by
  have steady := Session.contents_steady registry values t m
  have stable := steady.stable
  obtain ⟨read, same, returned⟩ | ⟨_, _, e, _, returned⟩ :=
    Snapshots.observe_reads db entries .new
  · rw [Snapshots.metrics_observed returned]
    have tolerant :=
      (Session.orderly : Orderly (Session.protocol registry values t) t []).toTolerant
    refine (tolerant.counts_yields steady.calm (observeCounters_only _)
      (observeCounters_yields _)).consequence (fun _ hs => hs) ?_
    rintro _ s _ _ ⟨⟨loaded, rfl⟩, hs⟩
    refine ⟨?_, hs⟩
    obtain ⟨distinct, keys⟩ := Snapshots.scanned_keys inv scan
    subst here
    refine ⟨entries.map Prod.fst, distinct, fun key => (keys key).trans (and_iff_right trivial),
      fun few => ?_, fun users => ?_⟩
    · rw [List.length_map] at few ⊢
      exact Snapshots.values_counted same few
    · rw [List.map_map] at users ⊢
      exact Snapshots.logical_counted inv scan same users
  · rw [Snapshots.metrics_failed returned]
    exact Triple.done stable (fun _ hs _ _ => hs)

end Scans

/-- A single command does what it means, or it fails and leaves the map. -/
theorem command_means (below : db.reconstructor.Below registry)
    (shared : db.planner.registry = db.reconstructor)
    (injective : ∀ kind, values.InjOn (computeLogicalHash kind)) {command : Command}
    (single : command.Single) (puts : command.Puts values) (options : PlanOptions) {s₀ : Db}
    (here : s₀.contents = m) (inv : Durable.Inv registry values s₀)
    {entries : List (Bytes × Bytes)} (scan : EngineRows s₀.store (fun _ => True) entries) :
    Triple dbMachine (Session.protocol registry values t) t (fun s => s.contents = m)
      (command.op db options entries).run
      (onResult (Did m command) (fun s => s.contents = m)) := by
  have stable := (Session.contents_steady registry values t m).stable
  cases command with
  | init => exact Triple.pure stable (fun _ hs _ _ => ⟨[], m, rfl, .nil, hs⟩)
  | put key value =>
    exact flushed ((Session.put_updates below shared puts).outcome
      (fun _ _ hs => ⟨trivial, hs⟩) (fun _ hs => hs)) rfl (fun _ _ => .nil)
  | delete key =>
    exact flushed (delete_updates.outcome (fun _ _ hs => ⟨trivial, hs⟩) (fun _ hs => hs)) rfl
      (fun _ _ => .nil)
  | get key =>
    refine Triple.andThen (Session.get_reads below injective (asBytes key)) stable
      (fun found => Triple.of_pure (fun same => ?_))
    cases found with
    | none => exact Triple.pure stable (fun _ hs _ _ => ⟨by simp [Command.meaning, ← same], hs⟩)
    | some value =>
      exact Triple.pure stable (fun _ hs _ _ =>
        ⟨[.shown (.value value)], m, by simp [Command.meaning, ← same], .cons rfl .nil, hs⟩)
  | explain key =>
    refine Triple.andThen (Session.explain_reads (asBytes key)) stable
      (fun found => Triple.of_pure (fun told => ?_))
    cases found with
    | none =>
      have absent : m (asBytes key) = none := told
      exact Triple.pure stable (fun _ hs _ _ => ⟨by simp [Command.meaning, absent], hs⟩)
    | some explained =>
      obtain ⟨v, present, length⟩ := told
      exact Triple.pure stable (fun _ hs _ _ => ⟨[.shown (.length v.length)], m,
        by simp [Command.meaning, present], .cons length .nil, hs⟩)
  | planKey key =>
    exact flushed ((Session.planKey_still below shared injective options _).outcome
      (fun _ _ hs => ⟨trivial, hs⟩) (fun _ hs => hs)) rfl (fun _ _ => .cons trivial .nil)
  | vacuumMeaning key all budget =>
    cases key with
    | none =>
      cases all with
      | true =>
        exact flushed (vacuumAll_reaches below shared injective entries options budget) rfl
          (fun _ reached => .cons (reached_tours here inv scan reached) .nil)
      | false => exact Triple.pure stable (fun _ hs _ _ => ⟨rfl, hs⟩)
    | some key =>
      cases all with
      | true => exact Triple.pure stable (fun _ hs _ _ => ⟨rfl, hs⟩)
      | false =>
        exact flushed ((Session.vacuumMeaning_still below shared injective _ _).outcome
          (fun _ _ hs => ⟨trivial, hs⟩) (fun _ hs => hs)) rfl (fun _ _ => .cons trivial .nil)
  | metrics =>
    refine Triple.andThen (metrics_reads here inv scan) stable
      (fun metrics => Triple.of_pure (fun counts => ?_))
    exact Triple.pure stable (fun _ hs _ _ =>
      ⟨[.metrics m], m, rfl, .cons counts .nil, hs⟩)
  | migrate constant target =>
    exact flushed (migrateAll_reaches below shared injective entries options) rfl
      (fun _ reached => .cons (reached_tours here inv scan reached) .nil)
  | shell lines => exact single.elim
  | compact options => exact single.elim

/-- A command that reads nothing never fails in the handle. -/
theorem command_yields (options : PlanOptions) (entries : List (Bytes × Bytes))
    {command : Command} (blind : ¬ command.Reads) :
    (command.op db options entries).run.Yields (fun r => ∀ e, r ≠ .error e) := by
  cases command with
  | init | compact => exact fun e => nofun
  | put key value => exact fun _ _ _ _ e => nofun
  | delete key => exact fun _ _ _ _ e => nofun
  | _ => exact absurd trivial blind

theorem opened_inv {s : Db} (inv : Durable.Inv registry values s) :
    Durable.Inv registry values s.opened :=
  ⟨inv.keeps, inv.valued, nofun⟩

theorem compacts_store {s s' : Db} (moved : Relation.ReflTransGen (Compacts registry) s s')
    (inv : Durable.Inv registry values s) :
    Durable.Inv registry values s' ∧ s' = { s with store := s'.store } := by
  induction moved with
  | refl => exact ⟨inv, rfl⟩
  | tail _ move ih =>
    obtain ⟨inv₁, same⟩ := ih
    refine ⟨(Durable.compaction_step move inv₁).1, ?_⟩
    obtain ⟨key, frame, frame', _, _, rfl⟩ := move
    rw [same]

omit [Digests] in
theorem stores_unique {rows : List RowEntry} {store store' : Bytes → Option Bytes}
    (first : Stores rows store) (second : Stores rows store') : store = store' := by
  funext key
  exact Option.ext (fun frame => (first key frame).trans (second key frame).symm)

theorem jobs_store (below : db.reconstructor.Below registry)
    (shared : db.planner.registry = db.reconstructor) {options : CompactOptions}
    {mode : CompactionMode} {rows rows' : List RowEntry}
    (jobs : Relation.ReflTransGen (options.supplier db mode).Step rows rows')
    (numbered : Numbered rows) {s : Db} (stores : Stores rows s.store) :
    ∃ s', Relation.ReflTransGen (Compacts registry) s s' ∧ Numbered rows' ∧
      Stores rows' s'.store := by
  induction jobs with
  | refl => exact ⟨s, .refl, numbered, stores⟩
  | tail _ job ih =>
    obtain ⟨context, job⟩ := job
    obtain ⟨s₁, moved, numbered₁, stores₁⟩ := ih
    obtain ⟨s', more, stores'⟩ := Views.job_stores below shared job [] numbered₁ stores₁
    exact ⟨s', moved.trans more, Views.job_numbered shared job numbered₁, stores'⟩

theorem compaction_keeps (below : db.reconstructor.Below registry)
    (shared : db.planner.registry = db.reconstructor) {options : CompactOptions}
    {mode : CompactionMode} {s : Db} {store' : Bytes → Option Bytes}
    (jobs : options.Compaction db mode s.store store') (inv : Durable.Inv registry values s) :
    Durable.Inv registry values { s.opened with store := store' } ∧
      ({ s.opened with store := store' } : Db).contents = s.contents := by
  obtain ⟨rows, rows', numbered, stores, jobs, stores'⟩ := jobs
  obtain ⟨s', moved, _, stores''⟩ := jobs_store below shared jobs numbered stores
  obtain ⟨inv', same⟩ := compacts_store moved inv
  rw [stores_unique stores' stores'']
  rw [same] at inv'
  exact ⟨opened_inv inv', rfl⟩

omit [Digests] in
theorem shown_prints {printed : List Printed} {shown : List Shown}
    (prints : List.Forall₂ Printed.For printed shown) :
    List.Forall₂ CliOutput.For (printed.map .printed) (shown.map .shown) := by
  refine List.forall₂_map_left_iff.mpr (List.forall₂_map_right_iff.mpr (prints.imp ?_))
  intro one shown prints
  cases one <;> exact prints

omit [Digests] in
theorem shell_meaning {lines : List Text} {shown : List Shown} {ending : Option ShellError}
    {m' : Bytes → Option Bytes} (served : session 1 m lines = (shown, ending, m')) :
    (Command.shell lines).meaning m = (shown.map .shown, ending.map .failed, m') := by
  simp only [Command.meaning, served]

theorem executes_serves (injective : ∀ kind, values.InjOn (computeLogicalHash kind))
    {event : Invocation} {s s' : Db}
    (executes : Executes everyStream event.cli s event.printed event.ending s')
    (puts : event.cli.command.Puts values) (inv : Durable.Inv everyStream values s) :
    Durable.Inv everyStream values s' ∧ Serves s.contents event s'.contents := by
  have ran {command : Command} {db : PiLsmDb} {options : PlanOptions}
      (below : db.reconstructor.Below everyStream)
      (shared : db.planner.registry = db.reconstructor) (puts : command.Puts values)
      (single : command.Single) {entries : List (Bytes × Bytes)}
      (scan : EngineRows s.store (fun _ => True) entries)
      {r : Except PiLsmError (Except CliError (List CliOutput))} {s' : Db}
      (run : Runs dbMachine (Compacts everyStream) 0 (command.op db options entries).run
        s.opened r s') : Durable.Inv everyStream values s' ∧
      onResult (Did s.contents command) (fun s' => s'.contents = s.contents) r s' :=
    Runs.safe (P := Session.protocol everyStream values 0) (fun _ => trivial)
      (fun _ _ move inv => Session.compaction move inv) run
      (command_means below shared injective single puts options rfl inv scan s.opened rfl)
      (opened_inv inv)
  obtain ⟨cli, printed, ending⟩ := event
  cases executes with
  | refused refusal => exact ⟨inv, .refused refusal rfl rfl rfl⟩
  | unstarted taken started => exact ⟨inv, .unstarted started rfl rfl rfl⟩
  | panicked taken started unfit => exact ⟨inv, .panicked unfit rfl rfl rfl⟩
  | failed taken started single fit scan run =>
    have launched := Launch.started started
    obtain ⟨inv', still⟩ := ran launched.below launched.shared puts single scan run
    refine ⟨inv', .failed ?_ rfl rfl still⟩
    by_contra blind
    exact run.yields (command_yields _ _ blind) _ rfl
  | bailed taken started single fit scan run =>
    have launched := Launch.started started
    obtain ⟨inv', meaning, still⟩ := ran launched.below launched.shared puts single scan run
    exact ⟨inv', .served .nil (still.symm ▸ meaning)⟩
  | done taken started single fit scan run =>
    have launched := Launch.started started
    obtain ⟨inv', shown, m', meaning, prints, still⟩ :=
      ran launched.below launched.shared puts single scan run
    exact ⟨inv', .served prints (still.symm ▸ meaning)⟩
  | @shell db lines printed ending _ taken started command run =>
    have launched := Launch.started started
    have lines_put : (Command.shell lines).Puts values := command ▸ puts
    obtain ⟨inv', shown, agrees⟩ := Session.serves launched.below launched.shared injective run
      lines_put (opened_inv inv)
    refine ⟨inv', ?_⟩
    by_cases failed : ∃ e, ending = some (.db e)
    · obtain ⟨e, rfl⟩ := failed
      obtain ⟨n, before, served⟩ := agrees.part e rfl
      exact .broken command before (shown_prints agrees.prints) rfl (shell_meaning served)
    · have whole := shell_meaning (agrees.whole (fun e same => failed ⟨e, same⟩))
      exact .served (shown_prints agrees.prints)
        ((congrArg (Command.meaning s.contents) command).trans whole)
  | compacted taken started command allowed jobs =>
    have launched := Launch.started started
    obtain ⟨inv', still⟩ := compaction_keeps launched.below launched.shared jobs inv
    refine ⟨inv', .served .nil ((congrArg (Command.meaning s.contents) command).trans ?_)⟩
    rw [still]
    rfl
  | stopped taken started command allowed jobs =>
    have launched := Launch.started started
    obtain ⟨inv', still⟩ := compaction_keeps launched.below launched.shared jobs inv
    exact ⟨inv', .stopped command rfl rfl still⟩

end Commands

/-- Whatever streams, lengths of prefixes and options the processes have, they are one map. What
each of them prints is what the map holds in its turn; a runtime that cannot read what another
one planned fails, as does a key that the engine does not take, and changes nothing. -/
theorem command_line {values : Set Bytes}
    (injective : ∀ kind, values.InjOn (computeLogicalHash kind)) {events : List Invocation}
    {s : Db} (history : History everyStream events s)
    (puts : ∀ event ∈ events, event.cli.command.Puts values) :
    Durable.Inv everyStream values s ∧ Chronicle events s.contents := by
  induction history with
  | nil => exact ⟨⟨fun _ => rfl, nofun, nofun⟩, .nil⟩
  | between _ move ih =>
    obtain ⟨inv, chronicle⟩ := ih puts
    refine ⟨(Durable.compaction_step move inv).1, ?_⟩
    obtain ⟨_, _, _, _, _, rfl⟩ := move
    exact chronicle
  | snoc _ executes ih =>
    obtain ⟨inv, chronicle⟩ := ih (fun event member => puts event (List.mem_append_left _ member))
    obtain ⟨inv', serves⟩ := Commands.executes_serves injective executes
      (puts _ (List.mem_append_right _ (.head _))) inv
    exact ⟨inv', .snoc chronicle serves⟩

omit [Digests] in
/-- A value that is put through a runtime over pi and read through one over e. -/
theorem command_line_sample :
    letI := prefixDigests
    ∃ s, History everyStream
        [⟨⟨.piPrefix, some 2, 3, .compactBinary, false, .put "k".toList [0x61]⟩, [], none⟩,
          ⟨⟨.ePrefix, some 2, 3, .compactBinary, false, .get "k".toList⟩,
            [.printed (.value [0x61])], none⟩] s ∧
      Chronicle
        [⟨⟨.piPrefix, some 2, 3, .compactBinary, false, .put "k".toList [0x61]⟩, [], none⟩,
          ⟨⟨.ePrefix, some 2, 3, .compactBinary, false, .get "k".toList⟩,
            [.printed (.value [0x61])], none⟩] s.contents := by
  let _ := prefixDigests
  let o : Oracle := ⟨stopped, 0, fun _ => 0⟩
  let put : Cli := ⟨.piPrefix, some 2, 3, .compactBinary, false, .put "k".toList [0x61]⟩
  let get : Cli := ⟨.ePrefix, some 2, 3, .compactBinary, false, .get "k".toList⟩
  have starts : ∀ cli ∈ [put, get], ∃ db, cli.launch.start cli.options = .ok db ∧
      db.decodeLimits = .default := by
    have both : [put, get].all (fun cli => (cli.launch.start cli.options).toOption.any
        (fun db => db.decodeLimits = .default)) = true := by decide +kernel
    intro cli member
    have started := List.all_eq_true.mp both cli member
    cases same : cli.launch.start cli.options with
    | error => simp [same, Except.toOption] at started
    | ok db => exact ⟨db, rfl, by simpa [same, Except.toOption] using started⟩
  obtain ⟨a, started, _⟩ := starts put (.head _)
  obtain ⟨b, started', limits⟩ := starts get (.tail _ (.head _))
  let frame : Bytes := [0x50, 0x4c, 0x53, 0x4d, 0x01, 0x00, 0x00, 0x00, 0x01, 0x02, 0x01, 0x61] ++
    List.replicate 20 0x00
  have encoded : (ValueEnvelope.raw [0x61]).encode = frame := by decide
  have empty : EngineRows (Db.empty 0).store (fun _ => True) [] :=
    ⟨fun key f => ⟨fun h => (by cases h), fun h => (by cases h.2)⟩, .nil⟩
  have fit : EngineKey (asBytes "k".toList) := by decide
  obtain ⟨s₁, first, only⟩ : ∃ s₁, Executes everyStream put (Db.empty 0) [] none s₁ ∧
      s₁.store = Function.update (fun _ => none) (asBytes "k".toList)
        (some (ValueEnvelope.raw [0x61]).encode) :=
    ⟨_, .done rfl started trivial fit empty (alone_runs (o := o) rfl), rfl⟩
  rw [encoded] at only
  have there : s₁.opened.store (asBytes "k".toList) = some frame :=
    (congrFun only _).trans (Function.update_self ..)
  have decoded : ValueEnvelope.decode frame .default = .ok (.raw [0x61]) := by decide
  have reads : b.reading s₁.opened (asBytes "k".toList) = .ok (some [0x61]) := by
    simp only [PiLsmDb.reading, there, limits, decoded]
    rfl
  obtain ⟨s₂, run⟩ := alone_get b (asBytes "k".toList) (o := o) (t := 0) (s := s₁.opened)
  rw [reads] at run
  have second : Executes everyStream get s₁ [.printed (.value [0x61])] none s₂ :=
    .done rfl started' trivial trivial (one_row only) (alone_runs (o := o) (alone_ok _ run))
  let wrote : Invocation := ⟨put, [], none⟩
  let read : Invocation := ⟨get, [.printed (.value [0x61])], none⟩
  have history : History everyStream ([] ++ [wrote] ++ [read]) s₂ :=
    (History.nil.snoc first).snoc second
  have puts : ∀ event ∈ [wrote, read], event.cli.command.Puts {[0x61]} := by
    simp [wrote, read, put, get, Command.Puts]
  exact ⟨s₂, history, (command_line (by simp) history puts).2⟩

end PiLSMer
