import PiLSMer.Slate.Truthful

/-! Every client sees one map. The run is on record, and of the turns of a call one at most
changes what users see: the write of a put or a delete. A get answers what the map held at one of
its own turns, whatever was rewritten, compacted or cached meanwhile. -/
namespace PiLSMer
open Interleave

/-- What users see: for each key the bytes of its last put. -/
def Db.contents (s : Db) (key : Bytes) : Option Bytes := written key s.log

def Tame : ∀ β : Type, DbAct β → Prop
  | _, .put _ _ origin => origin = .rewrite
  | _, .delete _ => False
  | _, _ => True

theorem Mild.tame (β : Type) (a : DbAct β) (mild : Mild β a) : Tame β a := by
  cases a with
  | put key frame origin => exact mild.elim
  | delete key => exact mild
  | _ => exact trivial

theorem rewrite_tame {key : Bytes} (frame : Bytes) : Tame Unit (.put key frame .rewrite) := rfl

theorem contents_write (s : Db) (t : Nat) (key : Bytes) (frame : Option Bytes) (value : Bytes) :
    (s.write t key frame (.put value)).contents = Function.update s.contents key (some value) := by
  funext other
  by_cases same : other = key
  · subst same
    simp [Db.contents, Db.write, written]
  · rw [Function.update_of_ne same]
    simp [Db.contents, Db.write, written, Ne.symm same]

theorem contents_delete (s : Db) (t : Nat) (key : Bytes) :
    (s.write t key none .delete).contents = Function.update s.contents key none := by
  funext other
  by_cases same : other = key
  · subst same
    simp [Db.contents, Db.write, written]
  · rw [Function.update_of_ne same]
    simp [Db.contents, Db.write, written, Ne.symm same]

theorem tame_exec {β : Type} {a : DbAct β} {o : Oracle} {t : Nat} {s s' : Db} {b : β}
    (tame : Tame β a) (exec : dbMachine.exec o t a s = some (b, s')) :
    s'.contents = s.contents := by
  cases a with
  | lock key =>
    obtain ⟨_, rfl⟩ := exec_lock exec
    rfl
  | put key frame origin =>
    have rewrites : origin = .rewrite := tame
    subst rewrites
    cases exec
    funext other
    by_cases same : other = key <;> simp [Db.contents, Db.write, written]
  | delete key => exact tame.elim
  | _ =>
    cases exec
    rfl

def Still (turn : Turn Db) : Prop := turn.after.contents = turn.before.contents

def Idle (turns : List (Turn Db)) : Prop := ∀ turn ∈ turns, Still turn

def Once (effect : Turn Db → Prop) (turns : List (Turn Db)) : Prop :=
  ∃ before turn after, turns = before ++ turn :: after ∧ Idle before ∧ Idle after ∧ effect turn

def Grows (known : List (Turn Db) → Prop) : Prop :=
  ∀ turns turn, known turns → Still turn → known (turns ++ [turn])

theorem Idle.grows : Grows Idle := by
  intro turns turn idle still u member
  rcases List.mem_append.mp member with old | new
  · exact idle u old
  · rw [List.mem_singleton.mp new]
    exact still

theorem Once.grows (effect : Turn Db → Prop) : Grows (Once effect) := by
  rintro turns turn ⟨before, one, after, rfl, idle, idle', has⟩ still
  exact ⟨before, one, after ++ [turn], by simp, idle, Idle.grows after turn idle' still, has⟩

theorem Once.start {turns : List (Turn Db)} {turn : Turn Db} {effect : Turn Db → Prop}
    (idle : Idle turns) (has : effect turn) : Once effect (turns ++ [turn]) :=
  ⟨turns, turn, [], rfl, idle, fun _ none => (by cases none), has⟩

theorem Once.idle {turns : List (Turn Db)} {effect : Turn Db → Prop}
    (still : ∀ turn, effect turn → Still turn) (h : Once effect turns) : Idle turns := by
  obtain ⟨before, turn, after, rfl, idle, idle', has⟩ := h
  intro u member
  rcases List.mem_append.mp member with old | new
  · exact idle u old
  · rcases List.mem_cons.mp new with rfl | later
    · exact still _ has
    · exact idle' u later

def every : Db → Db → Bool := fun _ _ => true

variable [Digests]

/-- What a call makes of the map, at one moment, and what it answers. -/
def Call.Effect (call : Call) (answer : Answer) (before after : Bytes → Option Bytes) : Prop :=
  match call, answer with
  | .put key value _, .handle _ => after = Function.update before key (some value)
  | .delete key, .handle _ => after = Function.update before key none
  | .get key, .value found => found = before key ∧ after = before
  | .planKey _ _, .report _ | .vacuumMeaning _ _, .report _ | .replanKey _ _, .report _ =>
    after = before
  | _, _ => False

/-- A call that returns takes effect at one of its turns; a call that fails has none. -/
def Call.Linear (call : Call) (result : Except PiLsmError Answer) (turns : List (Turn Db)) : Prop :=
  match result with
  | .ok answer =>
    Once (fun turn => call.Effect answer turn.before.contents turn.after.contents) turns
  | .error _ => Idle turns

namespace Linear

variable {registry : StreamRegistry} {frames values : Set Bytes} {t : Nat} {key : Bytes}

/-- The protocol under which values survive, on record. -/
def protocol (registry : StreamRegistry) (frames values : Set Bytes) : Protocol (Recorded Db) :=
  (Durable.protocol registry frames values).recording every

def Turns (t : Nat) (known : List (Turn Db) → Prop) (r : Recorded Db) : Prop :=
  known (r.own every t)

theorem turns_stable (known : List (Turn Db) → Prop) :
    Stable (protocol registry frames values) t (Turns t known) :=
  own_stable every known

theorem tamed {α : Type} {p : Prog DbAct α} {pre : Db → Prop} {post : α → Db → Prop}
    {known : List (Turn Db) → Prop} (grows : Grows known)
    (h : Triple dbMachine (Durable.protocol registry frames values) t pre p post)
    (tame : p.Only Tame) :
    Triple dbMachine.recording (protocol registry frames values) t
      (fun r => pre r.state ∧ Turns t known r) p (fun a r => post a r.state ∧ Turns t known r) :=
  h.recording_grows every (fun turns _ _ _ s _ s' before tame exec =>
    grows turns ⟨t, s, s'⟩ before (tame_exec tame exec)) tame

theorem tamed_once {α β : Type} {a : DbAct β} {next : β → Prog DbAct α} {pre : Db → Prop}
    {post : α → Db → Prop}
    (h : Triple dbMachine (Durable.protocol registry frames values) t pre (.act a next) post)
    (tame : (Prog.act a next).Only Tame) :
    Triple dbMachine.recording (protocol registry frames values) t
      (fun r => pre r.state ∧ Turns t Idle r) (.act a next)
      (fun c r => post c r.state ∧ Turns t (Once Still) r) := by
  intro r ⟨holds, idle⟩ r₁ moved inv good o b r₂ exec good'
  obtain ⟨s₂, run, rfl⟩ := recording_exec exec
  obtain ⟨inv', others, rest⟩ := h r.state holds r₁.state moved.1 inv good o b s₂ run good'
  refine ⟨inv', fun u other => ⟨others u other, own_other other⟩, ?_⟩
  refine rest.recording_grows every (fun turns _ _ _ s _ s' before tame exec =>
    (Once.grows Still) turns ⟨t, s, s'⟩ before (tame_exec tame exec)) (tame.2 b) _ ?_
  rw [own_noted rfl]
  have still : Turns t Idle r₁ := (turns_stable Idle) r r₁ idle moved inv good
  exact Once.start still (tame_exec tame.1 run)

def Locked (t : Nat) (key : Bytes) (known : List (Turn Db) → Prop) (r : Recorded Db) : Prop :=
  r.state.locks key = some t ∧ Turns t known r

theorem locked_stable (known : List (Turn Db) → Prop) :
    Stable (protocol registry frames values) t (Locked t key known) :=
  fun r r' h moved inv good =>
    ⟨(moved.1 key h.1).1, turns_stable known r r' h.2 moved inv good⟩

theorem holding_recorded {α : Type} {body : DbOp α} {before err : List (Turn Db) → Prop}
    {post : α → List (Turn Db) → Prop} (grows : Grows before) (posts : ∀ a, Grows (post a))
    (errs : Grows err)
    (h : Triple dbMachine.recording (protocol registry frames values) t (Locked t key before)
      body.run (onResult (fun a => Locked t key (post a)) (Locked t key err))) :
    Triple dbMachine.recording (protocol registry frames values) t (Turns t before)
      (holding key body).run (onResult (fun a => Turns t (post a)) (Turns t err)) := by
  have locks : Orderly (Durable.protocol registry frames values) t key := Durable.orderly
  have take : Triple dbMachine.recording (protocol registry frames values) t (Turns t before)
      (perform (.lock key)) (fun _ => Locked t key before) :=
    (tamed grows (locks.take (Steady.pure True)) ⟨trivial, fun _ => trivial⟩).consequence
      (fun _ hr => ⟨trivial, hr⟩) (fun _ _ _ _ hr => ⟨hr.1.1, hr.2⟩)
  have release {known : List (Turn Db) → Prop} (grows : Grows known) :
      Triple dbMachine.recording (protocol registry frames values) t (Locked t key known)
        (perform (.unlock key)) (fun _ => Turns t known) :=
    (tamed grows (locks.release (Steady.pure True)) ⟨trivial, fun _ => trivial⟩).consequence
      (fun _ hr => ⟨⟨hr.1, trivial⟩, hr.2⟩) (fun _ _ _ _ hr => hr.2)
  refine Triple.bind take (fun _ => Triple.bind h (fun result => ?_))
  cases result with
  | ok a =>
    exact Triple.bind (release (posts a))
      (fun _ => Triple.done (turns_stable (post a)) (fun _ hr _ _ => hr))
  | error e =>
    exact Triple.bind (release errs) (fun _ => Triple.done (turns_stable err) (fun _ hr _ _ => hr))

theorem write_recorded {a : DbAct Unit} (effect : Turn Db → Prop)
    (step : ∀ s o s', s.locks key = some t → Durable.Inv registry values s →
      dbMachine.exec o t a s = some ((), s') →
      (Durable.Inv registry values s' ∧ ∀ u, u ≠ t → Durable.Rely u s s') ∧
        s'.locks key = some t ∧ effect ⟨t, s, s'⟩) :
    Triple dbMachine.recording (protocol registry frames values) t (Locked t key Idle)
      (issue a : DbOp Unit).run
      (onResult (fun _ => Locked t key (Once effect)) (Locked t key Idle)) := by
  refine Triple.issued (locked_stable Idle) (fun _ => locked_stable (Once effect)) ?_
  intro r o b r' ⟨held, idle⟩ inv _ exec _
  obtain ⟨s', run, rfl⟩ := recording_exec exec
  obtain ⟨⟨inv', others⟩, held', has⟩ := step r.state o s' held inv run
  refine ⟨inv', fun u other => ⟨others u other, own_other other⟩, held', ?_⟩
  change Once effect ((Recorded.mk s' (r.history ++ [⟨t, r.state, s'⟩])).own every t)
  rw [own_noted rfl]
  exact Once.start idle has

theorem stores_holds {db : PiLsmDb} (shared : db.planner.registry = db.reconstructor)
    {value : Bytes} {options : PutOptions} {e : ValueEnvelope}
    (stores : db.Stores value options e) :
    e.Holds db.reconstructor value := by
  unfold PiLsmDb.Stores at stores
  split at stores
  · obtain ⟨plan, planned, rfl⟩ := stores
    exact Eq.trans (by rw [shared]) (Planner.planWithOptions_made planned).rebuilds
  · cases stores
    rfl

theorem put_step {registry : StreamRegistry} {value : Bytes} (valued : value ∈ values)
    {e : ValueEnvelope} (holds : e.Holds registry value) {s : Db} (held : s.locks key = some t)
    (inv : Durable.Inv registry values s) :
    let s' := s.write t key (some e.encode) (.put value)
    Durable.Inv registry values s' ∧ ∀ u, u ≠ t → Durable.Rely u s s' := by
  have last : written key (s.write t key (some e.encode) (.put value)).log = some value :=
    (congrFun (contents_write s t key (some e.encode) value) key).trans (Function.update_self ..)
  refine Durable.write_step (some e.encode) (.put value) inv held ?_ (fun v same => ?_)
  · rw [Db.Keeps, last]
    exact ⟨_, Function.update_self .., e, rfl, holds⟩
  · cases last.symm.trans same
    exact valued

theorem delete_step {registry : StreamRegistry} {s : Db} (held : s.locks key = some t)
    (inv : Durable.Inv registry values s) :
    let s' := s.write t key none .delete
    Durable.Inv registry values s' ∧ ∀ u, u ≠ t → Durable.Rely u s s' := by
  have last : written key (s.write t key none .delete).log = none := by simp [Db.write, written]
  refine Durable.write_step none .delete inv held ?_ (fun v same => ?_)
  · rw [Db.Keeps, last]
    exact Function.update_self ..
  · cases last.symm.trans same

theorem put_linear {db : PiLsmDb} (shared : db.planner.registry = db.reconstructor)
    {value : Bytes} (valued : value ∈ values) (options : PutOptions) :
    Triple dbMachine.recording (protocol db.reconstructor frames values) t (Turns t Idle)
      (db.putWithOptions key value options).run
      (onResult (fun _ => Turns t (Once (fun turn =>
        turn.after.contents = Function.update turn.before.contents key (some value))))
        (Turns t Idle)) := by
  let effect : Turn Db → Prop := fun turn =>
    turn.after.contents = Function.update turn.before.contents key (some value)
  have locks : Orderly (Durable.protocol db.reconstructor frames values) t key := Durable.orderly
  have calm := (locks.locked).and (Steady.pure True).calm
  refine holding_recorded Idle.grows (fun _ => Once.grows effect) Idle.grows ?_
  have planned : Triple dbMachine.recording (protocol db.reconstructor frames values) t
      (Locked t key Idle) (db.newEnvelope value options).run
      (onResult (fun e r => db.Stores value options e ∧ Locked t key Idle r)
        (Locked t key Idle)) := by
    refine (tamed Idle.grows (locks.newEnvelope calm db value options)
      (only_newEnvelope db Mild.tame value options)).consequence
        (fun _ hr => ⟨⟨hr.1, trivial⟩, hr.2⟩)
      (fun result r _ _ hr => ?_)
    cases result with
    | ok e => exact ⟨hr.1.1, hr.1.2.1, hr.2⟩
    | error e => exact ⟨hr.1.1, hr.2⟩
  refine Triple.andThen planned (locked_stable Idle) (fun e => Triple.of_pure (fun stores => ?_))
  refine Triple.andThen (write_recorded effect (fun s o s' held inv run => ?_))
    (locked_stable Idle) (fun _ => ?_)
  · cases run
    exact ⟨put_step valued (stores_holds shared stores) held inv, held,
      contents_write s t key _ value⟩
  · have written : Stable (protocol db.reconstructor frames values) t
        (Locked t key (Once effect)) := locked_stable (Once effect)
    dsimp only
    split
    · have flush : Triple dbMachine (Durable.protocol db.reconstructor frames values) t
          (fun s => s.locks key = some t ∧ True) (issue .flush : DbOp Unit).run
          (onResult (fun _ s => s.locks key = some t ∧ True) (fun _ => False)) :=
        locks.issued calm DbAct.Counts.flush
      have flushed : Triple dbMachine.recording (protocol db.reconstructor frames values) t
          (Locked t key (Once effect)) (issue .flush : DbOp Unit).run
          (onResult (fun _ => Locked t key (Once effect)) (Locked t key Idle)) := by
        refine (tamed (Once.grows effect) flush (Prog.Only.issue trivial)).consequence
          (fun _ hr => ⟨⟨hr.1, trivial⟩, hr.2⟩) (fun result r _ _ hr => ?_)
        cases result with
        | ok _ => exact ⟨hr.1.1, hr.2⟩
        | error e => exact hr.1.elim
      exact Triple.andThen flushed (locked_stable Idle)
        (fun _ => Triple.pure written (fun _ hr _ _ => hr))
    · exact Triple.pure written (fun _ hr _ _ => hr)

theorem delete_linear {db : PiLsmDb} :
    Triple dbMachine.recording (protocol registry frames values) t (Turns t Idle)
      (db.delete key).run
      (onResult (fun _ => Turns t (Once (fun turn =>
        turn.after.contents = Function.update turn.before.contents key none)))
        (Turns t Idle)) := by
  refine holding_recorded Idle.grows (fun _ => Once.grows _) Idle.grows ?_
  refine Triple.andThen (write_recorded _ (fun s o s' held inv run => ?_)) (locked_stable Idle)
    (fun _ => Triple.pure (locked_stable _) (fun _ hr _ _ => hr))
  cases run
  exact ⟨delete_step held inv, held, contents_delete s t key⟩

def Found (db : PiLsmDb) (frames values : Set Bytes) (x : Option Bytes) :
    Option ValueEnvelope → Prop
  | none => x = none
  | some e => ∃ f v, x = some v ∧ Durable.Seen db.reconstructor frames values f ∧
      FrameOf db.reconstructor f v ∧ ValueEnvelope.decode f db.decodeLimits = .ok e

def Reads (key : Bytes) (x : Option Bytes) (turn : Turn Db) : Prop :=
  x = turn.before.contents key ∧ Still turn

theorem found_of_stored {db : PiLsmDb} {s : Db}
    (inv : Durable.Inv db.reconstructor values s) (good : StoredIn frames s) {f : Bytes}
    (there : s.store key = some f) {e : ValueEnvelope}
    (decoded : ValueEnvelope.decode f db.decodeLimits = .ok e) :
    Found db frames values (s.contents key) (some e) := by
  obtain ⟨v, valued, last, holds⟩ := inv.stored there
  exact ⟨f, v, last, ⟨good key f there, v, valued, holds⟩, holds, decoded⟩

theorem getEnvelope_linear (db : PiLsmDb) :
    Triple dbMachine.recording (protocol db.reconstructor frames values) t (Turns t Idle)
      (db.getEnvelope key).run
      (onResult (fun found r => ∃ x, Found db frames values x found ∧
        Turns t (Once (Reads key x)) r) (Turns t Idle)) := by
  let Looked (found : Option Bytes) (r : Recorded Db) : Prop :=
    ∃ x, (found = none → x = none) ∧ (∀ f e, found = some f →
      ValueEnvelope.decode f db.decodeLimits = .ok e → Found db frames values x (some e)) ∧
      Turns t (Once (Reads key x)) r
  have stable : ∀ found, Stable (protocol db.reconstructor frames values) t (Looked found) := by
    rintro found r r' ⟨x, missing, stored, once⟩ moved inv good
    exact ⟨x, missing, stored, turns_stable _ r r' once moved inv good⟩
  refine Triple.andThen (Q := Looked) (Triple.issued (turns_stable Idle) stable ?_)
    (turns_stable Idle) (fun found => ?_)
  · intro r o b r' idle inv good exec _
    obtain ⟨s', run, rfl⟩ := recording_exec exec
    cases run
    refine ⟨inv, fun u other => ⟨fun _ held => ⟨held, rfl⟩, own_other other⟩, ?_⟩
    refine ⟨r.state.contents key, fun missing => ?_, fun f e there decoded => ?_, ?_⟩
    · cases last : written key r.state.log with
      | none => exact last
      | some v =>
        have kept := inv.keeps key
        rw [Db.Keeps, last] at kept
        obtain ⟨frame, there, _⟩ := kept
        cases missing.symm.trans there
    · exact found_of_stored inv good there decoded
    · change Once _ ((Recorded.mk r.state (r.history ++ [⟨t, r.state, r.state⟩])).own every t)
      rw [own_noted rfl]
      exact Once.start idle ⟨rfl, rfl⟩
  · cases found with
    | none =>
      refine Triple.pure (stable none) (fun r hr _ _ => ?_)
      obtain ⟨x, missing, _, once⟩ := hr
      exact ⟨x, missing rfl, once⟩
    | some encoded =>
      dsimp only
      cases decoded : ValueEnvelope.decode encoded db.decodeLimits with
      | ok e =>
        refine Triple.pure (stable (some encoded)) (fun r hr _ _ => ?_)
        obtain ⟨x, _, stored, once⟩ := hr
        exact ⟨x, stored encoded e rfl decoded, once⟩
      | error e =>
        refine Triple.throw (stable (some encoded)) (fun r hr _ _ => ?_)
        obtain ⟨x, _, _, once⟩ := hr
        exact once.idle (fun _ reads => reads.2)

theorem logicalBytes_value {db : PiLsmDb}
    (values_injective : ∀ kind, values.InjOn (computeLogicalHash kind)) {x : Option Bytes}
    {e : ValueEnvelope} (found : Found db frames values x (some e)) (limit : UInt64) :
    Triple dbMachine (Durable.protocol db.reconstructor frames values) t (fun _ => True)
      (db.logicalBytes e limit).run (onResult (fun w _ => x = some w) (fun _ => True)) := by
  obtain ⟨f, v, rfl, seen, holds, decoded⟩ := found
  let R := Durable.discipline db frames values t [] limit
  have read : R.Read ⟨envelopeHash f, e, f.length⟩ := ⟨f, seen, decoded, rfl, rfl⟩
  refine (Discipline.logicalBytes read).consequence (fun _ hs => hs) (fun result s _ _ hs => ?_)
  cases result with
  | error e => trivial
  | ok w =>
    have holds' := Durable.obtained_value values_injective seen decoded hs.1
    have same := holds.decoded decoded
    have same' := holds'.decoded decoded
    cases e with
    | raw bytes => exact congrArg some (Eq.trans same (Eq.symm same'))
    | plan p => exact congrArg some (Except.ok.inj (same.symm.trans same'))

theorem get_linear {db : PiLsmDb}
    (values_injective : ∀ kind, values.InjOn (computeLogicalHash kind)) :
    Triple dbMachine.recording (protocol db.reconstructor frames values) t (Turns t Idle)
      (db.get key).run
      (onResult (fun x => Turns t (Once (Reads key x))) (Turns t Idle)) := by
  refine Triple.andThen (getEnvelope_linear db) (turns_stable Idle)
    (fun found => Triple.of_exists (fun x => Triple.of_pure (fun found_x => ?_)))
  cases found with
  | none =>
    have missing : x = none := found_x
    subst missing
    exact Triple.pure (turns_stable _) (fun _ hr _ _ => hr)
  | some e =>
    have bytes := tamed (Once.grows (Reads key x)) (logicalBytes_value (t := t)
      values_injective found_x db.maxReconstructBytes) ((mild_logicalBytes db e _).mono Mild.tame)
    refine Triple.andThen (Q := fun w r => x = some w ∧ Turns t (Once (Reads key x)) r)
      (bytes.consequence (fun _ hr => ⟨trivial, hr⟩) (fun result r _ _ hr => ?_))
      (turns_stable Idle) (fun w => Triple.of_pure (fun same => ?_))
    · cases result with
      | ok w => exact hr
      | error e => exact Once.idle (fun _ reads => reads.2) hr.2
    · subst same
      exact Triple.pure (turns_stable _) (fun _ hr _ _ => hr)

theorem rewrite_linear {p : Prog DbAct (Except PiLsmError PlanReport)}
    (safe : Triple dbMachine (Durable.protocol registry frames values) t (fun _ => True) p
      (onResult (fun _ _ => True) (fun _ => True)))
    (tame : p.Only Tame)
    (begins : ∃ (β : Type) (a : DbAct β) (next : β → Prog DbAct _), p = .act a next) :
    Triple dbMachine.recording (protocol registry frames values) t (Turns t Idle) p
      (onResult (fun _ => Turns t (Once Still)) (Turns t Idle)) := by
  obtain ⟨β, a, next, rfl⟩ := begins
  refine (tamed_once safe tame).consequence (fun _ hr => ⟨trivial, hr⟩) (fun result r _ _ hr => ?_)
  cases result with
  | ok report => exact hr.2
  | error e => exact Once.idle (fun _ still => still) hr.2

theorem answered {α : Type} {x : DbOp α} {f : α → Answer} {call : Call}
    {effect : α → Turn Db → Prop}
    (h : Triple dbMachine.recording (protocol registry frames values) t (Turns t Idle) x.run
      (onResult (fun a => Turns t (Once (effect a))) (Turns t Idle)))
    (effects : ∀ a turn, effect a turn →
      call.Effect (f a) turn.before.contents turn.after.contents) :
    Triple dbMachine.recording (protocol registry frames values) t (Turns t Idle)
      ((x >>= fun a => pure (f a) : DbOp Answer).run >>= fun result => .done (call, result))
      (fun ended => Turns t (ended.1.Linear ended.2)) := by
  have op : Triple dbMachine.recording (protocol registry frames values) t (Turns t Idle)
      (x >>= fun a => pure (f a) : DbOp Answer).run
      (fun result => Turns t (call.Linear result)) := by
    have linear : Triple dbMachine.recording (protocol registry frames values) t (Turns t Idle)
        (x >>= fun a => pure (f a) : DbOp Answer).run
        (onResult (fun answer => Turns t (call.Linear (.ok answer))) (Turns t Idle)) := by
      refine Triple.andThen h (turns_stable Idle)
        (fun a => Triple.pure (turns_stable _) (fun r hr _ _ => ?_))
      obtain ⟨before, turn, after, same, idle, idle', has⟩ := hr
      exact ⟨before, turn, after, same, idle, idle', effects a turn has⟩
    refine linear.consequence (fun _ hr => hr) (fun result r _ _ hr => ?_)
    cases result with
    | ok answer => exact hr
    | error e => exact hr
  exact Triple.bind op (fun result => Triple.done (turns_stable _) (fun _ hr _ _ => hr))

end Linear

def AnsweringIn (db : PiLsmDb) (values : Set Bytes)
    (p : Prog DbAct (Call × Except PiLsmError Answer)) : Prop :=
  ∃ call : Call, p = ((call.op db).run >>= fun result => .done (call, result)) ∧
    ∀ key value options, call = .put key value options → value ∈ values

namespace Linear

variable {frames values : Set Bytes} {t : Nat}

theorem call_linear {db : PiLsmDb} (shared : db.planner.registry = db.reconstructor)
    (injective : frames.InjOn envelopeHash)
    (values_injective : ∀ kind, values.InjOn (computeLogicalHash kind))
    {p : Prog DbAct (Call × Except PiLsmError Answer)} (call : AnsweringIn db values p) :
    Triple dbMachine.recording (protocol db.reconstructor frames values) t (Turns t Idle) p
      (fun ended => Turns t (ended.1.Linear ended.2)) := by
  obtain ⟨call, rfl, valued⟩ := call
  cases call with
  | put key value options =>
    exact answered (put_linear shared (valued key value options rfl) options)
      (fun _ _ effect => effect)
  | delete key => exact answered delete_linear (fun _ _ effect => effect)
  | get key => exact answered (get_linear values_injective) (fun _ _ effect => effect)
  | planKey key options =>
    refine answered (rewrite_linear (Durable.rewrite_safe 0
      (Discipline.planKey (Durable.allows shared injective values_injective)))
      (only_planKey db Mild.tame rewrite_tame (fun _ _ => trivial) options) ⟨_, _, _, rfl⟩)
      (fun _ _ effect => effect)
  | vacuumMeaning key options =>
    refine answered (rewrite_linear (Durable.rewrite_safe _
      (Discipline.vacuumMeaning rfl (Durable.allows shared injective values_injective)))
      (only_vacuumMeaning db Mild.tame rewrite_tame (fun _ _ => trivial) options)
      ⟨_, _, _, rfl⟩) (fun _ _ effect => effect)
  | replanKey key options =>
    refine answered (rewrite_linear (Durable.rewrite_safe _
      (Discipline.replanKey rfl (Durable.allows shared injective values_injective)))
      (only_replanKey db Mild.tame rewrite_tame options) ⟨_, _, _, rfl⟩) (fun _ _ effect => effect)

end Linear

/-- The clients see one map that starts empty: the turns of a run follow each other as steps of
it, and every call that has returned changed or read it at one of its own turns, as if it had
happened there at once. A call that failed, and a rewrite, changed nothing. -/
theorem linearizable (db : PiLsmDb) (shared : db.planner.registry = db.reconstructor)
    (frames values : Set Bytes) (injective : frames.InjOn envelopeHash)
    (values_injective : ∀ kind, values.InjOn (computeLogicalHash kind)) (cacheBytes : UInt64)
    {pool : Pool DbAct (Recorded Db) (Call × Except PiLsmError Answer)}
    (reach : Pool.Reach dbMachine.recording (AnsweringIn db values)
      (Unrecorded (Compacts db.reconstructor)) (fun r => StoredIn frames r.state)
      ⟨Db.empty cacheBytes, []⟩ pool) :
    Chained Db.contents (fun _ => none) pool.state.history pool.state.state.contents ∧
    ∀ (t : Nat) (call : Call) (result : Except PiLsmError Answer),
      pool.threads[t]? = some (Prog.done (call, result)) →
      call.Linear result (pool.state.own every t) := by
  refine ⟨reach.chained (fun s s' move => ?_), fun t call result ended => ?_⟩
  · obtain ⟨key, frame, frame', _, _, rfl⟩ := move
    rfl
  · let P := Linear.protocol db.reconstructor frames values
    let fresh : Fresh P := ⟨fun t => Linear.Turns t (fun turns => turns = []),
      fun t r r' h moved => moved.2.trans h⟩
    have start : P.inv ⟨Db.empty cacheBytes, []⟩ :=
      ⟨fun _ => rfl, fun _ _ none => (by cases none), fun _ _ none => (by cases none)⟩
    have newborn : ∀ u, fresh.holds u ⟨Db.empty cacheBytes, []⟩ := fun _ => rfl
    have keeps : ∀ r r', Unrecorded (Compacts db.reconstructor) r r' → P.inv r → P.good r →
        P.good r' → P.inv r' ∧ ∀ t, P.rely t r r' := by
      intro r r' move inv _ _
      obtain ⟨inv', others⟩ := Durable.compaction_step move.1 inv
      exact ⟨inv', fun u => ⟨others u, by rw [Recorded.own, Recorded.own, move.2]⟩⟩
    have kept := reach.kept (P := P) (F := fresh)
      (Q := fun t ended => Linear.Turns t (ended.1.Linear ended.2)) start newborn
      (fun p calls t => (Linear.call_linear shared injective values_injective calls).consequence
        (fun r hr turn member => by
          rw [show r.own every t = [] from hr] at member
          cases member) (fun _ _ _ _ hr => hr)) keeps
    exact kept.result ended

omit [Digests] in
/-- A get that comes after the write of a put, while the put still holds the lock. -/
theorem linearizable_sample :
    letI := sampleDigests
    ∃ pool : Pool DbAct (Recorded Db) (Call × Except PiLsmError Answer),
      pool.state.state.locks [0x6b] = some 0 ∧
      Chained Db.contents (fun _ => none) pool.state.history pool.state.state.contents ∧
      (Call.get [0x6b]).Linear (.ok (.value (some [0x61]))) (pool.state.own every 1) := by
  let _ := sampleDigests
  let db := sampleDb .default
  let o : Oracle := ⟨stopped, 0, fun _ => 0⟩
  let fine : Recorded Db → Prop := fun r => StoredIn {sampleRawFrame} r.state
  let Run := Pool.Reach dbMachine.recording (AnsweringIn db {[0x61]}) (Unrecorded (Compacts ⟨[]⟩))
    fine ⟨Db.empty 0, []⟩
  have empty : ∀ r : Recorded Db, r.state.store = (fun _ => none) → fine r := by
    intro r none k frame there
    rw [none] at there
    cases there
  have stored : ∀ (r : Recorded Db) (f : Bytes), r.state.store =
      Function.update (fun _ => none) [0x6b] (some f) → f = sampleRawFrame → fine r := by
    intro r f same encoded k frame there
    rw [same] at there
    exact (only_stored there).2.trans encoded
  have put : AnsweringIn db {[0x61]} ((Call.op db (.put [0x6b] [0x61] ⟨false, false⟩)).run >>=
      fun result => .done (.put [0x6b] [0x61] ⟨false, false⟩, result)) := by
    refine ⟨_, rfl, ?_⟩
    rintro key value options ⟨⟩
    rfl
  have get : AnsweringIn db {[0x61]} ((Call.op db (.get [0x6b])).run >>=
      fun result => .done (.get [0x6b], result)) := by
    refine ⟨_, rfl, ?_⟩
    rintro key value options ⟨⟩
  have both : Run _ := ((Pool.Reach.start (empty _ rfl)).step (Pool.Step.spawn put)
    (empty _ rfl)).step (Pool.Step.spawn get) (empty _ rfl)
  have locked : Run _ := both.step (Pool.Step.act (t := 0) (o := o) rfl rfl) (empty _ rfl)
  have wrote : Run _ := locked.step (Pool.Step.act (t := 0) (o := o) rfl rfl)
    (stored _ _ rfl (by decide))
  have there : Function.update (fun _ => none) [0x6b] (some (ValueEnvelope.raw [0x61]).encode)
      [0x6b] = some sampleRawFrame := by decide
  have read : Run _ := wrote.step (Pool.Step.act (t := 1) (o := o) (b := some sampleRawFrame) rfl
    (congrArg (fun found => some (found, _)) there)) (stored _ _ rfl (by decide))
  obtain ⟨pool, reached, held, ended⟩ : ∃ pool, Run pool ∧ pool.state.state.locks [0x6b] = some 0 ∧
      pool.threads[1]? = some (.done (.get [0x6b], .ok (.value (some [0x61])))) :=
    ⟨_, read, rfl, rfl⟩
  obtain ⟨chained, linear⟩ := linearizable db rfl {sampleRawFrame} {[0x61]} (by simp) (by simp) 0
    reached
  exact ⟨pool, held, chained, linear 1 _ _ ended⟩

end PiLSMer
