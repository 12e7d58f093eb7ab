import PiLSMer.Slate.Readable

/-! A put followed by a get, with readers around. A put checks no limit: what it stores is
read back when the value, or the plan made for it, is within the limits of the handle. -/
namespace PiLSMer
open Interleave

variable [Digests]

/-- Steps of others that write nothing. What they cache they cache under its own hash. -/
structure Readers (values : Set Bytes) (t : Nat) (s s' : Db) : Prop where
  store : s'.store = s.store
  locks : ∀ k, s.locks k = some t → s'.locks k = some t
  cached : ∀ k w, s'.cache.get k = some w → s.cache.get k = some w ∨ Trusted values k w

def PiLsmDb.Serves (db : PiLsmDb) (v : Bytes) : ValueEnvelope → Prop
  | .raw bytes => bytes = v
  | .plan p => p.logicalLen ≤ db.maxReconstructBytes ∧ reconstruct db.reconstructor p = .ok v

/-- What a value must satisfy to be read back after this put. -/
def PiLsmDb.Retrievable (db : PiLsmDb) (v : Bytes) (options : PutOptions) : Prop :=
  if options.allowImmediatePlan then
    ∀ plan, db.planner.planWithOptions stopped v db.planner.options = .ok plan →
      plan.Admitted db.decodeLimits ∧ reconstruct db.reconstructor plan = .ok v
  else v.length ≤ db.decodeLimits.maxLogicalLen.toNat

namespace PutGet

def Inv (values : Set Bytes) (s : Db) : Prop :=
  ∀ k w, s.cache.get k = some w → Trusted values k w

def protocol (values : Set Bytes) (t : Nat) : Protocol Db where
  good _ := True
  inv := Inv values
  rely u s s' := u = t → Readers values t s s'
  refl _ _ _ := ⟨rfl, fun _ h => h, fun _ _ h => Or.inl h⟩
  trans u s s' s'' first second same := by
    obtain ⟨store, locks, cached⟩ := first same
    obtain ⟨store', locks', cached'⟩ := second same
    refine ⟨store'.trans store, fun k h => locks' k (locks k h), fun k w h => ?_⟩
    obtain before | trusted := cached' k w h
    · exact cached k w before
    · exact Or.inr trusted

variable {db : PiLsmDb} {values : Set Bytes} {key v : Bytes} {t : Nat}

theorem others {s s' : Db} : ∀ u, u ≠ t → (protocol values t).rely u s s' :=
  fun _ other same => absurd same other

theorem tolerant : Tolerant (protocol values t) t where
  quiet s s' step inv := by
    refine ⟨fun k w h => inv k w ?_, others⟩
    rwa [step.cache] at h

theorem orderly : Orderly (protocol values t) t key where
  toTolerant := tolerant
  locks _ _ moved held := (moved rfl).locks key held

theorem keeps {s s' : Db} (move : Readers values t s s') (inv : Inv values s) :
    Inv values s' ∧ (protocol values t).rely t s s' := by
  refine ⟨fun k w h => ?_, fun _ => move⟩
  obtain before | trusted := move.cached k w h
  · exact inv k w before
  · exact trusted

variable (values) in
theorem store_steady (store : Bytes → Option Bytes) :
    Steady (protocol values t) t (fun s => s.store = store) :=
  ⟨fun _ _ h moved _ _ => (moved rfl).store.trans h, fun _ _ step h => step.store.trans h⟩

variable (db key v) in
theorem put_writes (options : PutOptions) (store : Bytes → Option Bytes) :
    Triple dbMachine (protocol values t) t (fun s => s.store = store)
      (db.putWithOptions key v options).run (onResult
        (fun _ s => ∃ e, db.Stores v options e ∧
          s.store = Function.update store key (some e.encode))
        (fun s => s.store = store)) := by
  refine orderly.put (store_steady values store) ⟨?_, ?_⟩ (fun s e stores _ before inv _ => ?_)
  · rintro s s' ⟨e, stores, written⟩ moved _ _
    exact ⟨e, stores, (moved rfl).store.trans written⟩
  · rintro s s' step ⟨e, stores, written⟩
    exact ⟨e, stores, step.store.trans written⟩
  · exact fun _ => ⟨inv, others, e, stores, by rw [← before]; rfl⟩

theorem reconstruct_returns {p : ReconstructionPlan} {store : Bytes → Option Bytes}
    (injective : ∀ kind, values.InjOn (computeLogicalHash kind)) (valued : v ∈ values)
    (serves : db.Serves v (.plan p)) :
    Triple dbMachine (protocol values t) t (fun s => s.store = store)
      (db.reconstructPlan p db.maxReconstructBytes).run
      (onResult (fun w s => w = v ∧ s.store = store) (fun _ => False)) := by
  obtain ⟨within, rebuilt⟩ := serves
  have steady := store_steady values (t := t) store
  have never : Stable (protocol values t) t (fun _ => False) := fun _ _ h _ _ _ => h
  unfold PiLsmDb.reconstructPlan
  rw [if_neg (UInt64.not_lt.mpr within)]
  refine Triple.andThen (Q := fun found s => (∀ w, found = some w → w = v) ∧ s.store = store)
    (Triple.issued steady.stable (fun _ => ((Steady.pure _).and steady).stable) ?_) never
    (fun found => Triple.of_pure (fun hit => ?_))
  · intro s o b s' before inv _ run _
    cases run
    exact ⟨inv, others, fun w there => (inv _ w there).same injective rebuilt valued, before⟩
  · cases found with
    | some w => exact Triple.pure steady.stable (fun _ hs _ _ => ⟨hit w rfl, hs⟩)
    | none =>
      refine Triple.andThen (tolerant.issued steady.calm (DbAct.Counts.addDuration _)) never
        (fun _ => ?_)
      rw [reconstructWithLimit_iff.mpr ⟨within, rebuilt⟩]
      refine Triple.andThen (Q := fun _ s => s.store = store)
        (Triple.issued steady.stable (fun _ => steady.stable) ?_) never (fun _ =>
          Triple.andThen (tolerant.issued steady.calm (DbAct.Counts.setCacheBytes _)) never
            (fun _ => Triple.pure steady.stable (fun _ hs _ _ => ⟨rfl, hs⟩)))
      intro s o b s' before inv _ run _
      cases run
      exact ⟨Trusted.insert _ inv rebuilt valued, others, before⟩

theorem get_returns {frame : Bytes} {e : ValueEnvelope} (store : Bytes → Option Bytes)
    (injective : ∀ kind, values.InjOn (computeLogicalHash kind)) (valued : v ∈ values)
    (there : store key = some frame)
    (decoded : ValueEnvelope.decode frame db.decodeLimits = .ok e) (serves : db.Serves v e) :
    Triple dbMachine (protocol values t) t (fun s => s.store = store) (db.get key).run
      (onResult (fun found _ => found = some v) (fun _ => False)) := by
  have steady := store_steady values (t := t) store
  have never : Stable (protocol values t) t (fun _ => False) := fun _ _ h _ _ _ => h
  refine Triple.andThen (Q := fun found s => found = some e ∧ s.store = store) ?_ never
    (fun found => Triple.of_pure (fun isContent => ?_))
  · refine Triple.andThen (Q := fun found s => found = some frame ∧ s.store = store)
      (Triple.issued steady.stable (fun _ => ((Steady.pure _).and steady).stable) ?_) never
      (fun found => Triple.of_pure (fun isFrame => ?_))
    · intro s o b s' before inv _ run _
      cases run
      exact ⟨inv, others, before ▸ there, before⟩
    · subst isFrame
      dsimp only
      rw [decoded]
      exact Triple.pure steady.stable (fun _ hs _ _ => ⟨rfl, hs⟩)
  · subst isContent
    have ends : ∀ w, Triple dbMachine (protocol values t) t (fun s => w = v ∧ s.store = store)
        (pure (some w) : DbOp (Option Bytes)).run
        (onResult (fun found _ => found = some v) (fun _ => False)) :=
      fun w => Triple.of_pure (fun same => Triple.pure steady.stable
        (fun _ _ _ _ => congrArg some same))
    cases e with
    | raw bytes =>
      exact Triple.andThen (Triple.pure steady.stable (fun _ hs _ _ => ⟨serves, hs⟩)) never ends
    | plan p => exact Triple.andThen (reconstruct_returns injective valued serves) never ends

end PutGet

theorem PiLsmDb.Stores.served {db : PiLsmDb} {v : Slice} {options : PutOptions} {e : ValueEnvelope}
    (small : v.val.length ≤ db.maxReconstructBytes.toNat) (stores : db.Stores v options e)
    (retrievable : db.Retrievable v options) :
    ValueEnvelope.decode e.encode db.decodeLimits = .ok e ∧ db.Serves v e := by
  unfold PiLsmDb.Stores at stores
  unfold PiLsmDb.Retrievable at retrievable
  split at stores
  · rename_i immediate
    rw [if_pos immediate] at retrievable
    obtain ⟨plan, planned, rfl⟩ := stores
    obtain ⟨admitted, rebuilt⟩ := retrievable plan planned
    have made := Planner.planWithOptions_made planned
    have bound : v.val.length < 2 ^ 64 :=
      Nat.lt_of_le_of_lt small db.maxReconstructBytes.toNat_lt
    exact ⟨made.decodes bound admitted, made.logicalLen_le small, rebuilt⟩
  · rename_i raw
    rw [if_neg raw] at retrievable
    subst stores
    exact ⟨(decode_written_raw v.payload_small _).mpr ⟨retrievable, rfl⟩, rfl⟩

theorem PutGet.read_back (db : PiLsmDb) {values : Set Bytes} {key v : Bytes}
    {options : PutOptions} {s : Db} {e : ValueEnvelope}
    (returns : ∀ t r s₁, Runs dbMachine (Readers values t) t
      (db.putWithOptions key v options).run s r s₁ →
      (∃ err, r = .error err ∧ s₁.store = s.store) ∨
      ((∃ handle, r = .ok handle) ∧ ∀ t' r' s₂,
        Runs dbMachine (Readers values t') t' (db.get key).run s₁ r' s₂ → r' = .ok (some v)))
    (chosen : db.envelopeFor stopped v options = .ok e) :
    ∃ e', ValueEnvelope.decode e.encode db.decodeLimits = .ok e' ∧
      db.recoverEnvelope (.new 0) db.maxReconstructBytes e' = .ok v := by
  obtain ⟨t, foreign⟩ := s.foreign_thread key
  have release : Readers values t s { s with locks := Function.update s.locks key none } := by
    refine ⟨rfl, fun k held => ?_, fun _ _ h => Or.inl h⟩
    have other : k ≠ key := fun same => foreign (same ▸ held)
    exact (Function.update_of_ne other ..).trans held
  obtain ⟨r, s₁, run, _, _, outcome⟩ := alone_putWithOptions db key
    (o := ⟨stopped, 0, fun _ => 0⟩) (t := t)
    (s := { s with locks := Function.update s.locks key none }) (Function.update_self ..) v options
  simp only [chosen] at outcome
  obtain ⟨⟨handle, rfl⟩, store⟩ := outcome
  obtain ⟨_, failed, _⟩ | ⟨_, reads⟩ := returns t _ s₁ (Runs.env release (alone_runs run))
  · cases failed
  · have readable : db.Gets { s₁ with cache := .new 0 } key v := by
      intro o t'
      obtain ⟨s₂, run'⟩ := alone_get db key (o := o) (t := t')
        (s := { s₁ with cache := .new 0 })
      have emptied : Readers values t' s₁ { s₁ with cache := .new 0 } :=
        ⟨rfl, fun _ held => held, nofun⟩
      exact ⟨s₂, reads t' _ s₂ (Runs.env emptied (alone_runs run')) ▸ run'⟩
    obtain ⟨frame, e', there, decoded, content⟩ := PiLsmDb.gets_iff.mp readable
    have same : some frame = some e.encode :=
      there.symm.trans (store ▸ Function.update_self ..)
    cases same
    exact ⟨e', decoded, content⟩

/-- A put fails and changes nothing, or the next get returns the value: exactly when the
value is retrievable under the limits of the handle. -/
theorem put_get_iff (db : PiLsmDb) (values : Set Bytes)
    (injective : ∀ kind, values.InjOn (computeLogicalHash kind)) {key : Bytes} {v : Slice}
    (valued : v.val ∈ values) (small : v.val.length ≤ db.maxReconstructBytes.toNat)
    (options : PutOptions) {s : Db}
    (cached : ∀ k w, s.cache.get k = some w → Trusted values k w) :
    (∀ t r s₁, Runs dbMachine (Readers values t) t (db.putWithOptions key v options).run s r s₁ →
      (∃ err, r = .error err ∧ s₁.store = s.store) ∨
      ((∃ handle, r = .ok handle) ∧ ∀ t' r' s₂,
        Runs dbMachine (Readers values t') t' (db.get key).run s₁ r' s₂ →
          r' = .ok (some v.val))) ↔
    db.Retrievable v options := by
  have bound : v.val.length < 2 ^ 64 := Nat.lt_of_le_of_lt small db.maxReconstructBytes.toNat_lt
  constructor
  · intro returns
    unfold PiLsmDb.Retrievable
    split
    · rename_i immediate
      intro plan planned
      have chosen : db.envelopeFor stopped v options = .ok (.plan plan) := by
        rw [PiLsmDb.envelopeFor, if_pos immediate]
        exact congrArg (Except.map _) planned
      obtain ⟨e', decoded, content⟩ := PutGet.read_back db returns chosen
      obtain ⟨wellFormed, rfl⟩ := decode_encode_plan.mp decoded
      change db.recover (.new 0) plan db.maxReconstructBytes = .ok v.val at content
      obtain ⟨_, hit | ⟨_, rebuilt⟩⟩ := PiLsmDb.recover_iff.mp content
      · cases hit
      · exact ⟨((Planner.planWithOptions_made planned).wellFormed_iff bound _).mp wellFormed,
          rebuilt⟩
    · rename_i raw
      have chosen : db.envelopeFor stopped v options = .ok (.raw v) := if_neg raw
      obtain ⟨e', decoded, _⟩ := PutGet.read_back db returns chosen
      exact ((decode_written_raw v.payload_small _).mp decoded).1
  · intro retrievable t r s₁ run
    obtain ⟨inv, outcome⟩ := Runs.safe (P := PutGet.protocol values t) (fun _ => trivial)
      (fun _ _ move inv => PutGet.keeps move inv) run
      (PutGet.put_writes db key v options s.store s rfl) cached
    cases r with
    | error err => exact Or.inl ⟨err, rfl, outcome⟩
    | ok handle =>
      obtain ⟨e, stores, store⟩ := outcome
      obtain ⟨decoded, serves⟩ := stores.served small retrievable
      refine Or.inr ⟨⟨handle, rfl⟩, fun t' r' s₂ run' => ?_⟩
      have answer := (Runs.safe (P := PutGet.protocol values t') (fun _ => trivial)
        (fun _ _ move inv => PutGet.keeps move inv) run'
        (PutGet.get_returns s₁.store injective valued
          (by rw [store]; exact Function.update_self ..) decoded serves s₁ rfl) inv).2
      cases r' with
      | error err => exact answer.elim
      | ok found => exact congrArg Except.ok answer

omit [Digests] in
/-- A put takes a value longer than the handle can decode. -/
theorem put_accepts_unreadable :
    ¬ ∀ [Digests] (db : PiLsmDb) (values : Set Bytes) (key : Bytes) (v : Slice)
      (options : PutOptions) (s : Db), (∀ kind, values.InjOn (computeLogicalHash kind)) →
      v.val ∈ values → v.val.length ≤ db.maxReconstructBytes.toNat →
      (∀ k w, s.cache.get k = some w → Trusted values k w) →
      ∀ t r s₁, Runs dbMachine (Readers values t) t (db.putWithOptions key v options).run s r s₁ →
        (∃ err, r = .error err ∧ s₁.store = s.store) ∨
        ((∃ handle, r = .ok handle) ∧ ∀ t' r' s₂,
          Runs dbMachine (Readers values t') t' (db.get key).run s₁ r' s₂ →
            r' = .ok (some v.val)) := by
  intro claim
  let _ := sampleDigests
  let v : Slice := ⟨[0x61], by decide⟩
  let db := sampleDb { DecodeLimits.default with maxLogicalLen := 0 }
  obtain ⟨e, decoded, _⟩ := PutGet.read_back db (e := .raw v)
    (claim db {[0x61]} [0x6b] v ⟨true, false⟩ (Db.empty 0) (by simp) rfl (by decide) nofun) rfl
  exact absurd ((decode_written_raw v.payload_small _).mp decoded).1 (by decide)

omit [Digests] in
theorem put_get_sample :
    letI := sampleDigests
    ∃ handle s₁ s₂,
      Runs dbMachine (Readers {[0x61]} 0) 0
        ((sampleDb .default).putWithOptions [0x6b] [0x61] ⟨true, false⟩).run (Db.empty 0)
        (.ok handle) s₁ ∧
      Runs dbMachine (Readers {[0x61]} 0) 0 ((sampleDb .default).get [0x6b]).run s₁
        (.ok (some [0x61])) s₂ := by
  let _ := sampleDigests
  let v : Slice := ⟨[0x61], by decide⟩
  let db := sampleDb .default
  let o : Oracle := ⟨stopped, 0, fun _ => 0⟩
  have retrievable : db.Retrievable v ⟨true, false⟩ := by
    change (1 : Nat) ≤ _
    decide
  have chosen : db.envelopeFor stopped v ⟨true, false⟩ = .ok (.raw v) := rfl
  obtain ⟨r, s₁, run, _, _, outcome⟩ := alone_putWithOptions db [0x6b] (o := o)
    (t := 0) (s := Db.empty 0) rfl v ⟨true, false⟩
  simp only [o, chosen] at outcome
  obtain ⟨⟨handle, rfl⟩, _⟩ := outcome
  obtain ⟨s₂, run'⟩ := alone_get db [0x6b] (o := o) (t := 0) (s := s₁)
  obtain ⟨_, failed, _⟩ | ⟨_, reads⟩ := (put_get_iff db {[0x61]}
    (by simp) (v := v) rfl (by decide) ⟨true, false⟩ (s := Db.empty 0) nofun).mpr retrievable 0 _ s₁
      (alone_runs run)
  · cases failed
  · have answer := reads 0 _ s₂ (alone_runs run')
    exact ⟨handle, s₁, s₂, alone_runs run, answer ▸ alone_runs run'⟩

end PiLSMer
