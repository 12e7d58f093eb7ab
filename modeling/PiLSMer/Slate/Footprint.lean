import PiLSMer.Slate.CachedReads

/-! What the operations may touch on any path, read off their programs. Most of their actions
neither write a frame nor count what was converted. -/
namespace PiLSMer
open Interleave

/-- The actions that neither write a frame nor count converted bytes. -/
def Mild : ∀ β : Type, DbAct β → Prop
  | _, .put _ _ _ => False
  | _, .delete _ => False
  | _, .add counter _ => counter ≠ .rawBytesConvertedTotal
  | _, .addDuration counter => counter ≠ .rawBytesConvertedTotal
  | _, _ => True

theorem Mild.taken (β : Type) (a : DbAct β) (mild : Mild β a) : EngineTakes β a := by
  cases a with
  | put key frame origin => exact mild.elim
  | delete key => exact mild.elim
  | _ => exact trivial

theorem Mild.addDuration {counter : DbCounter} (other : counter ≠ .rawBytesConvertedTotal) :
    Mild Unit (.addDuration counter) :=
  other

theorem only_holding {kind : ∀ β : Type, DbAct β → Prop} {α : Type} {key : Bytes} {body : DbOp α}
    (lock : kind Unit (.lock key)) (unlock : kind Unit (.unlock key))
    (h : body.run.Only kind) : (holding key body).run.Only kind :=
  have release : ∀ r : Except PiLsmError α,
      (perform (DbAct.unlock key) >>= fun _ => Prog.done r).Only kind :=
    fun _ => ⟨unlock, fun _ => trivial⟩
  ⟨lock, fun _ => Prog.Only.bind (p := body.run) h release⟩

variable [Digests] (db : PiLsmDb)

theorem mild_planBytes (bytes : Bytes) (options : PlanOptions) :
    (db.planBytesWithOptions bytes options).run.Only Mild :=
  ⟨trivial, fun _ => ⟨Mild.addDuration (by decide), fun _ => trivial⟩⟩

theorem mild_reconstructPlan (p : ReconstructionPlan) (limit : UInt64) :
    (db.reconstructPlan p limit).run.Only Mild := by
  unfold PiLsmDb.reconstructPlan
  split
  · exact trivial
  refine Prog.Only.andThen (Prog.Only.issue trivial) (fun found => ?_)
  cases found with
  | some value => exact trivial
  | none =>
    refine Prog.Only.andThen (Prog.Only.issue (Mild.addDuration (by decide))) (fun _ => ?_)
    cases reconstructWithLimit db.reconstructor p limit with
    | error e => exact trivial
    | ok value =>
      exact Prog.Only.andThen (Prog.Only.issue trivial) (fun _ =>
        Prog.Only.andThen (Prog.Only.issue trivial) (fun _ => trivial))

theorem mild_logicalBytes (e : ValueEnvelope) (limit : UInt64) :
    (db.logicalBytes e limit).run.Only Mild := by
  cases e with
  | raw bytes => exact trivial
  | plan p => exact mild_reconstructPlan db p limit

theorem mild_get (key : Bytes) : (db.get key).run.Only Mild := by
  refine Prog.Only.andThen (Prog.Only.andThen (Prog.Only.issue trivial) (fun found => ?_))
    (fun envelope => ?_)
  · cases found with
    | none => exact trivial
    | some encoded =>
      dsimp only
      cases ValueEnvelope.decode encoded db.decodeLimits <;> exact trivial
  · cases envelope with
    | none => exact trivial
    | some e => exact Prog.Only.andThen (mild_logicalBytes db e _) (fun _ => trivial)

theorem mild_next (options : ScanOptions) (entry : Option (Bytes × Bytes)) :
    ((db.scanWithOptions options).next entry).run.Only Mild := by
  match entry with
  | none => exact trivial
  | some (key, encoded) =>
    simp only [PiLsmIterator.next]
    split
    · cases ValueEnvelope.decode encoded _ with
      | error e => exact trivial
      | ok e =>
        cases e with
        | raw bytes => exact trivial
        | plan p =>
          dsimp only
          split
          · exact trivial
          refine Prog.Only.andThen (Prog.Only.issue trivial) (fun found => ?_)
          cases found with
          | some value => exact trivial
          | none =>
            refine Prog.Only.andThen (Prog.Only.issue (Mild.addDuration (by decide)))
              (fun _ => ?_)
            cases reconstructWithLimit _ p _ with
            | error e => exact trivial
            | ok value =>
              exact Prog.Only.andThen (Prog.Only.issue trivial) (fun _ =>
                Prog.Only.andThen (Prog.Only.issue trivial) (fun _ => trivial))
    · exact trivial

theorem mild_readCurrentEnvelope (key : Bytes) :
    (holding key (db.readCurrentEnvelope key)).run.Only Mild := by
  refine only_holding trivial trivial
    (Prog.Only.andThen (Prog.Only.issue trivial) (fun found => ?_))
  cases found with
  | none => exact trivial
  | some encoded =>
    dsimp only
    cases ValueEnvelope.decode encoded db.decodeLimits <;> exact trivial

section Only

variable {kind : ∀ β : Type, DbAct β → Prop} (mild : ∀ β a, Mild β a → kind β a) {key : Bytes}
include mild

theorem only_newEnvelope (value : Bytes) (options : PutOptions) :
    (db.newEnvelope value options).run.Only kind := by
  unfold PiLsmDb.newEnvelope
  split
  · exact Prog.Only.andThen ((mild_planBytes db value _).mono mild) (fun _ => trivial)
  · exact trivial

theorem only_put (puts : ∀ frame value, kind Unit (.put key frame (.put value))) (value : Bytes)
    (options : PutOptions) : (db.putWithOptions key value options).run.Only kind := by
  refine only_holding (mild _ _ trivial) (mild _ _ trivial)
    (Prog.Only.andThen (only_newEnvelope db mild value options) (fun envelope =>
      Prog.Only.andThen (Prog.Only.issue (puts _ _)) (fun _ => ?_)))
  split
  · exact Prog.Only.andThen (Prog.Only.issue (mild _ _ trivial)) (fun _ => trivial)
  · exact trivial

omit [Digests] in
theorem only_delete (deletes : kind Unit (.delete key)) : (db.delete key).run.Only kind :=
  only_holding (mild _ _ trivial) (mild _ _ trivial)
    (Prog.Only.andThen (Prog.Only.issue deletes) (fun _ => trivial))

variable (rewrites : ∀ frame, kind Unit (.put key frame .rewrite))
include rewrites

theorem only_writeIfSourceUnchanged (hash : Arr 32) (encodedPlan : Bytes) (report : PlanReport) :
    (db.writeIfSourceUnchanged key hash encodedPlan report).run.Only kind := by
  refine only_holding (mild _ _ trivial) (mild _ _ trivial)
    (Prog.Only.andThen (Prog.Only.issue (mild _ _ trivial)) (fun found => ?_))
  cases found with
  | none => exact trivial
  | some current =>
    dsimp only
    split
    · exact trivial
    · exact Prog.Only.andThen (Prog.Only.issue (rewrites _)) (fun _ => trivial)

theorem only_planAndWrite (source : Source) (bytes : Bytes) (options : PlanOptions)
    (oldChunkCount : Option Nat) (unwanted : Bytes → Nat → Bool) :
    (db.planAndWrite key source bytes options oldChunkCount unwanted).run.Only kind := by
  refine Prog.Only.andThen (Prog.Only.attempt ((mild_planBytes db bytes options).mono mild))
    (fun planned => ?_)
  split
  · refine Prog.Only.andThen (Prog.Only.issue (mild _ _ ?_)) (fun _ => trivial)
    exact (by decide : DbCounter.representationEntropyExcusesTotal ≠ .rawBytesConvertedTotal)
  · exact trivial
  · dsimp only
    split
    · exact trivial
    · exact only_writeIfSourceUnchanged db mild rewrites _ _ _

theorem only_replanKey (options : VacuumOptions) : (db.replanKey key options).run.Only kind := by
  refine Prog.Only.andThen ((mild_readCurrentEnvelope db key).mono mild) (fun found => ?_)
  cases found with
  | none => exact trivial
  | some source =>
    exact Prog.Only.andThen ((mild_logicalBytes db source.envelope _).mono mild)
      (fun bytes => only_planAndWrite db mild rewrites source bytes _ _ _)

variable (counts : ∀ counter value, kind Unit (.add counter value))
include counts

omit mild rewrites [Digests] in
theorem only_countRewritten (report : PlanReport) (counter : DbCounter) (value : UInt64) :
    (countRewritten report counter value).run.Only kind := by
  unfold countRewritten
  split
  · exact Prog.Only.andThen (Prog.Only.issue (counts _ _)) (fun _ => trivial)
  · exact trivial

theorem only_planKey (options : PlanOptions) : (db.planKey key options).run.Only kind := by
  refine Prog.Only.andThen ((mild_readCurrentEnvelope db key).mono mild) (fun found => ?_)
  cases found with
  | none => exact trivial
  | some source =>
    cases content : source.envelope with
    | plan p =>
      simp only [content]
      exact trivial
    | raw bytes =>
      simp only [content]
      exact Prog.Only.andThen (only_planAndWrite db mild rewrites source bytes options _ _)
        (fun report => only_countRewritten counts report _ _)

theorem only_vacuumMeaning (options : VacuumOptions) :
    (db.vacuumMeaning key options).run.Only kind := by
  refine Prog.Only.andThen (Prog.Only.issue (counts _ _)) (fun _ =>
    Prog.Only.andThen ((mild_readCurrentEnvelope db key).mono mild) (fun found => ?_))
  cases found with
  | none => exact trivial
  | some source =>
    cases content : source.envelope with
    | raw bytes =>
      simp only [content]
      exact only_planKey db mild rewrites counts options.planOptions
    | plan old =>
      simp only [content]
      exact Prog.Only.andThen ((mild_reconstructPlan db old _).mono mild) (fun w =>
        Prog.Only.andThen (only_planAndWrite db mild rewrites source w _ _ _)
          (fun report => only_countRewritten counts report _ _))

end Only

end PiLSMer
