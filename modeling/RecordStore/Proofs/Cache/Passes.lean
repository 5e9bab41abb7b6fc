import RecordStore.Proofs.Cache.Batches
import RecordStore.Proofs.Cache.WithJobs

/-!
# Passes in stages

The programs that a cache runs for its callers and for its worker go through *stages*.
A program that is resting has no pass under way.  It looks at the slots and begins a
pass, saves the entries of the pass, ends the batch, deletes from the backend what was
deleted meanwhile, drops what it wrote, and is resting again.  Some of these are left out:
a flush drops nothing, and so does a pass whose write failed.

`Orderly` says of a program that it goes through the stages from a given one on.  All
programs of a cache are orderly when they begin (`Job.orderly_program`), but for the one
that shuts it down.  Between two requests of a pass other requests may come from other
programs, so nothing is said here about the state of the cache.
-/

namespace RecordStore

namespace Cache

open Service (Prog)

/-! ## Stages -/

/-- How far a program is with a pass. -/
inductive Stage where
  | resting
  /-- The pass has begun, and its entries are to be written. -/
  | saving (p : Pass)
  /-- The write has a result, and the batch is to be ended. -/
  | finishing (p : Pass) (written : Bool)
  /-- The batch has ended, and addresses are to be deleted again. -/
  | deleting (p : Pass) (written : Bool) (ids : List EntryId)
  /-- What was written is to be dropped. -/
  | dropping (p : Pass)

def Stage.pass? : Stage → Option Pass
  | resting => none
  | saving p | finishing p _ | deleting p _ _ | dropping p => some p

/-- The pass of a stage, while its batch is being written. -/
def Stage.open? : Stage → Option Pass
  | saving p | finishing p _ => some p
  | resting | deleting _ _ _ | dropping _ => none

theorem Stage.pass?_of_open? {st : Stage} {p : Pass} (h : st.open? = some p) :
    st.pass? = some p := by
  cases st with
  | saving q => exact h
  | finishing q written => exact h
  | resting | deleting | dropping => cases h

/-- How a pass may go on after its last call on the backend: it drops what it wrote, or it
is over. -/
inductive Stage.Ends (p : Pass) : Bool → Stage → Prop where
  | rest {written : Bool} : Stage.Ends p written .resting
  | drop : Stage.Ends p true (.dropping p)

/-! ## Orderly programs -/

/-- Whether a request has no part in a pass, and changes no entries. -/
def Request.isAside : Request → Bool
  | .perform .init | .noteRequest | .queueRequest | .withdrawRequest | .isClosed
  | .failEviction | .isFull | .clearRequested | .isAttached | .detach | .join | .newTicket
  | .submit _ | .await _ | .answer _ _ | .beginWork | .nextEvent | .finishWork => true
  | _ => false

/-- Programs that go through the stages of passes, from a stage on. -/
inductive Orderly {α : Type} : Stage → Prog α → Prop where
  | done (a : α) : Orderly .resting (.done a)
  | aside {q : Request} {next : Reply q → Prog α} (hq : q.isAside = true)
      (hnext : ∀ a, Orderly .resting (next a)) : Orderly .resting (.ask q next)
  | evict {next : Option Pass → Prog α} (hnone : Orderly .resting (next none))
      (hsome : ∀ p, Orderly (.saving p) (next (some p))) :
      Orderly .resting (.ask .beginEviction next)
  | flush {next : Option Pass → Prog α} (hnone : Orderly .resting (next none))
      (hsome : ∀ p, Orderly (.saving p) (next (some p))) :
      Orderly .resting (.ask .beginFlush next)
  | save {p : Pass} {next : Except Failure Bool → Prog α}
      (hok : Orderly (.finishing p true) (next (.ok true)))
      (hfail : ∀ a, a ≠ .ok true → Orderly (.finishing p false) (next a)) :
      Orderly (.saving p) (.ask (.backend (.saveBatch p.entries)) next)
  | finish {p : Pass} {written : Bool} {st : Stage} {next : List EntryId → Prog α}
      (hend : Stage.Ends p written st) (hclean : Orderly st (next []))
      (hmarked : ∀ ids, ids ≠ [] → Orderly (.deleting p written ids) (next ids)) :
      Orderly (.finishing p written) (.ask (.finishBatch p.batch) next)
  | delete {p : Pass} {written : Bool} {ids : List EntryId} {st : Stage}
      {next : Except Failure Unit → Prog α} (hend : Stage.Ends p written st)
      (hok : Orderly st (next (.ok ()))) (hfail : ∀ e, Orderly .resting (next (.error e))) :
      Orderly (.deleting p written ids) (.ask (.backend (.deleteBatch ids)) next)
  | drop {p : Pass} {next : Nat → Prog α} (hnext : ∀ a, Orderly .resting (next a)) :
      Orderly (.dropping p) (.ask (.dropWritten p.candidates) next)

/-- An orderly program that goes on with an orderly one. -/
theorem Orderly.bind {α β : Type} {st : Stage} {program : Prog α} {f : α → Prog β}
    (h : Orderly st program) (hf : ∀ a, Orderly .resting (f a)) : Orderly st (program.bind f) := by
  induction h with
  | done a => exact hf a
  | aside hq _ ih => exact .aside hq ih
  | evict _ _ ihnone ihsome => exact .evict ihnone ihsome
  | flush _ _ ihnone ihsome => exact .flush ihnone ihsome
  | save _ _ ihok ihfail => exact .save ihok ihfail
  | finish hend _ _ ihclean ihmarked => exact .finish hend ihclean ihmarked
  | delete hend _ _ ihok ihfail => exact .delete hend ihok ihfail
  | drop _ ih => exact .drop ih

/-! ## The programs of a cache -/

namespace Service

/-- What is left of the writing of a pass when the result of the write is known. -/
def endWrite (p : Pass) (result : Except Failure Unit) : Prog (Except Failure Unit) := do
  let deleted ← ask (.finishBatch p.batch)
  if deleted.isEmpty then return result
  let redeleted ← ask (.backend (.deleteBatch deleted))
  match result with
  | .error e => return .error e
  | .ok () => return redeleted

/-- What a shutdown does when there is no worker any more. -/
def flushOut (backendName : String) : Prog (Except Failure Unit) := do
  match ← flushAll backendName with
  | .error e => return .error (failureOf e)
  | .ok _ =>
      ask .empty
      return .ok ()

variable (name : String)

/-- The end of a batch, and the deletions after it, give what is done with the result. -/
theorem orderly_endWrite {α : Type} {p : Pass} {st : Stage} {written : Bool}
    {result : Except Failure Unit} {f : Except Failure Unit → Prog α}
    (hend : Stage.Ends p written st) (hresult : Orderly st (f result))
    (herror : ∀ e, Orderly .resting (f (.error e))) :
    Orderly (.finishing p written) ((endWrite p result).bind f) := by
  refine .finish hend hresult fun ids hids => ?_
  cases ids with
  | nil => exact absurd rfl hids
  | cons id ids =>
      cases result with
      | error e => exact .delete hend hresult fun _ => herror e
      | ok a => exact .delete hend hresult herror

/-- A pass that is written and then goes on with the result. -/
theorem orderly_writeBatch {α : Type} {p : Pass} {st : Stage} {f : Except Failure Unit → Prog α}
    (hend : Stage.Ends p true st) (hok : Orderly st (f (.ok ())))
    (herror : ∀ e, Orderly .resting (f (.error e))) :
    Orderly (.saving p) ((writeBatch name p).bind f) := by
  refine .save (orderly_endWrite hend hok herror) fun a ha => ?_
  cases a with
  | error e => exact orderly_endWrite .rest (herror e) herror
  | ok accepted =>
      cases accepted with
      | true => exact absurd rfl ha
      | false => exact orderly_endWrite .rest (herror _) herror

theorem orderly_evictOldest : Orderly .resting (evictOldest name) :=
  .evict (.done _) fun _ => orderly_writeBatch name .drop (.drop fun _ => .done _) fun _ =>
    .aside rfl fun _ => .done _

theorem orderly_flushAll : Orderly .resting (flushAll name) :=
  .flush (.done _) fun _ => orderly_writeBatch name .rest (.done _) fun _ => .done _

theorem orderly_writeAll : Orderly .resting (writeAll name) := by
  refine .aside rfl fun closed => ?_
  cases closed with
  | true => exact .done _
  | false => exact orderly_flushAll name

theorem orderly_evict : Orderly .resting (evict name) := by
  refine .aside rfl fun closed => ?_
  cases closed with
  | true => exact .done _
  | false =>
      refine .aside rfl fun attached => ?_
      cases attached with
      | false => exact orderly_evictOldest name
      | true =>
          refine .aside rfl fun ticket => .aside rfl fun accepted => ?_
          cases accepted with
          | true => exact .aside rfl fun _ => .done _
          | false => exact .done _

theorem orderly_requestPass : Orderly .resting requestPass := by
  refine .aside rfl fun noted => ?_
  cases noted with
  | true => exact .done _
  | false =>
      refine .aside rfl fun queued => ?_
      cases queued with
      | true => exact .done _
      | false => exact .aside rfl fun _ => .done _

theorem orderly_waitForEvictions : Orderly .resting waitForEvictions := by
  refine .aside rfl fun attached => ?_
  cases attached with
  | false => exact .done _
  | true =>
      refine .aside rfl fun ticket => .aside rfl fun accepted => ?_
      cases accepted with
      | true => exact .aside rfl fun _ => .done _
      | false => exact .done _

theorem orderly_runTask (task : Task) : Orderly .resting (runTask name task) := by
  cases task with
  | evict => exact .aside rfl fun _ => (orderly_evictOldest name).bind fun _ => .done _
  | evictFor ticket => exact (orderly_evictOldest name).bind fun _ => .aside rfl fun _ => .done _
  | mark ticket => exact .aside rfl fun _ => .done _

theorem orderly_work : Orderly .resting (work name) := by
  refine .aside rfl fun event => ?_
  cases event with
  | task t => exact (orderly_runTask name t).bind fun _ => .done _
  | tick =>
      refine .aside rfl fun full => ?_
      cases full with
      | true => exact (orderly_evictOldest name).bind fun _ => .done _
      | false => exact .done _
  | stop => exact .aside rfl fun _ => .done _

end Service

/-- What is run on a cache that is not shut down. -/
inductive Job where
  | pass
  | flush
  | writeAll
  /-- A pass for a caller, by the worker if there is one. -/
  | evict
  | waitForEvictions
  /-- The request for a pass after an admission. -/
  | requestPass
  /-- The start of the cache, which creates the worker. -/
  | init
  | beginWork
  | work

/-- The program of a job, for a backend of some name. -/
def Job.program (backendName : String) : Job → Prog Unit
  | pass => do let _ ← Service.evictOldest backendName
  | flush => do let _ ← Service.flushAll backendName
  | writeAll => do let _ ← Service.writeAll backendName
  | evict => do let _ ← Service.evict backendName
  | waitForEvictions => Service.waitForEvictions
  | requestPass => Service.requestPass
  | init => do let _ ← Service.serve backendName .init
  | beginWork => Service.ask .beginWork
  | work => do let _ ← Service.work backendName

theorem Job.orderly_program (backendName : String) (job : Job) :
    Orderly .resting (job.program backendName) := by
  cases job with
  | pass => exact (Service.orderly_evictOldest backendName).bind fun _ => .done _
  | flush => exact (Service.orderly_flushAll backendName).bind fun _ => .done _
  | writeAll => exact (Service.orderly_writeAll backendName).bind fun _ => .done _
  | evict => exact (Service.orderly_evict backendName).bind fun _ => .done _
  | waitForEvictions => exact Service.orderly_waitForEvictions
  | requestPass => exact Service.orderly_requestPass
  | init => exact .aside rfl fun _ => .done _
  | beginWork => exact .aside rfl fun _ => .done _
  | work => exact (Service.orderly_work backendName).bind fun _ => .done _

/-- A cache meant for one entry, before a backend that is empty at first. -/
def JobSystem.single (steady : Call → Bool) : JobSystem Job where
  config := { byteBudget := 0 }
  initial _ := none
  program := Job.program "memory"
  steady

end Cache

end RecordStore
