import RecordStore.Proofs.Cache.WithCallers

/-!
# Duties

What a program of the worker or of a caller asks next depends on little: on the stage of its pass,
and on what it is about outside of passes.  For the worker this is its `Duty`, for a shutdown its
`Closing`.  Both are routines, so they say for each request to where the replies lead, and the
programs obey them.  The programs of other callers only go through the stages of passes, and have no
part in the work of the worker and in the closing.
-/

namespace RecordStore

namespace Cache

open Service (Prog)

/-! ## The routine of a pass -/

/-- Whether a batch was accepted. -/
def isAccepted : Except Failure Bool → Bool
  | .ok accepted => accepted
  | .error _ => false

section

variable {σ : Type} (inside : Stage → σ) (after : Pass → σ) (gaveUp : σ)

/-- Where a pass leads after its last call on the backend. -/
def passEnd (p : Pass) : Except Failure Unit → σ
  | .ok () => after p
  | .error _ => gaveUp

/-- Where a pass leads when its batch has ended. -/
def passMarked (p : Pass) (written : Bool) (ids : List EntryId) : σ :=
  if ids.isEmpty then if written then after p else gaveUp
  else inside (.deleting p written ids)

/-- What a pass asks: it may be inside of a longer routine, leads there to a state if it was
written and its marks were deleted, and to another if not. -/
inductive PassAsks : σ → (q : Request) → (Reply q → σ) → Prop where
  | save (p : Pass) : PassAsks (inside (.saving p)) (.backend (.saveBatch p.entries))
      fun a => inside (.finishing p (isAccepted a))
  | finish (p : Pass) (written : Bool) : PassAsks (inside (.finishing p written))
      (.finishBatch p.batch) (passMarked inside after gaveUp p written)
  | delete (p : Pass) (written : Bool) (ids : List EntryId) :
      PassAsks (inside (.deleting p written ids)) (.backend (.deleteBatch ids))
        fun a => if written then passEnd after gaveUp p a else gaveUp

variable {inside after gaveUp} {asks : σ → (q : Request) → (Reply q → σ) → Prop}

/-- The end of a batch, and the deletions after it, with the result of the write. -/
theorem obeys_endWrite
    (hpass : ∀ {s q state}, PassAsks inside after gaveUp s q state → asks s q state)
    (p : Pass) (result : Except Failure Unit) :
    (Service.endWrite p result).Obeys asks (fun s result => s = passEnd after gaveUp p result)
      (inside (.finishing p result.toBool)) := by
  refine ⟨_, hpass (.finish p result.toBool), fun ids => ?_⟩
  cases ids with
  | nil => cases result <;> rfl
  | cons id ids =>
      refine ⟨_, hpass (.delete p result.toBool (id :: ids)), fun a => ?_⟩
      cases result <;> rfl

/-- The writing of a pass obeys every routine that has the pass in it. -/
theorem obeys_writeBatch
    (hpass : ∀ {s q state}, PassAsks inside after gaveUp s q state → asks s q state)
    (backendName : String) (p : Pass) :
    (Service.writeBatch backendName p).Obeys asks
      (fun s result => s = passEnd after gaveUp p result) (inside (.saving p)) := by
  refine ⟨_, hpass (.save p), fun a => ?_⟩
  cases a with
  | error e => exact obeys_endWrite hpass p (.error e)
  | ok accepted =>
      cases accepted with
      | true => exact obeys_endWrite hpass p (.ok ())
      | false => exact obeys_endWrite hpass p (.error _)

end

/-! ## The worker -/

/-- What the worker is about. -/
inductive Duty where
  /-- The worker has not begun. -/
  | fresh
  /-- Nothing is under way. -/
  | free
  /-- A requested pass begins. -/
  | clearing
  /-- A tick has come. -/
  | checking
  /-- A pass is to begin if the cache is full. -/
  | looking
  | passing (st : Stage)
  /-- The worker was told to stop. -/
  | stopping
  | gone

namespace Duty

def stage : Duty → Stage
  | passing st => st
  | _ => .resting

/-- What the worker is about when it has taken up an event. -/
def ofEvent : Worker.Event Task → Duty
  | .task .evict => clearing
  | .task (.evictFor _) => looking
  | .task (.mark _) => free
  | .tick => checking
  | .stop => stopping

def ofLook : Option Pass → Duty
  | none => free
  | some p => passing (.saving p)

inductive Asks : Duty → (q : Request) → (Reply q → Duty) → Prop where
  | begin : Asks fresh .beginWork fun _ => free
  | next : Asks free .nextEvent ofEvent
  | reply (ticket : Nat) (outcome : Except Error Nat) : Asks free
    (.answer ticket outcome) fun _ => free
  | fail : Asks free .failEviction fun _ => free
  | clear : Asks clearing .clearRequested fun _ => looking
  | check : Asks checking .isFull fun full => if full then looking else free
  | look : Asks looking .beginEviction ofLook
  | pass {d : Duty} {q : Request} {state : Reply q → Duty}
      (h : PassAsks passing (fun p => passing (.dropping p)) free d q state) : Asks d q state
  | drop (p : Pass) : Asks (passing (.dropping p)) (.dropWritten p.candidates) fun _ => free
  | finish : Asks stopping .finishWork fun _ => gone

/-- Whether there is another round is answered by whether the worker was told to stop. -/
inductive Ends : Duty → Bool → Prop where
  | again : Ends free true
  | ended : Ends gone false

end Duty

theorem Service.obeys_evictOldest (backendName : String) :
    (Service.evictOldest backendName).Obeys Duty.Asks (fun d _ => d = .free) .looking := by
  refine ⟨_, .look, fun p => ?_⟩
  cases p with
  | none => rfl
  | some p =>
      refine (obeys_writeBatch .pass backendName p).bind fun d result hd => ?_
      subst hd
      cases result with
      | error e => exact ⟨_, .fail, fun _ => rfl⟩
      | ok a => exact ⟨_, .drop p, fun _ => rfl⟩

theorem Service.obeys_setOut : Service.setOut.Obeys Duty.Asks Duty.Ends .fresh :=
  ⟨_, .begin, fun _ => .again⟩

theorem Service.obeys_runTask (backendName : String) (task : Task) :
    (Service.runTask backendName task).Obeys Duty.Asks (fun d _ => d = .free)
      (.ofEvent (.task task)) := by
  cases task with
  | evict =>
      refine ⟨_, .clear, fun _ => ?_⟩
      exact (obeys_evictOldest backendName).bind fun d a hd => hd
  | evictFor ticket =>
      refine (obeys_evictOldest backendName).bind fun d a hd => ?_
      subst hd
      exact ⟨_, .reply _ _, fun _ => rfl⟩
  | mark ticket => exact ⟨_, .reply _ _, fun _ => rfl⟩

/-- A round of the worker does its duty. -/
theorem Service.obeys_work (backendName : String) :
    (Service.work backendName).Obeys Duty.Asks Duty.Ends .free := by
  refine ⟨_, .next, fun e => ?_⟩
  cases e with
  | task t =>
      refine (obeys_runTask backendName t).bind fun d a hd => ?_
      subst hd
      exact .again
  | tick =>
      refine ⟨_, .check, fun full => ?_⟩
      cases full with
      | true =>
          refine (obeys_evictOldest backendName).bind fun d a hd => ?_
          subst hd
          exact .again
      | false => exact .again
  | stop => exact ⟨_, .finish, fun _ => .ended⟩

/-! ## Shutdowns -/

/-- What a shutdown is about. -/
inductive Closing where
  /-- The cache is to be closed. -/
  | arriving
  /-- The cache was closed before. -/
  | late
  | detaching
  | joining
  /-- The worker has stopped, and what is left is to be flushed. -/
  | looking
  | passing (st : Stage)
  /-- Everything is written, by a pass unless there was nothing to write, and the cache is to
  be emptied. -/
  | emptying (p : Option Pass)
  | succeeded
  | failed

namespace Closing

def stage : Closing → Stage
  | passing st => st
  | emptying (some p) => .dropping p
  | _ => .resting

def ofLook : Option Pass → Closing
  | none => emptying none
  | some p => passing (.saving p)

inductive Asks : Closing → (q : Request) → (Reply q → Closing) → Prop where
  | close : Asks arriving .close fun closed => if closed then late else detaching
  | detach : Asks detaching .detach fun attached => if attached then joining else looking
  | join : Asks joining .join fun _ => looking
  | look : Asks looking .beginFlush ofLook
  | pass {k : Closing} {q : Request} {state : Reply q → Closing}
      (h : PassAsks passing (fun p => emptying (some p)) failed k q state) : Asks k q state
  | empty (p : Option Pass) : Asks (emptying p) .empty fun _ => succeeded

inductive Ends : Closing → Except Failure Unit → Prop where
  | late : Ends late (.ok ())
  | succeeded : Ends succeeded (.ok ())
  | failed (e : Failure) : Ends failed (.error e)

end Closing

theorem Service.obeys_flushAll (backendName : String) :
    (Service.flushAll backendName).Obeys Closing.Asks
      (fun k result => match result with
        | .ok _ => ∃ p, k = .emptying p
        | .error _ => k = .failed)
      .looking := by
  refine ⟨_, .look, fun p => ?_⟩
  cases p with
  | none => exact ⟨none, rfl⟩
  | some p =>
      refine (obeys_writeBatch .pass backendName p).bind fun k result hk => ?_
      subst hk
      cases result with
      | error e => rfl
      | ok a => exact ⟨some p, rfl⟩

theorem Service.obeys_flushOut (backendName : String) :
    (Service.flushOut backendName).Obeys Closing.Asks Closing.Ends .looking := by
  refine (obeys_flushAll backendName).bind fun k result hk => ?_
  cases result with
  | error e =>
      subst hk
      exact .failed _
  | ok n =>
      obtain ⟨p, rfl⟩ := hk
      exact ⟨_, .empty p, fun _ => .succeeded⟩

/-- A shutdown goes through its closing. -/
theorem Service.obeys_shutdown (backendName : String) :
    (Service.shutdown backendName).Obeys Closing.Asks Closing.Ends .arriving := by
  refine ⟨_, .close, fun closed => ?_⟩
  cases closed with
  | true => exact .late
  | false =>
      refine ⟨_, .detach, fun attached => ?_⟩
      cases attached with
      | true => exact ⟨_, .join, fun _ => obeys_flushOut backendName⟩
      | false => exact obeys_flushOut backendName

/-! ## Other callers -/

/-- What callers ask outside of passes that do not shut the cache down. -/
def Request.isErrand : Request → Bool
  | .noteRequest | .queueRequest | .withdrawRequest | .isClosed | .isAttached | .newTicket
  | .submit _ | .await _ | .failEviction => true
  | _ => false

namespace Stage

def ofLook : Option Pass → Stage
  | none => resting
  | some p => saving p

/-- What a caller asks that does not shut the cache down.  A pass may drop what it wrote. -/
inductive Asks : Stage → (q : Request) → (Reply q → Stage) → Prop where
  | aside {q : Request} (hq : q.isErrand = true) : Asks resting q fun _ => resting
  | evict : Asks resting .beginEviction ofLook
  | flush : Asks resting .beginFlush ofLook
  | pass {after : Pass → Stage} (hafter : after = dropping ∨ after = fun _ => resting)
      {st : Stage} {q : Request} {state : Reply q → Stage}
      (h : PassAsks id after resting st q state) : Asks st q state
  | drop (p : Pass) : Asks (dropping p) (.dropWritten p.candidates) fun _ => resting

end Stage

namespace Errand

theorem obeys_evictOldest (backendName : String) :
    (Service.evictOldest backendName).Obeys Stage.Asks (fun st _ => st = .resting) .resting := by
  refine ⟨_, .evict, fun p => ?_⟩
  cases p with
  | none => rfl
  | some p =>
      have hwrite : (Service.writeBatch backendName p).Obeys Stage.Asks
          (fun st result => st = passEnd .dropping .resting p result) (id (.saving p)) :=
        obeys_writeBatch (.pass (.inl rfl)) backendName p
      refine hwrite.bind fun st result hst => ?_
      subst hst
      cases result with
      | error e => exact ⟨_, .aside rfl, fun _ => rfl⟩
      | ok a => exact ⟨_, .drop p, fun _ => rfl⟩

theorem obeys_flushAll (backendName : String) :
    (Service.flushAll backendName).Obeys Stage.Asks (fun st _ => st = .resting) .resting := by
  refine ⟨_, .flush, fun p => ?_⟩
  cases p with
  | none => rfl
  | some p =>
      have hwrite : (Service.writeBatch backendName p).Obeys Stage.Asks
          (fun st result => st = passEnd (fun _ => .resting) .resting p result)
          (id (.saving p)) :=
        obeys_writeBatch (.pass (.inr rfl)) backendName p
      refine hwrite.bind fun st result hst => ?_
      subst hst
      cases result <;> rfl

/-- The programs of callers obey the routine of callers, but for a shutdown. -/
theorem obeys_program (backendName : String) {errand : Errand} (h : errand ≠ .shutdown) :
    (errand.program backendName).Obeys Stage.Asks (fun st _ => st = .resting) .resting := by
  cases errand with
  | writeAll =>
      refine ⟨_, .aside rfl, fun closed => ?_⟩
      cases closed with
      | true => rfl
      | false => exact obeys_flushAll backendName
  | evict =>
      refine ⟨_, .aside rfl, fun closed => ?_⟩
      cases closed with
      | true => rfl
      | false =>
          refine ⟨_, .aside rfl, fun attached => ?_⟩
          cases attached with
          | false => exact obeys_evictOldest backendName
          | true =>
              refine ⟨_, .aside rfl, fun ticket => ⟨_, .aside rfl, fun accepted => ?_⟩⟩
              cases accepted with
              | true => exact ⟨_, .aside rfl, fun _ => rfl⟩
              | false => rfl
  | waitForEvictions =>
      refine ⟨_, .aside rfl, fun attached => ?_⟩
      cases attached with
      | false => rfl
      | true =>
          refine ⟨_, .aside rfl, fun ticket => ⟨_, .aside rfl, fun accepted => ?_⟩⟩
          cases accepted with
          | true => exact ⟨_, .aside rfl, fun _ => rfl⟩
          | false => rfl
  | requestPass =>
      refine ⟨_, .aside rfl, fun noted => ?_⟩
      cases noted with
      | true => rfl
      | false =>
          refine ⟨_, .aside rfl, fun queued => ?_⟩
          cases queued with
          | true => rfl
          | false => exact ⟨_, .aside rfl, fun _ => rfl⟩
  | shutdown => exact absurd rfl h

end Errand

end Cache

end RecordStore
