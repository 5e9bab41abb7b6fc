import RecordStore.Cache.Service
import RecordStore.Proofs.Cache.Backend
import RecordStore.Proofs.Cache.Contents
import RecordStore.Proofs.Runs

/-!
# A cache with jobs

A running cache is taken together with what its backend stores and the programs that are being
run on the cache (`WithJobs`).  Programs take turns at their requests: any program may go on
at any time, and between two of its requests anything else may happen.

The events are listed by `Event`.

* The cache is offered a record, or is told to delete an entry or to clear a kind.  The request
  for a pass that may follow an admission is a program of its own.
* The owner of the cache makes a call of its own on the backend.
* A program begins.  The programs that may begin are given by the `JobSystem`.
* A program goes on with a request that is not for the backend.
* The backend deals with a call that a program waits for.

An event that cannot happen does nothing, so every list of events is a run.  What a
program began last is written down beside it, and all calls that the backend carried out
are written down too.  Nothing that happens depends on these notes.

What a request about the worker or the replies does has nothing to do with the cache
(`Running.reply?_withCache`).
-/

namespace RecordStore

namespace Cache

open Service (Prog)

/-! ## Caches with jobs -/

/-- A program that is being run, or has ended. -/
structure Process where
  program : Prog Unit
  /-- The number of the batch it began last. -/
  batch : Option Nat := none

def Process.hasEnded (p : Process) : Bool :=
  match p.program with
  | .done _ => true
  | .ask _ _ => false

def Process.waitsForBackend (p : Process) : Bool :=
  match p.program with
  | .ask (.backend _) _ => true
  | _ => false

/-- A cache with what its backend stores and its jobs. -/
structure WithJobs where
  running : Running
  stored : Records
  /-- The programs, in the order in which they began. -/
  processes : List Process := []
  /-- The calls carried out by the backend, the latest first.  A call of a program has the
  number of the batch that the program began last. -/
  calls : List (Option Nat × Call) := []

/-- What can happen to a cache with jobs. -/
inductive Event (κ : Type) where
  | offer (key : Key) (record : Record)
  | delete (id : EntryId)
  | clear (kind : Kind)
  /-- The backend carries out a call of the owner of the cache. -/
  | own (call : Call)
  | begin (job : κ)
  | advance (n now : Nat)
  /-- The backend deals with the call that a program waits for. -/
  | answer (n : Nat) (verdict : Verdict)

/-- What a cache with jobs is made from. -/
structure JobSystem (κ : Type) where
  config : Config
  initial : Records
  program : κ → Prog Unit
  /-- The calls of programs that the backend always carries out. -/
  steady : Call → Bool

variable {κ : Type}

/-- A cache to which nothing has happened. -/
def JobSystem.start (g : JobSystem κ) : WithJobs where
  running := .ofConfig g.config
  stored := g.initial

namespace WithJobs

variable {s : WithJobs}

/-- What is written down beside a program after a reply. -/
def noted (batch : Option Nat) : (q : Request) → Reply q → Option Nat
  | .beginEviction, some p | .beginFlush, some p => some p.batch
  | _, _ => batch

/-- The backend carries out a call. -/
def carryOut (s : WithJobs) (batch : Option Nat) (call : Call) : WithJobs :=
  { s with stored := s.stored.apply call, calls := (batch, call) :: s.calls }

/-- A program goes on, unless it waits for the backend. -/
def advance (s : WithJobs) (n now : Nat) : WithJobs :=
  match s.processes[n]? with
  | some ⟨.ask q next, batch⟩ =>
      match s.running.reply? n now q with
      | (some a, running) =>
          { s with running, processes := s.processes.set n ⟨next a, noted batch q a⟩ }
      | (none, running) => { s with running }
  | _ => s

/-- The backend deals with a call, and the program goes on. -/
def answer (s : WithJobs) (n : Nat) (verdict : Verdict) : WithJobs :=
  match s.processes[n]? with
  | some ⟨.ask (.backend call) next, batch⟩ =>
      let s := { s with processes := s.processes.set n ⟨next (verdict.outcome call), batch⟩ }
      match verdict.carriedOut call with
      | some call => s.carryOut batch call
      | none => s
  | _ => s

def pending? (s : WithJobs) (n : Nat) : Option Call :=
  match s.processes[n]? with
  | some ⟨.ask (.backend call) _, _⟩ => some call
  | _ => none

def isIdle (s : WithJobs) : Bool := s.processes.all Process.hasEnded

/-- Whether no batch is being written and no program waits for the backend. -/
def isQuiet (s : WithJobs) : Bool :=
  s.running.cache.contents.batches.isEmpty && s.processes.all fun p => !p.waitsForBackend

/-- The record that is cached under an address. -/
def cached (s : WithJobs) (id : EntryId) : Option Record :=
  s.running.cache.contents.slots.recordAt? id

/-- A record is kept under an address: by the cache, or else by the backend. -/
def Holds (s : WithJobs) (id : EntryId) (r : Record) : Prop :=
  s.cached id = some r ∨ s.cached id = none ∧ s.stored id = some r

instance (s : WithJobs) (id : EntryId) (r : Record) : Decidable (s.Holds id r) :=
  inferInstanceAs (Decidable (_ ∨ _ ∧ _))

end WithJobs

namespace JobSystem

variable (g : JobSystem κ)

/-- What becomes of a call that a program waits for. -/
def settle (s : WithJobs) (n : Nat) (verdict : Verdict) : Verdict :=
  if (s.pending? n).any g.steady then .done else verdict

def step (s : WithJobs) : Event κ → WithJobs
  | .offer key record => { s with running := (s.running.receive key record).2 }
  | .delete id => { s with running := (s.running.perform (.delete id.kind id.key)).2 }
  | .clear kind => { s with running := (s.running.perform (.clear kind)).2 }
  | .own call => s.carryOut none call
  | .begin job => { s with processes := s.processes ++ [{ program := g.program job }] }
  | .advance n now => s.advance n now
  | .answer n verdict => s.answer n (g.settle s n verdict)

end JobSystem

/-! ## Calls on several entries -/

/-- Saving several entries is offering them one after the other. -/
theorem JobSystem.run_offers (g : JobSystem κ) (entries : List Entry) (s : WithJobs) :
    run g.step s (entries.map fun e => .offer e.1 e.2)
      = { s with running := (s.running.perform (.saveBatch entries)).2 } := by
  induction entries generalizing s with
  | nil => rfl
  | cons e entries ih =>
      rw [List.map_cons, run_cons, ih]
      rfl

/-- Deleting several entries is deleting them one after the other. -/
theorem JobSystem.run_deletes (g : JobSystem κ) (ids : List EntryId) (s : WithJobs) :
    run g.step s (ids.map .delete)
      = { s with running := (s.running.perform (.deleteBatch ids)).2 } := by
  induction ids generalizing s with
  | nil => rfl
  | cons id ids ih =>
      rw [List.map_cons, run_cons, ih]
      rfl

/-! ## The cache and the requests about it -/

namespace Running

variable (r : Running)

/-- Whether a request is one about the worker or the replies, and not about the cache. -/
def isAboutWork : Request → Bool
  | .noteRequest | .queueRequest | .withdrawRequest | .clearRequested | .isAttached | .detach
  | .join | .newTicket | .submit _ | .await _ | .answer _ _ | .beginWork | .nextEvent
  | .finishWork => true
  | _ => false

theorem queueRequest_withCache (cache : Cache) :
    ({ r with cache } : Running).queueRequest
      = (r.queueRequest.1, { r.queueRequest.2 with cache }) := by
  obtain ⟨c, retry, capacity, worker, attached, requested, next, replies⟩ := r
  cases attached with
  | false => rfl
  | true =>
      cases worker with
      | none => rfl
      | some w =>
          simp only [queueRequest, Option.map_some, if_true]
          rcases w.trySubmit .evict with ⟨⟨⟩ | ⟨⟩, w'⟩ <;> rfl

/-- What is about the worker does not depend on the cache. -/
theorem reply?_withCache (cache : Cache) (caller now : Nat) {q : Request}
    (hq : isAboutWork q = true) : ({ r with cache } : Running).reply? caller now q
      = ((r.reply? caller now q).1, { (r.reply? caller now q).2 with cache }) := by
  obtain ⟨c, retry, capacity, worker, attached, requested, next, replies⟩ := r
  cases q with
  | join =>
      cases worker with
      | none => rfl
      | some w =>
          simp only [reply?]
          cases w.hasEnded <;> rfl
  | submit task =>
      cases worker with
      | none => rfl
      | some w =>
          simp only [reply?, submit?]
          rcases w.submit caller task with ⟨⟨⟩ | ⟨⟨⟩ | ⟨⟩⟩, w'⟩ <;> rfl
  | await ticket =>
      simp only [reply?, await?]
      cases replies.find? fun p => p.1 == ticket with
      | some p => rfl
      | none =>
          cases worker with
          | none => rfl
          | some w =>
              simp only
              cases isLive w ticket <;> rfl
  | beginWork => cases worker <;> rfl
  | nextEvent =>
      cases worker with
      | none => rfl
      | some w =>
          simp only [reply?]
          cases w.hasEnded with
          | true => rfl
          | false =>
              rcases w.next now with ⟨⟨⟩ | ⟨e⟩, w'⟩ <;> rfl
  | queueRequest =>
      have hqueue := queueRequest_withCache
        ⟨c, retry, capacity, worker, attached, requested, next, replies⟩ cache
      simp only [reply?, hqueue]
  | noteRequest | withdrawRequest | clearRequested | isAttached | detach | newTicket | answer
  | finishWork => rfl
  | _ => cases hq

theorem cache_of_isAboutWork (caller now : Nat) {q : Request}
    (hq : isAboutWork q = true) : (r.reply? caller now q).2.cache = r.cache :=
  congrArg (fun reply => reply.2.cache) (r.reply?_withCache r.cache caller now hq)

theorem requestPass_withCache (cache : Cache) :
    ({ r with cache } : Running).requestPass = { r.requestPass with cache } := by
  obtain ⟨c, retry, capacity, worker, attached, requested, next, replies⟩ := r
  cases requested with
  | true => rfl
  | false =>
      have hwith := queueRequest_withCache
        ⟨c, retry, capacity, worker, attached, true, next, replies⟩ cache
      cases hqueue : queueRequest ⟨c, retry, capacity, worker, attached, true, next, replies⟩ with
      | mk queued r =>
          rw [hqueue] at hwith
          simp only [requestPass, noteRequest, Bool.false_eq_true, if_false, hwith, hqueue]
          cases queued <;> rfl

@[simp] theorem cache_requestPass : r.requestPass.cache = r.cache :=
  congrArg (fun requested => requested.cache) (r.requestPass_withCache r.cache)

theorem start_withCache (cache : Cache) (hclosed : cache.closed = r.cache.closed) :
    ({ r with cache } : Running).start = (r.start.1, { r.start.2 with cache }) := by
  simp only [start, hclosed]
  split
  · rfl
  · split <;> rfl

theorem cache_start : r.start.2.cache = r.cache :=
  congrArg (fun started => started.2.cache) (r.start_withCache r.cache rfl)

theorem submit?_of_none (hw : r.worker = none) (caller : Nat) (task : Task) :
    r.submit? caller task = (some false, r) := by
  simp only [submit?, hw]

/-- A task is handed over to the worker, and whether it is accepted is for the worker to say. -/
theorem submit?_of_worker {w : Worker Task} (hw : r.worker = some w) (caller : Nat) (task : Task) :
    r.submit? caller task = ((w.submit caller task).1.map Except.toBool,
      { r with worker := some (w.submit caller task).2 }) := by
  simp only [submit?, hw]
  rcases w.submit caller task with ⟨_ | _ | _, _⟩ <;> rfl

/-- The worker takes up a request for a pass into its queue, or nothing happens. -/
theorem queueRequest_cases : r.queueRequest = (false, r) ∨ ∃ w, r.worker = some w ∧
    w.hasEnded = false ∧ r.queueRequest
      = (true, { r with worker := some { w with queue := w.queue ++ [.evict] } }) := by
  simp only [queueRequest]
  split
  · split
    next w' hsubmit =>
      obtain ⟨w, hw, hsubmit⟩ := Option.map_eq_some_iff.1 hsubmit
      simp only [Worker.trySubmit] at hsubmit
      split at hsubmit
      · cases hsubmit
      next hruns =>
        split at hsubmit
        · cases hsubmit
          exact Or.inr ⟨w, hw, Bool.eq_false_iff.2 hruns, rfl⟩
        · cases hsubmit
    next => exact Or.inl rfl
  · exact Or.inl rfl

/-- Who asks for a reply takes it away, or changes nothing. -/
theorem snd_await?_cases (ticket : Nat) :
    (r.await? ticket).2 = { r with replies := r.replies.filter fun p => p.1 != ticket } ∨
      (r.await? ticket).2 = r := by
  simp only [await?]
  split
  · exact Or.inl rfl
  · split
    · split <;> exact Or.inr rfl
    · exact Or.inr rfl

/-- An offer to a running cache is one to the cache. -/
theorem offer_eq (key : Key) (record : Record) :
    (r.offer key record).1 = (r.cache.offer key record).1 ∧
      (r.offer key record).2.cache = (r.cache.offer key record).2 := by
  refine ⟨rfl, ?_⟩
  show (if _ then _ else _ : Running).cache = _
  split
  · exact cache_requestPass _
  · rfl

theorem offer_cases (c : Cache) (key : Key) (record : Record) :
    c.accepts record = true ∧ c.offer key record = (true, { c with
      contents := c.contents.put key record, counters := c.counters.addAdmission }) ∨
    c.accepts record = false ∧
      c.offer key record = (false, { c with counters := c.counters.addRejection }) := by
  simp only [Cache.offer]
  cases h : c.accepts record with
  | true => exact Or.inl ⟨rfl, if_pos rfl⟩
  | false => exact Or.inr ⟨rfl, if_neg (by simp)⟩

end Running

end Cache

end RecordStore
