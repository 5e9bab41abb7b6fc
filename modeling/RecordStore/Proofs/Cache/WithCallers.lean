import RecordStore.Proofs.Cache.Passes
import RecordStore.Proofs.Schedules

/-!
# A cache with its worker and its callers

A running cache is taken together with everybody who runs a program on it: its one worker, and
callers that come with an errand (`WithCallers`).  The worker begins, and then does one round after
the other.  A caller has every entry written, has a pass run, waits for the worker, or shuts the
cache down.  Whoever offers a record that is admitted and leaves the cache full stays as a caller,
and requests a pass.

The events are listed by `WithCallers.Event`.  Between two requests of a program anything else may
happen, as where a cache has jobs (`WithJobs`).  The worker may take up any event that is ready, not
only the first.  An event that cannot happen does nothing, so every list of events is a run.

Three notes are kept that nothing depends on: which caller closed the cache, the calls that
programs handed to the backend, and for each address the record that was admitted last and
not removed since.
-/

namespace RecordStore

/-- What a backend stores after a call, of which it may have carried out a part or nothing. -/
def Verdict.carryOut (verdict : Verdict) (t : Records) (call : Call) : Records :=
  (verdict.carriedOut call).elim t t.apply

namespace Cache

open Service (Prog)

/-! ## Errands -/

/-- What a caller has done that takes more than one step. -/
inductive Errand where
  | writeAll
  | evict
  | waitForEvictions
  /-- What is left of an admission that leaves the cache full. -/
  | requestPass
  | shutdown
  deriving DecidableEq

namespace Errand

abbrev Answer : Errand → Type
  | writeAll | evict => Except Error Nat
  | waitForEvictions | requestPass => Unit
  | shutdown => Except Failure Unit

def program (backendName : String) : (errand : Errand) → Prog errand.Answer
  | writeAll => Service.writeAll backendName
  | evict => Service.evict backendName
  | waitForEvictions => Service.waitForEvictions
  | requestPass => Service.requestPass
  | shutdown => Service.shutdown backendName

end Errand

/-- The program of a worker before its first round. -/
def Service.setOut : Prog Bool := do
  Service.ask .beginWork
  return true

/-! ## Caches with callers -/

/-- Those who run programs on a cache. -/
inductive Party where
  | worker
  | caller (n : Nat)
  deriving DecidableEq

structure Caller where
  errand : Errand
  program : Prog errand.Answer

/-- A cache with its worker and its callers. -/
structure WithCallers where
  running : Running
  stored : Records
  /-- The rest of the worker's round.  It answers whether there is another. -/
  worker : Prog Bool
  /-- The callers, in the order in which they came. -/
  callers : List Caller := []
  /-- The caller that closed the cache. -/
  closer : Option Nat := none
  /-- The calls that programs handed to the backend, the latest first. -/
  handed : List (Party × Call) := []
  /-- The record admitted last under an address, if it was not removed since. -/
  admitted : Records := fun _ => none

namespace WithCallers

/-- What can happen to a cache with callers. -/
inductive Event where
  | offer (key : Key) (record : Record)
  /-- A call that is answered at once, but for those that admit or delete several entries. -/
  | call (call : Call)
  /-- The backend carries out a call of the owner of the cache. -/
  | own (call : Call)
  | begin (errand : Errand)
  /-- A program goes on with a request that is not for the backend. -/
  | go (party : Party) (now : Nat)
  /-- The worker takes up an event that is ready. -/
  | take (e : Worker.Event Task) (now : Nat)
  /-- The backend deals with the call that a program waits for. -/
  | answer (party : Party) (verdict : Verdict)

/-- What a cache with callers is made from. -/
structure CallerSystem where
  config : Config
  initial : Records
  backendName : String

/-- A cache to which nothing has happened, and nobody has come. -/
def CallerSystem.start (g : CallerSystem) : WithCallers where
  running := .ofConfig g.config
  stored := g.initial
  worker := Service.setOut

/-- A cache meant for one entry, before a backend that is empty at first. -/
def CallerSystem.single : CallerSystem where
  config := { byteBudget := 0 }
  initial _ := none
  backendName := "memory"

/-- What a program asks next. -/
def request? {α : Type} : Prog α → Option Request
  | .ask q _ => some q
  | .done _ => none

/-- What a party asks next. -/
def asks? (s : WithCallers) : Party → Option Request
  | .worker => request? s.worker
  | .caller n => s.callers[n]?.bind fun c => request? c.program

/-- The call that a program waits for. -/
def pending? {α : Type} : Prog α → Option Call
  | .ask (.backend call) _ => some call
  | _ => none

theorem pending?_eq_some {α : Type} {program : Prog α} {call : Call}
    (h : pending? program = some call) : ∃ next, program = .ask (.backend call) next := by
  cases program with
  | done a => cases h
  | ask q next =>
      cases q with
      | backend c =>
          cases h
          exact ⟨next, rfl⟩
      | _ => cases h

theorem pending?_eq_none {α : Type} {program : Prog α}
    (h : ∀ call next, program ≠ .ask (.backend call) next) : pending? program = none := by
  cases program with
  | done a => rfl
  | ask q next =>
      cases q with
      | backend call => exact absurd rfl (h call next)
      | _ => rfl

/-- The call on the backend that a party waits for. -/
def waitsFor? (s : WithCallers) : Party → Option Call
  | .worker => pending? s.worker
  | .caller n => s.callers[n]?.bind fun c => pending? c.program

/-- The record that is cached under an address. -/
def cached (s : WithCallers) (id : EntryId) : Option Record :=
  s.running.cache.contents.slots.recordAt? id

/-- Whether an event has a record admitted under an address. -/
def admits (s : WithCallers) (id : EntryId) : Event → Bool
  | .offer key record => record.idAt key == id && (s.running.receive key record).1.1
  | _ => false

/-- The calls handed over, after a party has got to a point of its program. -/
def handOver {α : Type} (s : WithCallers) (party : Party) (program : Prog α) :
    List (Party × Call) :=
  (pending? program).toList.map (party, ·) ++ s.handed

/-- Whether a call is answered at once, admits nothing, and removes one entry or kind at most. -/
def isPlain : Call → Bool
  | .save _ _ | .saveBatch _ | .update _ _ _ | .deleteBatch _ | .shutdown => false
  | _ => true

/-- What is noted of a closing after a reply to a caller. -/
def notedCloser (n : Nat) (closer : Option Nat) : (q : Request) → Reply q → Option Nat
  | .close, false => some n
  | _, _ => closer

/-- The caller that stays to request a pass when a record was offered, if there is one. -/
def requester (s : WithCallers) (key : Key) (record : Record) : List Caller :=
  if (s.running.receive key record).1.2 then [⟨.requestPass, Service.requestPass⟩] else []

theorem eq_of_mem_requester (s : WithCallers) {key : Key} {record : Record} {c : Caller}
    (h : c ∈ s.requester key record) : c = ⟨.requestPass, Service.requestPass⟩ := by
  simp only [requester] at h
  split at h
  · exact List.mem_singleton.1 h
  · cases h

/-- A record is offered to the cache. -/
def offer (s : WithCallers) (key : Key) (record : Record) : WithCallers where
  __ := s
  running := (s.running.receive key record).2
  callers := s.callers ++ s.requester key record
  admitted := if (s.running.receive key record).1.1 then s.admitted.put (key, record)
    else s.admitted

/-- The cache answers a call. -/
def call (s : WithCallers) (call : Call) : WithCallers where
  __ := s
  running := (s.running.perform call).2
  admitted := fun id => if call.removes id then none else s.admitted id

/-- The worker gets on, unless it waits for the backend. -/
def goWorker (g : CallerSystem) (s : WithCallers) (now : Nat) : WithCallers :=
  match s.worker with
  | .done true => { s with worker := Service.work g.backendName }
  | .done false => s
  | .ask q next =>
      match s.running.reply? 0 now q with
      | (some a, running) =>
          { s with running, worker := next a, handed := s.handOver .worker (next a) }
      | (none, running) => { s with running }

/-- A caller gets on, unless it waits for the backend. -/
def goCaller (s : WithCallers) (n now : Nat) : WithCallers :=
  match s.callers[n]? with
  | some ⟨errand, .ask q next⟩ =>
      match s.running.reply? (n + 1) now q with
      | (some a, running) =>
          { s with
            running
            callers := s.callers.set n ⟨errand, next a⟩
            closer := notedCloser n s.closer q a
            handed := s.handOver (.caller n) (next a) }
      | (none, running) => { s with running }
  | _ => s

/-- The worker takes up an event, if it waits for one and the event is ready. -/
def take (s : WithCallers) (e : Worker.Event Task) (now : Nat) : WithCallers :=
  match s.worker, s.running.worker with
  | .ask .nextEvent next, some w =>
      if !w.hasEnded && (w.ready now).contains e then
        { s with
          running := { s.running with worker := some (w.take now e) }
          worker := next e
          handed := s.handOver .worker (next e) }
      else s
  | _, _ => s

/-- The backend deals with a call of the worker. -/
def answerWorker (s : WithCallers) (verdict : Verdict) : WithCallers :=
  match s.worker with
  | .ask (.backend call) next =>
      { s with
        stored := verdict.carryOut s.stored call
        worker := next (verdict.outcome call)
        handed := s.handOver .worker (next (verdict.outcome call)) }
  | _ => s

/-- The backend deals with a call of a caller. -/
def answerCaller (s : WithCallers) (n : Nat) (verdict : Verdict) : WithCallers :=
  match s.callers[n]? with
  | some ⟨errand, .ask (.backend call) next⟩ =>
      { s with
        stored := verdict.carryOut s.stored call
        callers := s.callers.set n ⟨errand, next (verdict.outcome call)⟩
        handed := s.handOver (.caller n) (next (verdict.outcome call)) }
  | _ => s

namespace CallerSystem

variable (g : CallerSystem)

def step (s : WithCallers) : Event → WithCallers
  | .offer key record => s.offer key record
  | .call call => if isPlain call then s.call call else s
  | .own call => { s with stored := s.stored.apply call }
  | .begin errand => { s with callers := s.callers ++ [⟨errand, errand.program g.backendName⟩] }
  | .go .worker now => goWorker g s now
  | .go (.caller n) now => s.goCaller n now
  | .take e now => s.take e now
  | .answer .worker verdict => s.answerWorker verdict
  | .answer (.caller n) verdict => s.answerCaller n verdict

/-- Saving several entries is offering them one after the other. -/
theorem running_offers (entries : List Entry) (s : WithCallers) :
    (run g.step s (entries.map fun e => .offer e.1 e.2)).running
      = (s.running.perform (.saveBatch entries)).2 := by
  induction entries generalizing s with
  | nil => rfl
  | cons e entries ih =>
      rw [List.map_cons, run_cons, ih]
      rfl

/-- Deleting several entries is deleting them one after the other. -/
theorem running_deletes (ids : List EntryId) (s : WithCallers) :
    (run g.step s (ids.map fun id => .call (.delete id.kind id.key))).running
      = (s.running.perform (.deleteBatch ids)).2 := by
  induction ids generalizing s with
  | nil => rfl
  | cons id ids ih =>
      rw [List.map_cons, run_cons, ih]
      rfl

end CallerSystem

/-! ## What an event does to the callers -/

/-- What an event does to the callers, to the note of the closing, and to the backend. -/
inductive Touches (g : CallerSystem) (s s' : WithCallers) : Event → Prop where
  /-- It does nothing to them. -/
  | aside {e : Event} (hcallers : s'.callers = s.callers) (hcloser : s'.closer = s.closer)
      (hstored : s'.stored = s.stored) : Touches g s s' e
  | own (call : Call) (hcallers : s'.callers = s.callers) (hcloser : s'.closer = s.closer) :
      Touches g s s' (.own call)
  | offer {key : Key} {record : Record}
      (hcallers : s'.callers = s.callers ++ s.requester key record)
      (hcloser : s'.closer = s.closer) (hstored : s'.stored = s.stored) :
      Touches g s s' (.offer key record)
  | begin (errand : Errand)
      (hcallers : s'.callers = s.callers ++ [⟨errand, errand.program g.backendName⟩])
      (hcloser : s'.closer = s.closer) (hstored : s'.stored = s.stored) :
      Touches g s s' (.begin errand)
  | go {n now : Nat} {errand : Errand} {q : Request} {next : Reply q → Prog errand.Answer}
      {a : Reply q} {running : Running} (hc : s.callers[n]? = some ⟨errand, .ask q next⟩)
      (hr : s.running.reply? (n + 1) now q = (some a, running))
      (hcallers : s'.callers = s.callers.set n ⟨errand, next a⟩)
      (hcloser : s'.closer = notedCloser n s.closer q a) (hstored : s'.stored = s.stored) :
      Touches g s s' (.go (.caller n) now)
  | answerWorker {call : Call} {next : Reply (.backend call) → Prog Bool} (verdict : Verdict)
      (hw : s.worker = .ask (.backend call) next) (hcallers : s'.callers = s.callers)
      (hcloser : s'.closer = s.closer) : Touches g s s' (.answer .worker verdict)
  | answerCaller {n : Nat} {errand : Errand} {call : Call}
      {next : Reply (.backend call) → Prog errand.Answer} (verdict : Verdict)
      (hc : s.callers[n]? = some ⟨errand, .ask (.backend call) next⟩)
      (hcallers : s'.callers = s.callers.set n ⟨errand, next (verdict.outcome call)⟩)
      (hcloser : s'.closer = s.closer) : Touches g s s' (.answer (.caller n) verdict)

theorem touches_step (g : CallerSystem) (s : WithCallers) (e : Event) :
    Touches g s (g.step s e) e := by
  cases e with
  | offer key record => exact .offer rfl rfl rfl
  | call call =>
      simp only [CallerSystem.step]
      split <;> exact .aside rfl rfl rfl
  | own call => exact .own call rfl rfl
  | begin errand => exact .begin errand rfl rfl rfl
  | take e now =>
      simp only [CallerSystem.step, WithCallers.take]
      split
      · split <;> exact .aside rfl rfl rfl
      · exact .aside rfl rfl rfl
  | go party now =>
      cases party with
      | worker =>
          simp only [CallerSystem.step, WithCallers.goWorker]
          split
          · exact .aside rfl rfl rfl
          · exact .aside rfl rfl rfl
          · split <;> exact .aside rfl rfl rfl
      | caller n =>
          simp only [CallerSystem.step, WithCallers.goCaller]
          split
          next errand q next hc =>
            split
            next a running hr => exact .go hc hr rfl rfl rfl
            next => exact .aside rfl rfl rfl
          next => exact .aside rfl rfl rfl
  | answer party verdict =>
      cases party with
      | worker =>
          simp only [CallerSystem.step, WithCallers.answerWorker]
          split
          next call next hw => exact .answerWorker verdict hw rfl rfl
          next => exact .aside rfl rfl rfl
      | caller n =>
          simp only [CallerSystem.step, WithCallers.answerCaller]
          split
          next errand call next hc => exact .answerCaller verdict hc rfl rfl
          next => exact .aside rfl rfl rfl

/-- Where a caller comes from that is there after an event. -/
inductive Stems (g : CallerSystem) (s s' : WithCallers) (n : Nat) : Event → Caller → Prop where
  /-- It was there, and did not go on. -/
  | old {e : Event} {c : Caller} (hc : s.callers[n]? = some c) : Stems g s s' n e c
  | requester {key : Key} {record : Record} :
      Stems g s s' n (.offer key record) ⟨.requestPass, Service.requestPass⟩
  | comes (errand : Errand) :
      Stems g s s' n (.begin errand) ⟨errand, errand.program g.backendName⟩
  | goes {now : Nat} {errand : Errand} {q : Request} {next : Reply q → Prog errand.Answer}
      {a : Reply q} {running : Running} (hc : s.callers[n]? = some ⟨errand, .ask q next⟩)
      (hr : s.running.reply? (n + 1) now q = (some a, running))
      (hcloser : s'.closer = notedCloser n s.closer q a) :
      Stems g s s' n (.go (.caller n) now) ⟨errand, next a⟩
  | answered {errand : Errand} {call : Call} {next : Reply (.backend call) → Prog errand.Answer}
      (verdict : Verdict) (hc : s.callers[n]? = some ⟨errand, .ask (.backend call) next⟩) :
      Stems g s s' n (.answer (.caller n) verdict) ⟨errand, next (verdict.outcome call)⟩

theorem stems_step {g : CallerSystem} {s : WithCallers} {e : Event} {n : Nat} {c : Caller}
    (hc : (g.step s e).callers[n]? = some c) : Stems g s (g.step s e) n e c := by
  have htouches := touches_step g s e
  generalize g.step s e = s' at hc htouches ⊢
  cases htouches with
  | aside hcallers | own call hcallers | answerWorker verdict hw hcallers =>
      exact .old (hcallers ▸ hc)
  | offer hcallers =>
      rw [hcallers, List.getElem?_append] at hc
      split at hc
      · exact .old hc
      · rw [s.eq_of_mem_requester (List.mem_of_getElem? hc)]
        exact .requester
  | begin errand hcallers =>
      rw [hcallers] at hc
      rcases getElem?_concat_cases hc with hc | ⟨-, rfl⟩
      · exact .old hc
      · exact .comes errand
  | go hm hr hcallers hcloser =>
      rw [hcallers] at hc
      rcases getElem?_set_cases hc with ⟨rfl, rfl⟩ | ⟨-, hc⟩
      · exact .goes hm hr hcloser
      · exact .old hc
  | answerCaller verdict hm hcallers =>
      rw [hcallers] at hc
      rcases getElem?_set_cases hc with ⟨rfl, rfl⟩ | ⟨-, hc⟩
      · exact .answered verdict hm
      · exact .old hc

/-- What comes of an event leaves something true of every caller, if it stays true when the caller
goes on. -/
theorem callers_step {g : CallerSystem} {s : WithCallers} {e : Event} {P : Caller → Prop}
    (h : ∀ c ∈ s.callers, P c)
    (hnext : ∀ {errand : Errand} {q : Request} {next : Reply q → Prog errand.Answer} (a : Reply q),
      P ⟨errand, .ask q next⟩ → P ⟨errand, next a⟩)
    (hrequester : P ⟨.requestPass, Service.requestPass⟩)
    (hbegin : ∀ errand, e = .begin errand → P ⟨errand, errand.program g.backendName⟩) :
    ∀ c ∈ (g.step s e).callers, P c := by
  intro c hc
  obtain ⟨n, hc⟩ := List.mem_iff_getElem?.1 hc
  cases stems_step hc with
  | old hold => exact h c (List.mem_of_getElem? hold)
  | requester => exact hrequester
  | comes errand => exact hbegin errand rfl
  | goes hold => exact hnext _ (h _ (List.mem_of_getElem? hold))
  | answered verdict hold => exact hnext (q := .backend _) _ (h _ (List.mem_of_getElem? hold))

end WithCallers

end Cache

end RecordStore
