import RecordStore.Proofs.Cache.Dealings
import RecordStore.Proofs.Cache.Marks
import RecordStore.Proofs.WorkerWithCallers

/-!
# Rounds of the worker

The worker does one round after the other, and in each it takes up one event.  What is left of a
round is told by its *course* (`Course.Left`).  What callers have to do with the worker is told by
their dealings (`Errand.Asks`).

What any event of a cache with callers does to the worker, to its queue, to the tickets and to the
requests that callers hold is one of the turns that are listed by `Running.Turn`.  So what stays
true at every turn (`Running.WorkerInvariant.turn`) is true at every time.  In particular the note
that a pass is requested stands for one request just as long as it is there: one that a caller
holds, one in the queue, or one that the worker has taken up.
-/

namespace RecordStore

namespace Cache

open Service (Prog)

/-! ## The course of a round -/

/-- Where the worker is in its rounds. -/
inductive Course where
  /-- The worker has not begun. -/
  | fresh
  /-- The worker is between two rounds. -/
  | paused
  /-- The worker waits for an event. -/
  | waiting
  /-- A requested pass was taken up, and nothing is done about it. -/
  | clearing
  /-- A tick has come. -/
  | checking
  /-- A pass is to begin, for the caller with a ticket if there is one. -/
  | looking (ticket? : Option Nat)
  /-- The pass has begun. -/
  | passing (ticket? : Option Nat)
  /-- An outcome is to be told to the caller with a ticket. -/
  | replying (ticket : Nat)
  | stopping
  | gone

/-- What is left of a round when its pass is over. -/
def Service.conclude : Option Nat → Except Error Nat → Prog Bool
  | none, _ => .done true
  | some ticket, outcome => .ask (.answer ticket outcome) fun _ => .done true

/-- A round with a pass that was requested, when it begins with the pass. -/
def Service.requestedPass (backendName : String) : Prog Bool := do
  let _ ← evictOldest backendName
  return true

namespace Course

def ofEvent : Worker.Event Task → Course
  | .task .evict => clearing
  | .task (.evictFor ticket) => looking (some ticket)
  | .task (.mark ticket) => replying ticket
  | .tick => checking
  | .stop => stopping

/-- Where a pass leads to. -/
def afterPass : Option Nat → Course
  | none => paused
  | some ticket => replying ticket

/-- The ticket under which the worker has its task. -/
def ticket? : Course → Option Nat
  | looking ticket? | passing ticket? => ticket?
  | replying ticket => some ticket
  | _ => none

/-- The requested passes that were taken up, and that nothing is done about. -/
def taken : Course → Nat
  | clearing => 1
  | _ => 0

theorem taken_of_ne {c : Course} (h : c ≠ clearing) : c.taken = 0 := by
  cases c with
  | clearing => exact absurd rfl h
  | _ => rfl

/-- What is left of the worker's round. -/
def Left (name : String) : Course → Prog Bool → Prop
  | fresh, p => p = Service.setOut
  | paused, p => p = .done true
  | waiting, p => p = Service.work name
  | clearing, p => p = .ask .clearRequested fun _ => Service.requestedPass name
  | checking, p => p = .ask .isFull fun full =>
      if full then Service.requestedPass name else .done true
  | looking ticket?, p => p = (Service.evictOldest name).bind (Service.conclude ticket?)
  | passing ticket?, p => ∃ q next, Service.Apart (.ask q next : Prog (Except Error Nat)) ∧
      p = .ask q fun a => (next a).bind (Service.conclude ticket?)
  | replying ticket, p => ∃ outcome, p = .ask (.answer ticket outcome) fun _ => .done true
  | stopping, p => p = .ask .finishWork fun _ => .done false
  | gone, p => p = .done false

/-- A course that leads to another while the worker, its queue and the tickets stay the same. -/
inductive Leads : Course → Course → Prop where
  | again : Leads paused waiting
  | rest : Leads checking paused
  | check : Leads checking (looking none)
  | look (ticket? : Option Nat) : Leads (looking ticket?) (passing ticket?)
  | skip (ticket? : Option Nat) : Leads (looking ticket?) (afterPass ticket?)
  | go (ticket? : Option Nat) : Leads (passing ticket?) (passing ticket?)
  | conclude (ticket? : Option Nat) : Leads (passing ticket?) (afterPass ticket?)

/-- A round that has taken up an event. -/
theorem left_handle (name : String) (e : Worker.Event Task) :
    (ofEvent e).Left name (Service.handle name e) := by
  cases e with
  | task t =>
      cases t with
      | evict =>
          refine congrArg (Program.ask (I := Effects) Request.clearRequested) (funext fun _ => ?_)
          exact Program.bind_assoc (Service.evictOldest name) _ _
      | evictFor ticket => exact Program.bind_assoc (Service.evictOldest name) _ _
      | mark ticket => exact ⟨_, rfl⟩
  | tick =>
      refine congrArg (Program.ask (I := Effects) Request.isFull) (funext fun full => ?_)
      cases full <;> rfl
  | stop => rfl

/-- What is left when a pass has gone on. -/
theorem left_bind (name : String) {p : Prog (Except Error Nat)} (h : Service.Apart p)
    (ticket? : Option Nat) :
    (passing ticket?).Left name (p.bind (Service.conclude ticket?)) ∨
      (afterPass ticket?).Left name (p.bind (Service.conclude ticket?)) := by
  cases p with
  | ask q next => exact Or.inl ⟨q, next, h, rfl⟩
  | done outcome =>
      cases ticket? with
      | none => exact Or.inr rfl
      | some ticket => exact Or.inr ⟨outcome, rfl⟩

end Course

/-! ## Turns -/

/-- What an event does to the worker, to its queue and to the tickets, to the number of requests
that callers hold, and where it leads the worker. -/
inductive Running.Turn (r : Running) : Nat → Course → Running → Nat → Course → Prop where
  /-- Nothing happens to them, and the cache does not open again. -/
  | apart {held : Nat} {c : Course} (cache : Cache)
      (hclosed : r.cache.closed = true → cache.closed = true) :
      Turn r held c { r with cache } held c
  /-- The worker is created. -/
  | start {held : Nat} {c : Course} (hopen : r.cache.closed = false)
      (hdetached : r.attached = false) :
      Turn r held c { r with
        worker := some (.create r.queueCapacity (some r.retryInterval)), attached := true } held c
  /-- A caller notes that a pass is requested. -/
  | note {held : Nat} {c : Course} (hfree : r.requested = false) :
      Turn r held c { r with requested := true } (held + 1) c
  /-- A requested pass comes into the queue. -/
  | queue {held : Nat} {c : Course} {w : Worker Task} (hw : r.worker = some w)
      (hruns : w.hasEnded = false) :
      Turn r (held + 1) c { r with worker := some { w with queue := w.queue ++ [.evict] } } held c
  /-- A note is taken back. -/
  | withdraw {held : Nat} {c : Course} : Turn r (held + 1) c { r with requested := false } held c
  /-- A caller draws a ticket. -/
  | draw {held : Nat} {c : Course} :
      Turn r held c { r with nextTicket := r.nextTicket + 1 } held c
  /-- The task of a caller is accepted. -/
  | submit {held : Nat} {c : Course} {w : Worker Task} {task : Task} {ticket : Nat}
      (waiting : List (Nat × Task)) (hw : r.worker = some w) (hruns : w.hasEnded = false)
      (hticket : task.ticket? = some ticket) (hlt : ticket < r.nextTicket) :
      Turn r held c { r with worker := some { w with waiting, queue := w.queue ++ [task] } } held c
  /-- The line of callers changes. -/
  | line {held : Nat} {c : Course} {w : Worker Task} (waiting : List (Nat × Task))
      (hw : r.worker = some w) : Turn r held c { r with worker := some { w with waiting } } held c
  /-- A caller fetches a reply. -/
  | fetch {held : Nat} {c : Course} (ticket : Nat) :
      Turn r held c { r with replies := r.replies.filter fun p => p.1 != ticket } held c
  /-- A shutdown gives the worker up. -/
  | detach {held : Nat} {c : Course} (hclosed : r.cache.closed = true) :
      Turn r held c { r.withWorker Worker.stop with attached := false } held c
  /-- The worker goes on with its round. -/
  | lead {held : Nat} {c c' : Course} (cache : Cache)
      (hclosed : r.cache.closed = true → cache.closed = true) (h : Course.Leads c c') :
      Turn r held c { r with cache } held c'
  | begin {held : Nat} {w : Worker Task} (now : Nat) (hw : r.worker = some w) :
      Turn r held .fresh { r with worker := some (w.begin now) } held .paused
  /-- There is no event for the worker. -/
  | idle {held : Nat} {w : Worker Task} (hw : r.worker = some w) (hruns : w.hasEnded = false) :
      Turn r held .waiting { r with worker := some { w with phase := .idle } } held .waiting
  | take {held : Nat} {w : Worker Task} {e : Worker.Event Task} {now : Nat} (hw : r.worker = some w)
      (hruns : w.hasEnded = false) (he : e ∈ w.ready now) :
      Turn r held .waiting { r with worker := some (w.take now e) } held (.ofEvent e)
  | clear {held : Nat} :
      Turn r held .clearing { r with requested := false } held (.looking none)
  | answer {held ticket : Nat} (outcome : Except Error Nat) :
      Turn r held (.replying ticket) { r with replies := r.replies ++ [(ticket, outcome)] } held
        .paused
  | finish {held : Nat} : Turn r held .stopping (r.withWorker Worker.finish) held .gone

namespace Running

variable {r r' : Running} {held : Nat} {c c' : Course} {q : Request}

theorem Turn.refl (r : Running) (held : Nat) (c : Course) : r.Turn held c r held c :=
  .apart r.cache fun h => h

/-- What has nothing to do with the worker. -/
theorem Turn.of_isApart (hs : r.cache.contents.slots.Sound) (caller now : Nat)
    (hq : q.isApart = true) : r.Turn held c (r.reply? caller now q).2 held c := by
  rw [r.reply?_of_isApart caller now hq]
  exact .apart _ (closed_reply? hs caller now q)

/-- A record is offered. -/
theorem Turn.receive (r : Running) (held : Nat) (c : Course) (key : Key) (record : Record) :
    r.Turn held c (r.receive key record).2 held c :=
  .apart _ fun h => (receive_of_closed h key record).2.2

theorem Turn.perform (hs : r.cache.contents.slots.Sound) (held : Nat) (c : Course) {call : Call}
    (hcall : WithCallers.isPlain call = true) : r.Turn held c (r.perform call).2 held c := by
  have hclosed := fun h => (Ebbs.perform hs call).closed h
  cases call with
  | init =>
      show r.Turn held c r.start.2 held c
      simp only [Running.start]
      split
      · exact .refl r held c
      next hopen =>
        split
        · exact .refl r held c
        next hdetached =>
          exact .start (Bool.eq_false_iff.2 hopen) (Bool.eq_false_iff.2 hdetached)
  | save | saveBatch | update | deleteBatch | shutdown => cases hcall
  | _ => exact .apart _ hclosed

/-- A caller does not get a reply. -/
theorem Turn.of_wait {d : Dealing} {state : Reply q → Dealing} (hasks : Errand.Asks d q state)
    (hs : r.cache.contents.slots.Sound) {caller now : Nat}
    (hr : r.reply? caller now q = (none, r')) : r.Turn held c r' held c := by
  have hr' : r' = (r.reply? caller now q).2 := (congrArg Prod.snd hr).symm
  cases hasks with
  | apart hq => exact hr' ▸ .of_isApart hs caller now hq
  | @submit task ticket =>
      cases hw : r.worker with
      | none =>
          simp only [reply?, r.submit?_of_none hw] at hr
          cases hr
      | some w =>
          simp only [reply?, r.submit?_of_worker hw] at hr hr'
          have hgets := w.gets_submit caller task
          generalize (w.submit caller task).1 = answer at hr hgets
          generalize (w.submit caller task).2 = w' at hr' hgets
          subst hr'
          cases hgets with
          | accepts => cases hr
          | defers waiting | hasEnded waiting => exact .line waiting hw
          | isFull => exact .line w.waiting hw
  | @await ticket =>
      have hsnd : r' = (r.await? ticket).2 := hr'
      rcases r.snd_await?_cases ticket with hawait | hawait <;> rw [hsnd, hawait]
      · exact .fetch ticket
      · exact .refl r held c
  | detach | draw | note | queue | withdraw => cases hr

/-- A caller gets a reply.  Its ticket stays one that was drawn. -/
theorem Turn.of_asks {d : Dealing} {state : Reply q → Dealing} (hasks : Errand.Asks d q state)
    (hs : r.cache.contents.slots.Sound) (hdrawn : ∀ ticket, d.ticket? = some ticket →
      ticket < r.nextTicket) (hdetach : q = .detach → r.cache.closed = true) {caller now : Nat}
    {a : Reply q} (hr : r.reply? caller now q = (some a, r')) (others : Nat) :
    r.Turn (others + d.holds.toNat) c r' (others + (state a).holds.toNat) c ∧
      ∀ ticket, (state a).ticket? = some ticket → ticket < r'.nextTicket := by
  cases hasks with
  | apart hq =>
      obtain rfl : r' = (r.reply? caller now q).2 := (congrArg Prod.snd hr).symm
      refine ⟨.of_isApart hs caller now hq, fun ticket ho => ?_⟩
      rw [r.reply?_of_isApart caller now hq]
      exact hdrawn ticket ho
  | detach =>
      cases hr
      exact ⟨.detach (hdetach rfl), hdrawn⟩
  | draw =>
      cases hr
      refine ⟨.draw, fun ticket hticket => ?_⟩
      cases hticket
      exact Nat.lt_succ_self _
  | @submit task ticket hticket =>
      have hlt := hdrawn ticket rfl
      cases hw : r.worker with
      | none =>
          simp only [reply?, r.submit?_of_none hw] at hr
          cases hr
          exact ⟨.refl r _ c, hdrawn⟩
      | some w =>
          simp only [reply?, r.submit?_of_worker hw] at hr
          obtain rfl := (congrArg Prod.snd hr).symm
          refine ⟨?_, hdrawn⟩
          have hgets := w.gets_submit caller task
          generalize (w.submit caller task).1 = answer at hgets
          generalize (w.submit caller task).2 = w' at hgets
          cases hgets with
          | accepts waiting hruns => exact .submit waiting hw hruns hticket hlt
          | defers waiting | hasEnded waiting => exact .line waiting hw
          | isFull => exact .line w.waiting hw
  | @await ticket =>
      have hsnd : r' = (r.await? ticket).2 := (congrArg Prod.snd hr).symm
      rcases r.snd_await?_cases ticket with hawait | hawait <;> rw [hsnd, hawait]
      · exact ⟨.fetch ticket, hdrawn⟩
      · exact ⟨.refl r _ c, hdrawn⟩
  | note =>
      cases hr
      cases hrequested : r.requested with
      | true =>
          refine ⟨?_, fun ticket hticket => by cases hticket⟩
          rw [show { r with requested := true } = r by rw [← hrequested]]
          exact .refl r others c
      | false => exact ⟨.note hrequested, fun ticket hticket => by cases hticket⟩
  | queue =>
      rcases r.queueRequest_cases with hqueue | ⟨w, hw, hruns, hqueue⟩
      · cases (congrArg (Prod.map some id) hqueue).symm.trans hr
        exact ⟨.refl r _ c, fun ticket hticket => by cases hticket⟩
      · cases (congrArg (Prod.map some id) hqueue).symm.trans hr
        exact ⟨.queue hw hruns, fun ticket hticket => by cases hticket⟩
  | withdraw =>
      cases hr
      exact ⟨.withdraw, fun ticket hticket => by cases hticket⟩

end Running

/-! ## The queue and the tickets of the worker -/

/-- A worker that has begun and goes on has its queue. -/
theorem queue_begin {w : Worker Task} {now : Nat} (hruns : (w.begin now).hasEnded = false) :
    (w.begin now).queue = w.queue := by
  rcases w.begin_cases now with ⟨-, h⟩ | ⟨-, due, h⟩ <;> rw [h] at hruns ⊢
  cases hruns

theorem mem_queue_begin {w : Worker Task} {now : Nat} {task : Task}
    (h : task ∈ (w.begin now).queue) : task ∈ w.queue := by
  rcases w.begin_cases now with ⟨-, hbegin⟩ | ⟨-, due, hbegin⟩ <;> rw [hbegin] at h
  · cases h
  · exact h

/-- A worker takes its task from the front of the queue. -/
theorem queue_take {w : Worker Task} {now : Nat} {e : Worker.Event Task} (he : e ∈ w.ready now) :
    (∃ task, e = .task task ∧ w.queue = task :: (w.take now e).queue) ∨
      (∀ task, e ≠ .task task) ∧ (w.take now e).queue = w.queue := by
  cases e with
  | task task => exact Or.inl ⟨task, rfl, Worker.queue_of_ready he⟩
  | tick | stop => exact Or.inr ⟨by simp, rfl⟩

theorem Course.ticket?_afterPass (ticket? : Option Nat) :
    (Course.afterPass ticket?).ticket? = ticket? := by
  cases ticket? <;> rfl

/-- The worker stays with the ticket of its task until it has dealt with it. -/
theorem Course.Leads.ticket?_eq {c c' : Course} (h : Course.Leads c c') :
    c'.ticket? = c.ticket? := by
  cases h with
  | skip ticket? | conclude ticket? => exact ticket?_afterPass ticket?
  | again | rest | check | look | go => rfl

/-- A worker that goes on has begun, and has not just taken up a requested pass. -/
theorem Course.Leads.ne {c c' : Course} (h : Course.Leads c c') :
    c' ≠ .fresh ∧ c.taken = 0 ∧ c'.taken = 0 := by
  cases h with
  | skip ticket? | conclude ticket? => cases ticket? <;> exact ⟨by simp [afterPass], rfl, rfl⟩
  | again | rest | check | look | go => exact ⟨by simp, rfl, rfl⟩

theorem Course.ofEvent_ne (e : Worker.Event Task) : Course.ofEvent e ≠ .fresh := by
  cases e with
  | task task => cases task <;> simp [ofEvent]
  | tick | stop => simp [ofEvent]

/-- A requested pass is in the queue, or it was taken up. -/
theorem count_take {w : Worker Task} {now : Nat} {e : Worker.Event Task} (he : e ∈ w.ready now) :
    (w.take now e).queue.count .evict + (Course.ofEvent e).taken = w.queue.count .evict := by
  rcases queue_take he with ⟨task, rfl, hqueue⟩ | ⟨he, hqueue⟩
  · rw [hqueue]
    cases task with
    | evict => exact List.count_cons_self.symm
    | evictFor ticket | mark ticket => exact (List.count_cons_of_ne (by simp)).symm
  · rw [hqueue]
    cases e with
    | task task => exact absurd rfl (he task)
    | tick | stop => rfl

theorem Course.ticket?_ofEvent (e : Worker.Event Task) {ticket : Nat}
    (h : (Course.ofEvent e).ticket? = some ticket) :
    ∃ task, e = .task task ∧ task.ticket? = some ticket := by
  cases e with
  | task task => exact ⟨task, rfl, by cases task <;> exact h⟩
  | tick | stop => cases h

namespace Running

/-- Whether the worker has ended. -/
def hasEnded (r : Running) : Bool := r.worker.any Worker.hasEnded

/-- The number of requested passes that are in the queue of the worker. -/
def queued (r : Running) : Nat := (r.worker.elim [] Worker.queue).count .evict

theorem hasEnded_iff {r : Running} :
    r.hasEnded = true ↔ ∃ w, r.worker = some w ∧ w.hasEnded = true := by
  cases hw : r.worker with
  | none => simp [hasEnded, hw]
  | some w => simp [hasEnded, hw]

theorem hasEnded_of_worker {r : Running} {w : Worker Task} (hw : r.worker = some w) :
    r.hasEnded = w.hasEnded := by
  rw [hasEnded, hw, Option.any_some]

theorem hasEnded_stop (r : Running) : (r.withWorker Worker.stop).hasEnded = r.hasEnded := by
  rw [hasEnded, hasEnded, withWorker]
  cases r.worker <;> rfl

theorem queued_stop (r : Running) : (r.withWorker Worker.stop).queued = r.queued := by
  rw [queued, queued, withWorker]
  cases r.worker <;> rfl

theorem queued_of_worker {r : Running} {w : Worker Task} (hw : r.worker = some w) :
    r.queued = w.queue.count .evict := by
  rw [queued, hw, Option.elim_some]

/-- The tickets that the worker knows of, and those that it has told an outcome to. -/
inductive Knows (r : Running) (c : Course) : Nat → Prop where
  | queued {w : Worker Task} {task : Task} {ticket : Nat} (hw : r.worker = some w)
      (htask : task ∈ w.queue) (hticket : task.ticket? = some ticket) : Knows r c ticket
  | handled {ticket : Nat} (h : c.ticket? = some ticket) : Knows r c ticket
  | replied {p : Nat × Except Error Nat} (hp : p ∈ r.replies) : Knows r c p.1

/-- What is true of the worker, of the tickets and of the requests at any time. -/
structure WorkerInvariant (r : Running) (held : Nat) (c : Course) : Prop where
  drawn : ∀ {ticket : Nat}, r.Knows c ticket → ticket < r.nextTicket
  vacant : r.worker = none → c = .fresh
  /-- Only a shutdown gives the worker up. -/
  manned : ∀ {w : Worker Task}, r.worker = some w → r.attached = true ∨ r.cache.closed = true
  begins : c = .fresh → ∀ {w : Worker Task}, r.worker = some w → w.hasEnded = false
  /-- Until the worker has ended, the note that a pass is requested stands for one request. -/
  counted : r.hasEnded = false → r.requested.toNat = r.queued + c.taken + held

variable {r r' : Running} {held held' : Nat} {c c' : Course} {ticket : Nat}

namespace Turn

theorem nextTicket_le (h : r.Turn held c r' held' c') : r.nextTicket ≤ r'.nextTicket := by
  cases h with
  | draw => exact Nat.le_succ _
  | _ => exact Nat.le_refl _

/-- Tasks come into the queue when a pass is requested, and from callers. -/
theorem mem_queue (h : r.Turn held c r' held' c') {w' : Worker Task} (hw' : r'.worker = some w')
    {task : Task} (htask : task ∈ w'.queue) :
    (∃ w, r.worker = some w ∧ task ∈ w.queue) ∨ task = .evict ∨
      ∃ ticket, task.ticket? = some ticket ∧ ticket < r.nextTicket := by
  cases h with
  | apart | note | withdraw | draw | fetch | lead | clear | answer =>
      exact Or.inl ⟨w', hw', htask⟩
  | start =>
      cases hw'
      cases htask
  | queue hw =>
      cases hw'
      rcases List.mem_append.1 htask with hold | hnew
      · exact Or.inl ⟨_, hw, hold⟩
      · exact Or.inr (Or.inl (List.mem_singleton.1 hnew))
  | submit waiting hw hruns hticket hlt =>
      cases hw'
      rcases List.mem_append.1 htask with hold | hnew
      · exact Or.inl ⟨_, hw, hold⟩
      · rw [List.mem_singleton.1 hnew]
        exact Or.inr (Or.inr ⟨_, hticket, hlt⟩)
  | line waiting hw | idle hw =>
      cases hw'
      exact Or.inl ⟨_, hw, htask⟩
  | detach hclosed =>
      obtain ⟨w, hw, rfl⟩ := Option.map_eq_some_iff.1 hw'
      exact Or.inl ⟨w, hw, htask⟩
  | finish =>
      obtain ⟨w, hw, rfl⟩ := Option.map_eq_some_iff.1 hw'
      cases htask
  | begin now hw =>
      cases hw'
      exact Or.inl ⟨_, hw, mem_queue_begin htask⟩
  | @take _ w e now hw hruns he =>
      cases hw'
      refine Or.inl ⟨w, hw, ?_⟩
      rcases queue_take he with ⟨head, -, hqueue⟩ | ⟨-, hqueue⟩
      · rw [hqueue]
        exact List.mem_cons_of_mem _ htask
      · rw [← hqueue]
        exact htask

/-- The worker takes a task from its queue. -/
theorem handled (h : r.Turn held c r' held' c') (hc' : c'.ticket? = some ticket) :
    c.ticket? = some ticket ∨
      ∃ w task, r.worker = some w ∧ task ∈ w.queue ∧ task.ticket? = some ticket := by
  cases h with
  | lead cache hclosed hleads => exact Or.inl (hleads.ticket?_eq ▸ hc')
  | take hw hruns he =>
      obtain ⟨task, rfl, hticket⟩ := Course.ticket?_ofEvent _ hc'
      refine Or.inr ⟨_, task, hw, ?_, hticket⟩
      rw [Worker.queue_of_ready he]
      exact List.mem_cons_self
  | begin | clear | answer | finish => cases hc'
  | _ => exact Or.inl hc'

/-- The worker replies under the ticket of its task. -/
theorem replied (h : r.Turn held c r' held' c') {p : Nat × Except Error Nat} (hp : p ∈ r'.replies) :
    p ∈ r.replies ∨ c.ticket? = some p.1 := by
  cases h with
  | fetch => exact Or.inl (List.mem_of_mem_filter hp)
  | answer =>
      rcases List.mem_append.1 hp with hold | hnew
      · exact Or.inl hold
      · rw [List.mem_singleton.1 hnew]
        exact Or.inr rfl
  | _ => exact Or.inl hp

/-- The worker comes to know only of tickets that were drawn. -/
theorem knows (h : r.Turn held c r' held' c') (hk : r'.Knows c' ticket) :
    r.Knows c ticket ∨ ticket < r.nextTicket := by
  cases hk with
  | queued hw' htask hticket =>
      rcases h.mem_queue hw' htask with ⟨w, hw, hmem⟩ | rfl | ⟨drawn, hdrawn, hlt⟩
      · exact Or.inl (.queued hw hmem hticket)
      · cases hticket
      · rw [hdrawn] at hticket
        cases hticket
        exact Or.inr hlt
  | handled hc' =>
      rcases h.handled hc' with hc | ⟨w, task, hw, htask, hticket⟩
      · exact Or.inl (.handled hc)
      · exact Or.inl (.queued hw htask hticket)
  | replied hp =>
      rcases h.replied hp with hold | hc
      · exact Or.inl (.replied hold)
      · exact Or.inl (.handled hc)

end Turn

namespace WorkerInvariant

theorem ofConfig (config : Config) : (ofConfig config).WorkerInvariant 0 .fresh where
  drawn hk := by cases hk <;> contradiction
  vacant _ := rfl
  manned hw := by cases hw
  begins _ _ hw := by cases hw
  counted _ := rfl

variable (h : r.WorkerInvariant held c) (ht : r.Turn held c r' held' c')
include h

/-- While the cache is open, a worker that was created is not given up. -/
theorem eq_none (hopen : r.cache.closed = false) (hdetached : r.attached = false) :
    r.worker = none := by
  rw [Option.eq_none_iff_forall_ne_some]
  intro w hw
  rcases h.manned hw with hattached | hclosed
  · rw [hdetached] at hattached
    cases hattached
  · rw [hopen] at hclosed
    cases hclosed

/-- What the note stands for, as long as the worker goes on. -/
theorem counted_of_worker {w : Worker Task} (hw : r.worker = some w) (hruns : w.hasEnded = false) :
    r.requested.toNat = w.queue.count .evict + c.taken + held := by
  rw [← queued_of_worker hw]
  exact h.counted ((hasEnded_of_worker hw).trans hruns)

include ht

theorem vacant_turn (hw' : r'.worker = none) : c' = .fresh := by
  cases ht with
  | apart | note | withdraw | draw | fetch => exact h.vacant hw'
  | detach => exact h.vacant (Option.map_eq_none_iff.1 hw')
  | lead cache hclosed hleads =>
      rw [h.vacant hw'] at hleads
      cases hleads
  | clear | answer => cases h.vacant hw'
  | finish => cases h.vacant (Option.map_eq_none_iff.1 hw')
  | start | queue | submit | line | begin | idle | take => cases hw'

theorem manned_turn {w' : Worker Task} (hw' : r'.worker = some w') :
    r'.attached = true ∨ r'.cache.closed = true := by
  cases ht with
  | apart cache hclosed | lead cache hclosed => exact (h.manned hw').imp id hclosed
  | start => exact Or.inl rfl
  | detach hclosed => exact Or.inr hclosed
  | note | withdraw | draw | fetch | clear | answer => exact h.manned hw'
  | queue hw | submit waiting hw | line waiting hw | begin now hw | idle hw | take hw =>
      exact h.manned hw
  | finish =>
      obtain ⟨w, hw, -⟩ := Option.map_eq_some_iff.1 hw'
      exact h.manned hw

theorem begins_turn (hc' : c' = .fresh) {w' : Worker Task} (hw' : r'.worker = some w') :
    w'.hasEnded = false := by
  cases ht with
  | apart | note | withdraw | draw | fetch => exact h.begins hc' hw'
  | start =>
      cases hw'
      rfl
  | queue hw | submit waiting hw | line waiting hw =>
      cases hw'
      exact (h.begins hc' hw :)
  | detach =>
      obtain ⟨w, hw, rfl⟩ := Option.map_eq_some_iff.1 hw'
      exact (h.begins hc' hw :)
  | lead cache hclosed hleads => exact absurd hc' hleads.ne.1
  | take => exact absurd hc' (Course.ofEvent_ne _)
  | begin | idle | clear | answer | finish => cases hc'

theorem counted_turn (hruns : r'.hasEnded = false) :
    r'.requested.toNat = r'.queued + c'.taken + held' := by
  have hle : r.requested.toNat ≤ 1 := Bool.toNat_le _
  cases ht with
  | apart | draw | fetch | answer => exact h.counted hruns
  | start hopen hdetached =>
      have hnone := h.eq_none hopen hdetached
      have hcounted := h.counted (by rw [hasEnded, hnone, Option.any_none])
      rw [queued, hnone] at hcounted
      exact hcounted
  | note hfree =>
      have hcounted := h.counted hruns
      rw [hfree, Bool.toNat_false] at hcounted
      show 1 = r.queued + c.taken + _
      omega
  | queue hw hold =>
      have hcounted := h.counted_of_worker hw hold
      rw [queued_of_worker rfl, List.count_append, List.count_singleton_self]
      show r.requested.toNat = _
      omega
  | withdraw =>
      have hcounted := h.counted hruns
      show 0 = r.queued + c.taken + held'
      omega
  | @submit _ _ w task ticket waiting hw hold hticket =>
      have hne : task ≠ .evict := by
        rintro rfl
        cases hticket
      rw [queued_of_worker rfl, List.count_append,
        List.count_eq_zero.2 fun hmem => hne (List.mem_singleton.1 hmem).symm]
      exact h.counted_of_worker hw hold
  | line waiting hw =>
      have hcounted := h.counted_of_worker hw hruns
      rwa [queued_of_worker rfl]
  | idle hw hold =>
      have hcounted := h.counted_of_worker hw hold
      rwa [queued_of_worker rfl]
  | detach =>
      have hcounted := h.counted (r.hasEnded_stop ▸ hruns)
      rw [← r.queued_stop] at hcounted
      exact hcounted
  | lead cache hclosed hleads =>
      have hcounted := h.counted hruns
      rw [hleads.ne.2.1] at hcounted
      rw [hleads.ne.2.2]
      exact hcounted
  | begin now hw =>
      rw [queued_of_worker rfl, queue_begin hruns]
      exact h.counted_of_worker hw (h.begins rfl hw)
  | take hw hold he =>
      have hcounted := h.counted_of_worker hw hold
      rw [← count_take he] at hcounted
      exact hcounted
  | clear =>
      have hcounted := h.counted hruns
      simp only [Course.taken] at hcounted
      show 0 = r.queued + 0 + held
      omega
  | finish =>
      cases hw : r.worker with
      | none => cases h.vacant hw
      | some w =>
          rw [hasEnded, withWorker, hw] at hruns
          cases hruns

theorem turn : r'.WorkerInvariant held' c' where
  drawn hk := by
    rcases ht.knows hk with hk | hlt
    · exact Nat.lt_of_lt_of_le (h.drawn hk) ht.nextTicket_le
    · exact Nat.lt_of_lt_of_le hlt ht.nextTicket_le
  vacant := h.vacant_turn ht
  manned := h.manned_turn ht
  begins := h.begins_turn ht
  counted := h.counted_turn ht

end WorkerInvariant

end Running

/-! ## Turns of a cache with callers -/

/-- A pass of the worker goes on with a reply. -/
theorem Course.left_next (name : String) {q : Request} {next : Reply q → Prog (Except Error Nat)}
    (h : Service.Apart (.ask q next : Prog (Except Error Nat))) (ticket? : Option Nat)
    (a : Reply q) :
    ∃ c', c'.Left name ((next a).bind (Service.conclude ticket?)) ∧
      Leads (looking ticket?) c' ∧ Leads (passing ticket?) c' := by
  obtain ⟨state, -, hnext⟩ := h
  rcases left_bind name (hnext a) ticket? with hleft | hleft
  · exact ⟨_, hleft, .look ticket?, .go ticket?⟩
  · exact ⟨_, hleft, .skip ticket?, .conclude ticket?⟩

namespace Course.Left

variable {name : String} {r r' : Running} {c : Course} {q : Request} {next : Reply q → Prog Bool}
  {now : Nat} (held : Nat)

/-- The worker gets a reply. -/
theorem reply (h : c.Left name (.ask q next)) (hs : r.cache.contents.slots.Sound) {a : Reply q}
    (hr : r.reply? 0 now q = (some a, r')) : ∃ c', c'.Left name (next a) ∧
    r.Turn held c r' held c' := by
  have hapart : q.isApart = true → r' = { r with cache := r'.cache } ∧
      (r.cache.closed = true → r'.cache.closed = true) := by
    intro hq
    have hkept := r.reply?_of_isApart 0 now hq
    have hclosed := Running.closed_reply? hs 0 now q
    rw [hr] at hkept hclosed
    exact ⟨hkept, hclosed⟩
  cases c with
  | fresh =>
      cases h
      simp only [Running.reply?] at hr
      split at hr
      next w hw =>
        cases hr
        exact ⟨.paused, rfl, .begin now hw⟩
      next => cases hr
  | waiting =>
      cases h
      simp only [Running.reply?] at hr
      split at hr
      next w hw =>
        split at hr
        · cases hr
        next hruns =>
          rcases w.next_cases now with ⟨e, he, hnext⟩ | hnext <;> rw [hnext] at hr <;> cases hr
          exact ⟨_, left_handle name a, .take hw (Bool.eq_false_iff.2 hruns) he⟩
      next => cases hr
  | clearing =>
      cases h
      cases hr
      exact ⟨.looking none, rfl, .clear⟩
  | checking =>
      cases h
      obtain ⟨hkept, hclosed⟩ := hapart rfl
      rw [hkept]
      cases a with
      | true => exact ⟨.looking none, rfl, .lead _ hclosed .check⟩
      | false => exact ⟨.paused, rfl, .lead _ hclosed .rest⟩
  | looking ticket? =>
      cases h
      obtain ⟨hkept, hclosed⟩ := hapart rfl
      rw [hkept]
      obtain ⟨c', hleft, hleads, -⟩ := left_next name
        (Service.isPass_evictOldest name).apart ticket? a
      exact ⟨c', hleft, .lead _ hclosed hleads⟩
  | passing ticket? =>
      obtain ⟨q', next', hpass, h⟩ := h
      cases h
      obtain ⟨hkept, hclosed⟩ := hapart hpass.choose_spec.1
      rw [hkept]
      obtain ⟨c', hleft, -, hleads⟩ := left_next name hpass ticket? a
      exact ⟨c', hleft, .lead _ hclosed hleads⟩
  | replying ticket =>
      obtain ⟨outcome, h⟩ := h
      cases h
      cases hr
      exact ⟨.paused, rfl, .answer outcome⟩
  | stopping =>
      cases h
      cases hr
      exact ⟨.gone, rfl, .finish⟩
  | paused | gone => cases h

/-- The worker does not get a reply. -/
theorem wait (h : c.Left name (.ask q next)) (hs : r.cache.contents.slots.Sound)
    (hr : r.reply? 0 now q = (none, r')) : r.Turn held c r' held c := by
  have hapart : q.isApart = true → r.Turn held c r' held c := by
    intro hq
    have hturn : r.Turn held c (r.reply? 0 now q).2 held c := .of_isApart hs 0 now hq
    rw [hr] at hturn
    exact hturn
  cases c with
  | fresh =>
      cases h
      simp only [Running.reply?] at hr
      split at hr <;> cases hr
      exact .refl r held _
  | waiting =>
      cases h
      simp only [Running.reply?] at hr
      split at hr
      next w hw =>
        split at hr
        · cases hr
          exact .refl r held _
        next hruns =>
          rcases w.next_cases now with ⟨e, he, hnext⟩ | hnext <;> rw [hnext] at hr <;> cases hr
          exact .idle hw (Bool.eq_false_iff.2 hruns)
      next =>
        cases hr
        exact .refl r held _
  | passing ticket? =>
      obtain ⟨q', next', hpass, h⟩ := h
      cases h
      exact hapart hpass.choose_spec.1
  | clearing | checking | looking | stopping =>
      cases h
      cases hr
  | replying ticket =>
      obtain ⟨outcome, h⟩ := h
      cases h
      cases hr
  | paused | gone => cases h

/-- Only a worker that waits takes up an event. -/
theorem eq_waiting {next : Worker.Event Task → Prog Bool} (h : c.Left name (.ask .nextEvent next)) :
    c = .waiting ∧ next = Service.handle name := by
  cases c with
  | waiting =>
      cases h
      exact ⟨rfl, rfl⟩
  | passing ticket? =>
      obtain ⟨q', next', hpass, h⟩ := h
      cases h
      cases hpass.choose_spec.1
  | replying ticket =>
      obtain ⟨outcome, h⟩ := h
      cases h
  | _ => cases h

/-- Only a worker that has just taken up a request forgets it. -/
theorem eq_clearing {next : Unit → Prog Bool} (h : c.Left name (.ask .clearRequested next)) :
    c = .clearing := by
  cases c with
  | clearing => rfl
  | passing ticket? =>
      obtain ⟨q', next', hpass, h⟩ := h
      cases h
      cases hpass.choose_spec.1
  | replying ticket =>
      obtain ⟨outcome, h⟩ := h
      cases h
  | _ => cases h

/-- Only in a pass does the worker wait for the backend. -/
theorem answer {call : Call} {next : call.Outcome → Prog Bool}
    (h : c.Left name (.ask (.backend call) next)) (r : Running) (a : call.Outcome) :
    ∃ c', c'.Left name (next a) ∧ r.Turn held c r held c' := by
  cases c with
  | passing ticket? =>
      obtain ⟨q', next', hpass, h⟩ := h
      cases h
      obtain ⟨c', hleft, -, hleads⟩ := left_next name hpass ticket? a
      exact ⟨c', hleft, .lead r.cache (fun h => h) hleads⟩
  | replying ticket =>
      obtain ⟨outcome, h⟩ := h
      cases h
  | _ => cases h

end Course.Left

/-- A shutdown has closed the cache when it gives the worker up. -/
theorem Caller.AtStage.closed_of_detach {r : Running} {st : Stage} {errand : Errand}
    {next : Bool → Prog errand.Answer} (h : Caller.AtStage r ⟨errand, .ask .detach next⟩ st) :
    r.cache.closed = true := by
  cases h with
  | errand herrand hobeys =>
      obtain ⟨state, hasks, -⟩ := hobeys
      cases hasks with
      | aside hq => cases hq
      | pass hafter hpass => cases hpass
  | shutdown hk hobeys =>
      obtain ⟨state, hasks, -⟩ := hobeys
      cases hasks with
      | detach => exact hk.closed rfl
      | pass hpass => cases hpass

namespace WithCallers

variable {g : CallerSystem} {s s' : WithCallers} {c c' : Course} {stage : Nat → Stage}

/-- What an event does to the worker, and to those who deal with it. -/
def WorkerTurn (s : WithCallers) (c : Course) (s' : WithCallers) (c' : Course) : Prop :=
  s.running.Turn s.held c s'.running s'.held c'

theorem WorkerTurn.refl (s : WithCallers) (c : Course) : s.WorkerTurn c s c :=
    Running.Turn.refl _ _ c

/-- Who has just come holds no request. -/
theorem held_of_newcomers {newcomers : List Caller} (hcallers : s'.callers = s.callers ++ newcomers)
    (hnew : ∀ caller ∈ newcomers, caller.program = caller.errand.program g.backendName) :
    s'.held = s.held := by
  have hnone : newcomers.countP Caller.holds = 0 := by
    refine List.countP_eq_zero.2 fun caller hc => Bool.eq_false_iff.1 ?_
    rw [(Caller.dealing_eq (hnew caller hc ▸ Errand.obeys_asks g.backendName caller.errand)).2]
    cases caller.errand <;> rfl
  rw [held, held, hcallers, List.countP_append, hnone, Nat.add_zero]

/-- The worker keeps to its rounds, and callers keep to their dealings with it, under tickets that
were drawn. -/
structure Rounds (g : CallerSystem) (s : WithCallers) (c : Course) : Prop where
  left : c.Left g.backendName s.worker
  callers : ∀ caller ∈ s.callers, ∃ d, caller.program.Obeys Errand.Asks Errand.Ends d ∧
    ∀ ticket, d.ticket? = some ticket → ticket < s.running.nextTicket
  worker : s.running.WorkerInvariant s.held c

namespace Rounds

theorem start (g : CallerSystem) : g.start.Rounds g .fresh where
  left := rfl
  callers caller hc := by cases hc
  worker := .ofConfig g.config

variable (h : s.Rounds g c)
include h

/-- A turn at which callers come, or none. -/
theorem turn (ht : s.WorkerTurn c s' c') (hleft : c'.Left g.backendName s'.worker)
    {newcomers : List Caller} (hcallers : s'.callers = s.callers ++ newcomers)
    (hnew : ∀ caller ∈ newcomers, caller.program = caller.errand.program g.backendName) :
    s'.Rounds g c' where
  left := hleft
  callers caller hc := by
    rw [hcallers] at hc
    rcases List.mem_append.1 hc with hold | hnewcomer
    · obtain ⟨d, hobeys, hdrawn⟩ := h.callers caller hold
      exact ⟨d, hobeys, fun ticket hd => Nat.lt_of_lt_of_le (hdrawn ticket hd) ht.nextTicket_le⟩
    · refine ⟨caller.errand.outset, ?_, ?_⟩
      · rw [hnew caller hnewcomer]
        exact Errand.obeys_asks g.backendName caller.errand
      · exact caller.errand.ticket?_outset ▸ nofun
  worker := h.worker.turn ht

/-- An event at which the callers stay the same, and the worker may go on. -/
theorem along (ht : s.running.Turn s.held c s'.running s.held c')
    (hleft : c'.Left g.backendName s'.worker) (hcallers : s'.callers = s.callers) :
    s'.Rounds g c' ∧ s.WorkerTurn c s' c' := by
  have hturn : s.WorkerTurn c s' c' := by
    rw [WorkerTurn, show s'.held = s.held by rw [held, held, hcallers]]
    exact ht
  exact ⟨h.turn hturn hleft (hcallers.trans (List.append_nil _).symm) nofun, hturn⟩

/-- Callers come. -/
theorem join (ht : s.running.Turn s.held c s'.running s.held c) (hworker : s'.worker = s.worker)
    {newcomers : List Caller} (hcallers : s'.callers = s.callers ++ newcomers)
    (hnew : ∀ caller ∈ newcomers, caller.program = caller.errand.program g.backendName) :
    s'.Rounds g c ∧ s.WorkerTurn c s' c := by
  have hturn : s.WorkerTurn c s' c := by
    rw [WorkerTurn, held_of_newcomers hcallers hnew]
    exact ht
  exact ⟨h.turn hturn (hworker ▸ h.left) hcallers hnew, hturn⟩

/-- A caller gets on. -/
theorem turnCaller {n : Nat} {errand : Errand} {program program' : Prog errand.Answer}
    {d d' : Dealing} (hc : s.callers[n]? = some ⟨errand, program⟩)
    (hcallers : s'.callers = s.callers.set n ⟨errand, program'⟩) (hworker : s'.worker = s.worker)
    (hd : program.Obeys Errand.Asks Errand.Ends d)
    (hd' : program'.Obeys Errand.Asks Errand.Ends d')
    (ht : ∀ others, s.running.Turn (others + d.holds.toNat) c s'.running
      (others + d'.holds.toNat) c)
    (hdrawn : ∀ ticket, d'.ticket? = some ticket → ticket < s'.running.nextTicket) :
    s'.Rounds g c ∧ s.WorkerTurn c s' c := by
  obtain ⟨others, hheld, hheld'⟩ := countP_of_getElem? hc Caller.holds
  have hturn : s.WorkerTurn c s' c := by
    have hholds : Caller.holds ⟨errand, program⟩ = d.holds := (Caller.dealing_eq hd).2
    have hholds' : Caller.holds ⟨errand, program'⟩ = d'.holds := (Caller.dealing_eq hd').2
    rw [WorkerTurn, held, held, hcallers, hheld, hheld', hholds, hholds']
    exact ht others
  refine ⟨⟨hworker ▸ h.left, fun caller hcaller => ?_, h.worker.turn hturn⟩, hturn⟩
  rw [hcallers] at hcaller
  rcases List.mem_or_eq_of_mem_set hcaller with hold | rfl
  · obtain ⟨d₀, hobeys, hdrawn₀⟩ := h.callers caller hold
    exact ⟨d₀, hobeys, fun ticket hd => Nat.lt_of_lt_of_le (hdrawn₀ ticket hd) hturn.nextTicket_le⟩
  · exact ⟨d', hd', hdrawn⟩

theorem goWorker (hs : s.running.cache.contents.slots.Sound) (now : Nat) :
    ∃ c', (g.step s (.go .worker now)).Rounds g c' ∧ s.WorkerTurn c
      (g.step s (.go .worker now)) c' := by
  have hleft := h.left
  simp only [CallerSystem.step, WithCallers.goWorker]
  split
  next hw =>
    rw [hw] at hleft
    cases c with
    | paused => exact ⟨.waiting, h.along (.lead s.running.cache (fun h => h) .again) rfl rfl⟩
    | passing ticket? =>
        obtain ⟨q, next, -, hleft⟩ := hleft
        cases hleft
    | replying ticket =>
        obtain ⟨outcome, hleft⟩ := hleft
        cases hleft
    | _ => cases hleft
  next => exact ⟨c, h, .refl s c⟩
  next q next hw =>
    rw [hw] at hleft
    split
    next a running hr =>
      obtain ⟨c', hleft', ht⟩ := hleft.reply s.held hs hr
      exact ⟨c', h.along ht hleft' rfl⟩
    next running hr => exact ⟨c, h.along (hleft.wait s.held hs hr) h.left rfl⟩

theorem goCaller (hstaged : s.Staged g stage) (n now : Nat) :
    (g.step s (.go (.caller n) now)).Rounds g c ∧ s.WorkerTurn c
    (g.step s (.go (.caller n) now)) c := by
  simp only [CallerSystem.step, WithCallers.goCaller]
  split
  next errand q next hc =>
    obtain ⟨d, hobeys, hdrawn⟩ := h.callers _ (List.mem_of_getElem? hc)
    obtain ⟨state, hasks, hnext⟩ := id hobeys
    have hs := hstaged.sound.contents.slots
    split
    next a running hr =>
      have hdetach : q = .detach → s.running.cache.closed = true := by
        rintro rfl
        exact (hstaged.callers n _ hc).closed_of_detach
      have hturn := Running.Turn.of_asks hasks hs hdrawn hdetach hr (c := c)
      exact h.turnCaller hc rfl rfl hobeys (hnext a) (fun others => (hturn others).1) (hturn 0).2
    next running hr => exact h.along (.of_wait hasks hs hr) h.left rfl
  next => exact ⟨h, .refl s c⟩

theorem take (e : Worker.Event Task) (now : Nat) :
    ∃ c', (g.step s (.take e now)).Rounds g c' ∧ s.WorkerTurn c (g.step s (.take e now)) c' := by
  have hleft := h.left
  simp only [CallerSystem.step, WithCallers.take]
  split
  next next w hworker hw =>
    rw [hworker] at hleft
    obtain ⟨rfl, rfl⟩ := hleft.eq_waiting
    split
    next hready =>
      simp only [Bool.and_eq_true, Bool.not_eq_true', List.contains_iff_mem] at hready
      exact ⟨_, h.along (.take hw hready.1 hready.2) (Course.left_handle _ e) rfl⟩
    next => exact ⟨_, h, .refl s _⟩
  next => exact ⟨c, h, .refl s c⟩

theorem answerWorker (verdict : Verdict) :
    ∃ c', (g.step s (.answer .worker verdict)).Rounds g c' ∧
      s.WorkerTurn c (g.step s (.answer .worker verdict)) c' := by
  have hleft := h.left
  simp only [CallerSystem.step, WithCallers.answerWorker]
  split
  next call next hw =>
    rw [hw] at hleft
    obtain ⟨c', hleft', ht⟩ := hleft.answer s.held s.running (verdict.outcome call)
    exact ⟨c', h.along ht hleft' rfl⟩
  next => exact ⟨c, h, .refl s c⟩

theorem answerCaller (n : Nat) (verdict : Verdict) :
    (g.step s (.answer (.caller n) verdict)).Rounds g c ∧
      s.WorkerTurn c (g.step s (.answer (.caller n) verdict)) c := by
  simp only [CallerSystem.step, WithCallers.answerCaller]
  split
  next errand call next hc =>
    obtain ⟨d, hobeys, hdrawn⟩ := h.callers _ (List.mem_of_getElem? hc)
    obtain ⟨state, hasks, hnext⟩ := id hobeys
    cases hasks with
    | apart =>
        exact h.turnCaller hc rfl rfl hobeys (hnext (verdict.outcome call))
          (fun others => .refl _ _ c) hdrawn
  next => exact ⟨h, .refl s c⟩

/-- Every event makes a turn. -/
theorem step (hstaged : s.Staged g stage) (e : Event) :
    ∃ c', (g.step s e).Rounds g c' ∧ s.WorkerTurn c (g.step s e) c' := by
  have hs := hstaged.sound.contents.slots
  cases e with
  | offer key record =>
      refine ⟨c, h.join (.receive s.running s.held c key record) rfl rfl fun caller hc => ?_⟩
      rw [s.eq_of_mem_requester hc]
      rfl
  | call call =>
      simp only [CallerSystem.step]
      split
      next hcall => exact ⟨c, h.along (.perform hs s.held c hcall) h.left rfl⟩
      next => exact ⟨c, h, .refl s c⟩
  | own call => exact ⟨c, h.along (.refl s.running s.held c) h.left rfl⟩
  | begin errand =>
      refine ⟨c, h.join (.refl s.running s.held c) rfl rfl fun caller hc => ?_⟩
      rw [List.mem_singleton.1 hc]
  | go party now =>
      cases party with
      | worker => exact h.goWorker hs now
      | caller n => exact ⟨c, h.goCaller hstaged n now⟩
  | take e now => exact h.take e now
  | answer party verdict =>
      cases party with
      | worker => exact h.answerWorker verdict
      | caller n => exact ⟨c, h.answerCaller n verdict⟩

end Rounds

/-- The next event of a run makes a turn. -/
theorem Rounds.next {events : List Event} (h : (run g.step g.start events).Rounds g c) (e : Event) :
    ∃ c', (run g.step g.start (events ++ [e])).Rounds g c' ∧
      (run g.step g.start events).WorkerTurn c (run g.step g.start (events ++ [e])) c' := by
  obtain ⟨stage, hstaged, -⟩ := staged_run g events
  rw [run_append]
  exact h.step hstaged e

theorem rounds_run (g : CallerSystem) (events : List Event) :
    ∃ c, (run g.step g.start events).Rounds g c := by
  induction events using List.reverseRecOn with
  | nil => exact ⟨.fresh, .start g⟩
  | append_singleton events e ih =>
      obtain ⟨c, h⟩ := ih
      obtain ⟨c', h', -⟩ := h.next e
      exact ⟨c', h'⟩

end WithCallers

end Cache

end RecordStore
