import RecordStore.Proofs.Cache.LateShutdowns
import RecordStore.Proofs.Cache.Rounds

/-!
# Waiting for evictions

Whoever offers a record that leaves the cache full notes that a pass is requested, unless that is
noted, and then puts the request into the queue of the worker.  These are two steps, and between
them a caller *holds* the request.  If the worker does not accept it, the note is taken back.  A
caller that waits for evictions hands a mark to the worker and returns when it is replied to.

The note stands for one request at a time, which a caller holds, or which is in the queue, or which
the worker has just taken up (`WithCallers.CountsRequests`).  Tasks that callers hand over later
stand behind a request in the queue, and they have later tickets.  So until the pass for the request
is over, no late ticket is replied to (`WithCallers.Late`), and no late caller returns.

A request that is held is not in the queue, though, and others rely on its note all the same.  So a
caller may return while an admission that was completed before it came still has no pass
(`WithCallers.not_covered_of_notedOnly`).
-/

namespace RecordStore

namespace Cache

open Service (Prog)

namespace Running

/-- Whether the cache gives tasks to a worker that has not ended. -/
def isServed (r : Running) : Bool := r.attached && r.worker.any fun w => !w.hasEnded

variable {r r' : Running} {held held' : Nat} {c c' : Course} {first : Nat}

theorem isServed_iff : r.isServed = true ↔
    r.attached = true ∧ ∃ w, r.worker = some w ∧ w.hasEnded = false := by
  cases hw : r.worker with
  | none => simp [isServed, hw]
  | some w => simp [isServed, hw]

theorem Turn.isSome_worker (h : r.Turn held c r' held' c') (hw : r.worker.isSome = true) :
    r'.worker.isSome = true := by
  cases h with
  | detach | finish => exact Option.isSome_map.trans hw
  | start | queue | submit | line | begin | idle | take => rfl
  | _ => exact hw

/-- A worker that serves now has served before. -/
theorem Turn.isServed_of (h : r.Turn held c r' held' c') (hd : r.WorkerInvariant held c)
    (hw : r.worker.isSome = true) (hserved : r'.isServed = true) : r.isServed = true := by
  obtain ⟨hattached, w', hw', hruns'⟩ := isServed_iff.1 hserved
  rw [isServed_iff]
  cases h with
  | apart | note | withdraw | draw | fetch | lead | clear | answer =>
      exact ⟨hattached, w', hw', hruns'⟩
  | start hopen hdetached =>
      rw [hd.eq_none hopen hdetached] at hw
      cases hw
  | queue hw hruns | submit waiting hw hruns | idle hw hruns | take hw hruns =>
      exact ⟨hattached, _, hw, hruns⟩
  | line waiting hw =>
      cases hw'
      exact ⟨hattached, _, hw, hruns'⟩
  | begin now hw => exact ⟨hattached, _, hw, hd.begins rfl hw⟩
  | detach => cases hattached
  | finish =>
      obtain ⟨w, hw, rfl⟩ := Option.map_eq_some_iff.1 hw'
      cases hruns'

/-- A worker that has ended does not begin again. -/
theorem Turn.hasEnded (h : r.Turn held c r' held' c') (hd : r.WorkerInvariant held c)
    (hended : r.hasEnded = true) : r'.hasEnded = true := by
  obtain ⟨w, hw, hended⟩ := hasEnded_iff.1 hended
  rw [hasEnded_iff]
  cases h with
  | apart | note | withdraw | draw | fetch | lead | clear | answer => exact ⟨w, hw, hended⟩
  | start hopen hdetached =>
      rw [hd.eq_none hopen hdetached] at hw
      cases hw
  | line waiting hw' =>
      cases hw.symm.trans hw'
      exact ⟨_, rfl, hended⟩
  | detach => exact ⟨w.stop, congrArg (Option.map Worker.stop) hw, hended⟩
  | begin now hw' =>
      cases hw.symm.trans hw'
      rw [hd.begins rfl hw] at hended
      cases hended
  | finish => exact ⟨w.finish, congrArg (Option.map Worker.finish) hw, rfl⟩
  | queue hw' hruns | submit waiting hw' hruns | idle hw' hruns
  | take hw' hruns =>
      cases hw.symm.trans hw'
      rw [hended] at hruns
      cases hruns

/-! ## Requests that wait -/

/-- A requested pass is in the queue, and every ticket before it was drawn before some number of
tickets was. -/
structure Queued (r : Running) (first : Nat) (c : Course) : Prop where
  handled : ∀ ticket, c.ticket? = some ticket → ticket < first
  ahead : ∃ w before after, r.worker = some w ∧ w.queue = before ++ .evict :: after ∧
    ∀ task ∈ before, ∀ ticket, task.ticket? = some ticket → ticket < first

/-- A queue that got longer still has its request. -/
theorem Queued.longer (h : r.Queued first c) (hc : c'.ticket? = c.ticket?) {w w' : Worker Task}
    (hw : r.worker = some w) (hw' : r'.worker = some w') (later : List Task)
    (hqueue : w'.queue = w.queue ++ later) : r'.Queued first c' where
  handled := by
    rw [hc]
    exact h.handled
  ahead := by
    obtain ⟨w₀, before, after, hw₀, hsplit, hbefore⟩ := h.ahead
    rw [hw] at hw₀
    cases hw₀
    refine ⟨w', before, after ++ later, hw', ?_, hbefore⟩
    rw [hqueue, hsplit, List.append_assoc, List.cons_append]

/-- The worker takes a task that stands before the request, or the request. -/
theorem Queued.take (h : r.Queued first .waiting) {w : Worker Task} {e : Worker.Event Task}
    {now : Nat} (hw : r.worker = some w) (he : e ∈ w.ready now) :
    Queued { r with worker := some (w.take now e) } first (.ofEvent e) ∨
      Course.ofEvent e = .clearing := by
  obtain ⟨w₀, before, after, hw₀, hsplit, hbefore⟩ := h.ahead
  rw [hw] at hw₀
  cases hw₀
  rcases queue_take he with ⟨task, rfl, hqueue⟩ | ⟨hother, hqueue⟩
  · rw [hqueue] at hsplit
    cases before with
    | nil =>
        cases hsplit
        exact Or.inr rfl
    | cons head before =>
        obtain ⟨rfl, hrest⟩ := List.cons.inj hsplit
        refine Or.inl ⟨?_, _, before, after, rfl, hrest, ?_⟩
        · intro ticket hticket
          obtain ⟨task', htask', hticket'⟩ := Course.ticket?_ofEvent _ hticket
          cases htask'
          exact hbefore task List.mem_cons_self ticket hticket'
        · intro task' htask' ticket hticket
          exact hbefore task' (List.mem_cons_of_mem _ htask') ticket hticket
  · refine Or.inl ⟨?_, _, before, after, rfl, hqueue.trans hsplit, hbefore⟩
    intro ticket hticket
    obtain ⟨task, rfl, -⟩ := Course.ticket?_ofEvent _ hticket
    exact absurd rfl (hother task)

/-- A request stays in the queue until it is taken up. -/
theorem Queued.turn (h : r.Queued first c) (hd : r.WorkerInvariant held c)
    (ht : r.Turn held c r' held' c')
    (hserved : r'.isServed = true) : r'.Queued first c' ∨ c' = .clearing := by
  obtain ⟨w₀, before, after, hw₀, hsplit, hbefore⟩ := id h.ahead
  obtain ⟨hattached, w', hw', hruns'⟩ := isServed_iff.1 hserved
  have hnil : ∀ queue : List Task, queue = queue ++ [] := fun queue => (List.append_nil queue).symm
  cases ht with
  | apart | note | withdraw | draw | fetch => exact Or.inl ⟨h.handled, h.ahead⟩
  | lead cache hclosed hleads =>
      exact Or.inl (h.longer hleads.ticket?_eq hw₀ hw₀ [] (hnil _))
  | start hopen hdetached =>
      rw [hd.eq_none hopen hdetached] at hw₀
      cases hw₀
  | queue hw => exact Or.inl (h.longer rfl hw rfl [.evict] rfl)
  | @submit _ _ w task ticket waiting hw => exact Or.inl (h.longer rfl hw rfl [task] rfl)
  | line waiting hw | idle hw => exact Or.inl (h.longer rfl hw rfl [] (hnil _))
  | detach => cases hattached
  | begin now hw =>
      cases hw'
      exact Or.inl (h.longer rfl hw rfl [] ((queue_begin hruns').trans (hnil _)))
  | take hw hruns he => exact h.take hw he
  | clear => exact Or.inl (h.longer rfl hw₀ hw₀ [] (hnil _))
  | answer => exact Or.inl ⟨by simp [Course.ticket?], h.ahead⟩
  | finish =>
      obtain ⟨w, hw, rfl⟩ := Option.map_eq_some_iff.1 hw'
      cases hruns'

theorem Turn.of_clearing (h : r.Turn held .clearing r' held' c') : c' = .clearing ∨
    c' = .looking none := by
  cases h with
  | clear => exact Or.inr rfl
  | lead cache hclosed hleads => cases hleads
  | _ => exact Or.inl rfl

/-- A pass for nobody in particular goes on, or the round is over with it. -/
theorem Turn.of_pass (h : r.Turn held c r' held' c') (hc : c = .looking none ∨ c = .passing none) :
    (c' = .looking none ∨ c' = .passing none) ∨ c' = .paused := by
  cases h with
  | lead cache hclosed hleads =>
      rcases hc with rfl | rfl <;> cases hleads <;> simp [Course.afterPass]
  | begin | take | clear | answer | finish => rcases hc with hc | hc <;> cases hc
  | idle => rcases hc with hc | hc <;> cases hc
  | _ => exact Or.inl hc

/-- A task stays in the queue as long as the worker does not take it. -/
theorem Turn.mem_queue_of (ht : r.Turn held c r' held' c') (hd : r.WorkerInvariant held c)
    (hserved : r'.isServed = true)
    {w : Worker Task} {task : Task} (hw : r.worker = some w) (htask : task ∈ w.queue)
    (hkept : c = .waiting → w.queue.head? ≠ some task) :
    ∃ w', r'.worker = some w' ∧ task ∈ w'.queue := by
  obtain ⟨hattached, w', hw', hruns'⟩ := isServed_iff.1 hserved
  cases ht with
  | apart | note | withdraw | draw | fetch | lead | clear | answer => exact ⟨w, hw, htask⟩
  | start hopen hdetached =>
      rw [hd.eq_none hopen hdetached] at hw
      cases hw
  | queue hw₀ | submit waiting hw₀ =>
      cases hw.symm.trans hw₀
      exact ⟨_, rfl, List.mem_append_left _ htask⟩
  | line waiting hw₀ | idle hw₀ =>
      cases hw.symm.trans hw₀
      exact ⟨_, rfl, htask⟩
  | detach => cases hattached
  | begin now hw₀ =>
      cases hw.symm.trans hw₀
      cases hw'
      exact ⟨_, rfl, queue_begin hruns' ▸ htask⟩
  | take hw₀ hruns he =>
      cases hw.symm.trans hw₀
      refine ⟨_, rfl, ?_⟩
      rcases queue_take he with ⟨head, -, hqueue⟩ | ⟨-, hqueue⟩
      · have hhead := hkept rfl
        rw [hqueue] at htask hhead
        rcases List.mem_cons.1 htask with rfl | hrest
        · exact absurd rfl hhead
        · exact hrest
      · exact hqueue ▸ htask
  | finish =>
      obtain ⟨w, hw, rfl⟩ := Option.map_eq_some_iff.1 hw'
      cases hruns'

end Running

/-! ## Callers that wait -/

namespace Service

/-- What a caller does with the ticket that it has drawn for a mark. -/
def leaveMark (ticket : Nat) : Prog Unit :=
  .ask (.submit (.mark ticket)) fun accepted =>
    if accepted then .ask (.await ticket) fun _ => .done () else .done ()

end Service

namespace Running

/-- Where a caller is that waits for evictions, under a late ticket, and has not been replied to. -/
inductive Awaits (r : Running) (first : Nat) : Prog Unit → Prop where
  | comes : Awaits r first (.ask .isAttached fun attached =>
      if attached then .ask .newTicket Service.leaveMark else .done ())
  | draws : Awaits r first (.ask .newTicket Service.leaveMark)
  | submits {ticket : Nat} (hlate : first ≤ ticket) : Awaits r first (Service.leaveMark ticket)
  | awaits {ticket : Nat} (hlate : first ≤ ticket) {w : Worker Task} (hw : r.worker = some w)
      (hmark : .mark ticket ∈ w.queue) : Awaits r first (.ask (.await ticket) fun _ => .done ())

variable {r r' : Running} {held held' : Nat} {c c' : Course} {first : Nat}

/-- A task in the queue is live. -/
theorem isLive_of_mem {w : Worker Task} {task : Task} {ticket : Nat} (htask : task ∈ w.queue)
    (hticket : task.ticket? = some ticket) : isLive w ticket = true := by
  have hany : (w.queue.any fun t => t.ticket? == some ticket) = true :=
    List.any_eq_true.2 ⟨task, htask, by simp [hticket]⟩
  simp [isLive, hany]

/-- A task is accepted unless the worker has ended. -/
theorem submit?_cases {caller : Nat} {task : Task} {accepted : Bool}
    (hw : r.worker.isSome = true) (hr : r.submit? caller task = (some accepted, r')) :
    accepted = true ∧ r'.replies = r.replies ∧ (∃ w w', r.worker = some w ∧
        r'.worker = some w' ∧ w'.queue = w.queue ++ [task]) ∨
      accepted = false ∧ r.hasEnded = true := by
  obtain ⟨w, hw⟩ := Option.isSome_iff_exists.1 hw
  cases hended : w.hasEnded with
  | true =>
      simp only [submit?, hw, Worker.submit, hended, if_true] at hr
      cases hr
      exact Or.inr ⟨rfl, hasEnded_iff.2 ⟨w, hw, hended⟩⟩
  | false =>
      simp only [submit?, hw, Worker.submit, hended, Bool.false_eq_true, if_false] at hr
      by_cases hroom : w.place caller < w.room
      · simp only [if_pos hroom] at hr
        cases hr
        exact Or.inl ⟨rfl, rfl, w, _, hw, rfl, rfl⟩
      · simp only [if_neg hroom] at hr
        split at hr
        next heq => split at heq <;> cases heq
        next heq => split at heq <;> cases heq
        next => cases hr

/-- A caller goes on with a reply, and has not returned. -/
theorem Awaits.reply {q : Request} {next : Reply q → Prog Unit} (h : r.Awaits first (.ask q next))
    (hdrawn : first ≤ r.nextTicket) (hearly : ∀ p ∈ r.replies, p.1 < first)
    (hserved : r.isServed = true) {caller now : Nat} {a : Reply q}
    (hr : r.reply? caller now q = (some a, r')) : r'.Awaits first (next a) := by
  obtain ⟨hattached, w, hw, hruns⟩ := isServed_iff.1 hserved
  cases h with
  | comes =>
      cases hr
      rw [hattached]
      exact .draws
  | draws =>
      cases hr
      exact .submits hdrawn
  | @submits ticket hlate =>
      rcases submit?_cases (by rw [hw]; rfl) hr with
        ⟨rfl, -, w₀, w', -, hw', hqueue⟩ | ⟨rfl, hended⟩
      · refine .awaits hlate hw' ?_
        rw [hqueue]
        exact List.mem_append_right _ (List.mem_singleton_self _)
      · obtain ⟨w', hw', hended⟩ := hasEnded_iff.1 hended
        cases hw.symm.trans hw'
        rw [hruns] at hended
        cases hended
  | @awaits ticket hlate _ hw₀ hmark =>
      have hnone : r.replies.find? (fun p => p.1 == ticket) = none := by
        rw [List.find?_eq_none]
        intro p hp heq
        have hlt := hearly p hp
        rw [beq_iff_eq.1 heq] at hlt
        omega
      simp only [reply?, await?, hnone, hw₀, isLive_of_mem hmark rfl, if_true] at hr
      cases hr

/-- Whatever others do, a caller waits on. -/
theorem Awaits.turn {p : Prog Unit} (h : r.Awaits first p) (hd : r.WorkerInvariant held c)
    (ht : r.Turn held c r' held' c') (hserved : r'.isServed = true)
    (hkept : c = .waiting → r.Queued first c) : r'.Awaits first p := by
  cases h with
  | comes => exact .comes
  | draws => exact .draws
  | submits hlate => exact .submits hlate
  | @awaits ticket hlate w hw hmark =>
      have hhead : c = .waiting → w.queue.head? ≠ some (.mark ticket) := by
        intro hc
        obtain ⟨w₀, before, after, hw₀, hqueue, hbefore⟩ := (hkept hc).ahead
        cases hw.symm.trans hw₀
        rw [hqueue]
        cases before with
        | nil => simp
        | cons task before =>
            intro heq
            obtain rfl := Option.some.inj heq
            have hlt := hbefore (.mark ticket) List.mem_cons_self ticket rfl
            omega
      obtain ⟨w', hw', hmark'⟩ := ht.mem_queue_of hd hserved hw hmark hhead
      exact .awaits hlate hw' hmark'

end Running

/-! ## Passes for a request -/

namespace WithCallers

/-- The worker does a round with a requested pass: it is at the beginning of the pass, and at the
end its round is over. -/
def CallerSystem.RunsPass (g : CallerSystem) (s : WithCallers) (events : List Event) : Prop :=
  s.worker = Service.requestedPass g.backendName ∧ (run g.step s events).worker = .done true

/-- Among events that follow others the worker runs a whole pass. -/
def CallerSystem.RunsPassAfter (g : CallerSystem) (given events : List Event) : Prop :=
  ∃ earlier pass later, events = earlier ++ pass ++ later ∧
    g.RunsPass (run g.step g.start (given ++ earlier)) pass

/-- A pass that was requested is still to come, or it is under way. -/
inductive CallerSystem.Owes (g : CallerSystem) (first : Nat) (given past : List Event)
    (c : Course) : Prop where
  | queued (h : (run g.step g.start (given ++ past)).running.Queued first c)
  | taken (hc : c = .clearing)
  | begun {earlier later : List Event} (hpast : past = earlier ++ later)
      (hbegun : (run g.step g.start (given ++ earlier)).worker
        = Service.requestedPass g.backendName)
      (hc : c = .looking none ∨ c = .passing none)

variable {g : CallerSystem} {s : WithCallers} {held held' : Nat} {c c' : Course} {first count : Nat}
  {given past : List Event} {e : Event}

namespace CallerSystem.Owes

variable (h : g.Owes first given past c)
include h

/-- The worker is about no late ticket. -/
theorem handled : ∀ ticket, c.ticket? = some ticket → ticket < first := by
  cases h with
  | queued h => exact h.handled
  | taken hc => simp [hc, Course.ticket?]
  | begun _ _ hc => rcases hc with rfl | rfl <;> simp [Course.ticket?]

theorem queued_of_waiting (hc : c = .waiting) :
    (run g.step g.start (given ++ past)).running.Queued first c := by
  cases h with
  | queued h => exact h
  | taken hc' => cases hc.symm.trans hc'
  | begun _ _ hc' => rcases hc' with hc' | hc' <;> cases hc.symm.trans hc'

/-- The request stays, or it is taken up, or its pass goes on until it is over. -/
theorem next (hd : (run g.step g.start (given ++ past)).running.WorkerInvariant held c)
    (hrounds : (run g.step g.start (given ++ past ++ [e])).Rounds g c')
    (ht : (run g.step g.start (given ++ past)).running.Turn held c
      (run g.step g.start (given ++ past ++ [e])).running held' c')
    (hserved : (run g.step g.start (given ++ past ++ [e])).running.isServed = true) :
    g.Owes first given (past ++ [e]) c' ∨ g.RunsPassAfter given (past ++ [e]) := by
  cases h with
  | queued h =>
      rcases h.turn hd ht hserved with h' | hc'
      · rw [List.append_assoc] at h'
        exact Or.inl (.queued h')
      · exact Or.inl (.taken hc')
  | taken hc =>
      subst hc
      rcases ht.of_clearing with rfl | rfl
      · exact Or.inl (.taken rfl)
      · have hbegun := hrounds.left
        rw [List.append_assoc] at hbegun
        exact Or.inl (.begun (List.append_nil _).symm hbegun (Or.inl rfl))
  | @begun earlier later hpast hbegun hc =>
      subst hpast
      rw [List.append_assoc earlier]
      rcases ht.of_pass hc with hc' | rfl
      · exact Or.inl (.begun rfl hbegun hc')
      · refine Or.inr ⟨earlier, later ++ [e], [], (List.append_nil _).symm, hbegun, ?_⟩
        have hover := hrounds.left
        rw [← List.append_assoc, List.append_assoc, run_append] at hover
        exact hover

end CallerSystem.Owes

/-- No late ticket is replied to, and no late caller that waits for evictions has returned. -/
structure Late (s : WithCallers) (first count : Nat) : Prop where
  drawn : first ≤ s.running.nextTicket
  early : ∀ p ∈ s.running.replies, p.1 < first
  callers : ∀ (n : Nat), count ≤ n → ∀ program : Prog Unit,
    s.callers[n]? = some ⟨.waitForEvictions, program⟩ → s.running.Awaits first program

/-- As long as the pass is owed, late callers wait. -/
theorem Late.step (h : s.Late first count) (hd : s.running.WorkerInvariant held c)
    (ht : s.running.Turn held c (g.step s e).running held' c')
    (hserved : s.running.isServed = true) (hserved' : (g.step s e).running.isServed = true)
    (hhandled : ∀ ticket, c.ticket? = some ticket → ticket < first)
    (hkept : c = .waiting → s.running.Queued first c) : (g.step s e).Late first count where
  drawn := Nat.le_trans h.drawn ht.nextTicket_le
  early p hp := by
    rcases ht.replied hp with hold | hc
    · exact h.early p hold
    · exact hhandled p.1 hc
  callers n hn program hc := by
    cases stems_step hc with
    | old hold => exact (h.callers n hn program hold).turn hd ht hserved' hkept
    | comes => exact .comes
    | @goes now errand q next a running hm hr =>
        have hrunning := running_go g s (.caller n) now
        rw [asks?, hm, Option.bind_some, request?, Option.elim_some] at hrunning
        rw [hrunning.trans (congrArg Prod.snd hr)]
        exact (h.callers n hn _ hm).reply h.drawn h.early hserved hr
    | answered verdict hm => cases h.callers n hn _ hm

/-- No caller leaves. -/
theorem length_callers_step (g : CallerSystem) (s : WithCallers) (e : Event) :
    s.callers.length ≤ (g.step s e).callers.length := by
  cases touches_step g s e with
  | aside hcallers | own call hcallers | answerWorker verdict hw hcallers => rw [hcallers]
  | offer hcallers | begin errand hcallers =>
      rw [hcallers, List.length_append]
      omega
  | go hc hr hcallers | answerCaller verdict hc hcallers => rw [hcallers, List.length_set]

theorem length_callers_run (g : CallerSystem) (s : WithCallers) (events : List Event) :
    s.callers.length ≤ (run g.step s events).callers.length :=
  run_keeps (Q := fun s' => s.callers.length ≤ s'.callers.length)
    (fun s' e h => h.trans (length_callers_step g s' e)) (Nat.le_refl _) events

/-! ## Requests are kept -/

/-- The requested passes that the worker has taken up, and that nothing is done about. -/
def taken (s : WithCallers) : Nat :=
  match s.asks? .worker with
  | some .clearRequested => 1
  | _ => 0

theorem Rounds.taken_eq (h : s.Rounds g c) : s.taken = c.taken := by
  have hleft := h.left
  rw [taken, asks?]
  cases hw : s.worker with
  | done a =>
      rw [hw] at hleft
      cases c with
      | clearing => cases hleft
      | _ => rfl
  | ask q next =>
      rw [hw] at hleft
      by_cases hc : c = .clearing
      · subst hc
        cases hleft
        rfl
      · rw [Course.taken_of_ne hc, request?]
        cases q with
        | clearRequested => exact absurd hleft.eq_clearing hc
        | _ => rfl

/-- The note that a pass is requested stands for one request: it is in the queue, or the worker has
taken it up, or a caller holds it. -/
structure CountsRequests (s : WithCallers) : Prop where
  noted : s.running.requested = true ↔ s.running.queued + s.taken + s.held = 1
  free : s.running.requested = false ↔ s.running.queued + s.taken + s.held = 0

theorem Rounds.countsRequests (h : s.Rounds g c) (hruns : s.running.hasEnded = false) :
    s.CountsRequests := by
  have hcounted := h.worker.counted hruns
  rw [← h.taken_eq] at hcounted
  constructor <;> rw [← hcounted] <;> cases s.running.requested <;> simp

/-- A pass that was requested has not been run, and nobody who came later was served. -/
structure CallerSystem.Pending (g : CallerSystem) (first count : Nat) (given past : List Event)
    (c : Course) : Prop where
  rounds : (run g.step g.start (given ++ past)).Rounds g c
  owes : g.Owes first given past c
  late : (run g.step g.start (given ++ past)).Late first count

/-- A request that the worker has is pending. -/
theorem Rounds.pending (h : (run g.step g.start given).Rounds g c)
    (hrequest : 0 < (run g.step g.start given).running.queued + (run g.step g.start given).taken)
    (hserved : (run g.step g.start given).running.isServed = true) :
    g.Pending (run g.step g.start given).running.nextTicket
      (run g.step g.start given).callers.length given [] c := by
  have hnil : given ++ [] = given := List.append_nil given
  obtain ⟨-, w, hw, hruns⟩ := Running.isServed_iff.1 hserved
  refine ⟨hnil.symm ▸ h, ?_, ?_⟩
  · rw [h.taken_eq, Running.queued_of_worker hw] at hrequest
    by_cases hc : c = .clearing
    · exact .taken hc
    · rw [Course.taken_of_ne hc] at hrequest
      obtain ⟨before, after, hqueue⟩ := List.append_of_mem (List.count_pos_iff.1 hrequest)
      refine .queued ?_
      rw [hnil]
      refine ⟨?_, w, before, after, hw, hqueue, ?_⟩
      · intro ticket hticket
        exact h.worker.drawn (.handled hticket)
      · intro task htask ticket hticket
        refine h.worker.drawn (.queued hw ?_ hticket)
        rw [hqueue]
        exact List.mem_append_left _ htask
  · rw [hnil]
    refine ⟨Nat.le_refl _, fun p hp => h.worker.drawn (.replied hp), ?_⟩
    intro n hn program hc
    rw [List.getElem?_eq_none hn] at hc
    cases hc

/-- While the worker serves, nobody who came later is served before the pass has been run. -/
theorem CallerSystem.Pending.next (h : g.Pending first count given past c) (e : Event)
    (hw : (run g.step g.start (given ++ past)).running.worker.isSome = true)
    (hserved : (run g.step g.start (given ++ past ++ [e])).running.isServed = true) :
    (run g.step g.start (given ++ past ++ [e])).Late first count ∧
      (g.RunsPassAfter given (past ++ [e]) ∨
        ∃ c', g.Pending first count given (past ++ [e]) c') := by
  obtain ⟨c', hrounds, ht⟩ := h.rounds.next e
  have hbefore := ht.isServed_of h.rounds.worker hw hserved
  have hlate : (run g.step g.start (given ++ past ++ [e])).Late first count := by
    rw [run_append g.step g.start (given ++ past) [e]] at ht hserved ⊢
    exact h.late.step h.rounds.worker ht hbefore hserved h.owes.handled h.owes.queued_of_waiting
  refine ⟨hlate, ?_⟩
  rcases h.owes.next h.rounds.worker hrounds ht hserved with howes | hpass
  · rw [List.append_assoc] at hrounds hlate
    exact Or.inr ⟨c', hrounds, howes, hlate⟩
  · exact Or.inl hpass

/-- A worker that is there stays, and if it serves now it has served before. -/
theorem worker_next (g : CallerSystem) (events : List Event) (e : Event)
    (hw : (run g.step g.start events).running.worker.isSome = true) :
    (run g.step g.start (events ++ [e])).running.worker.isSome = true ∧
      ((run g.step g.start (events ++ [e])).running.isServed = true →
        (run g.step g.start events).running.isServed = true) := by
  obtain ⟨c, h⟩ := rounds_run g events
  obtain ⟨c', -, ht⟩ := h.next e
  exact ⟨ht.isSome_worker hw, ht.isServed_of h.worker hw⟩

/-- A worker that has a request is there. -/
theorem isSome_worker_of_request
    (h : 0 < (run g.step g.start given).running.queued + (run g.step g.start given).taken) :
    (run g.step g.start given).running.worker.isSome = true := by
  obtain ⟨c, hrounds⟩ := rounds_run g given
  rw [← Option.ne_none_iff_isSome]
  intro hnone
  rw [hrounds.taken_eq, hrounds.worker.vacant hnone, Running.queued, hnone] at h
  exact Nat.lt_irrefl 0 h

/-- A request that the worker has stays pending until its pass has been run, while the worker
serves. -/
theorem pending_run (g : CallerSystem) (given past : List Event)
    (hrequest : 0 < (run g.step g.start given).running.queued + (run g.step g.start given).taken) :
    (run g.step g.start (given ++ past)).running.worker.isSome = true ∧
      ((run g.step g.start (given ++ past)).running.isServed = true → g.RunsPassAfter given past ∨
        ∃ c, g.Pending (run g.step g.start given).running.nextTicket
          (run g.step g.start given).callers.length given past c) := by
  induction past using List.reverseRecOn with
  | nil =>
      obtain ⟨c, h⟩ := rounds_run g given
      rw [List.append_nil]
      exact ⟨isSome_worker_of_request hrequest, fun hserved =>
        Or.inr ⟨c, h.pending hrequest hserved⟩⟩
  | append_singleton past e ih =>
      obtain ⟨hw, hpending⟩ := ih
      obtain ⟨hw', hbefore⟩ := worker_next g (given ++ past) e hw
      rw [← List.append_assoc]
      refine ⟨hw', fun hserved => ?_⟩
      rcases hpending (hbefore hserved) with ⟨earlier, pass, later, rfl, hpass⟩ | ⟨c, h⟩
      · exact Or.inl ⟨earlier, pass, later ++ [e], List.append_assoc _ _ _, hpass⟩
      · exact (h.next e hw hserved).2

/-! ## What becomes of a request -/

/-- Among events that follow others, or before them, the worker has a request that no pass has begun
for. -/
def CallerSystem.HandsOver (g : CallerSystem) (given events : List Event) : Prop :=
  ∃ earlier later, events = earlier ++ later ∧
    0 < (run g.step g.start (given ++ earlier)).running.queued +
      (run g.step g.start (given ++ earlier)).taken

/-- Whether an event takes a note back, since the worker did not accept the request. -/
def withdraws (s : WithCallers) : Event → Bool
  | .go (.caller n) _ =>
      match s.asks? (.caller n) with
      | some .withdrawRequest => true
      | _ => false
  | _ => false

/-- Among events that follow others a note is taken back. -/
def CallerSystem.TakesBack (g : CallerSystem) (given events : List Event) : Prop :=
  ∃ earlier e later, events = earlier ++ e :: later ∧
    (run g.step g.start (given ++ earlier)).withdraws e = true

theorem CallerSystem.HandsOver.append (h : g.HandsOver given past) (later : List Event) :
    g.HandsOver given (past ++ later) := by
  obtain ⟨earlier, between, rfl, hrequest⟩ := h
  exact ⟨earlier, between ++ later, List.append_assoc _ _ _, hrequest⟩

theorem CallerSystem.TakesBack.append (h : g.TakesBack given past) (later : List Event) :
    g.TakesBack given (past ++ later) := by
  obtain ⟨earlier, e, between, rfl, he⟩ := h
  exact ⟨earlier, e, between ++ later, by rw [List.append_assoc, List.cons_append], he⟩

/-- A request that a caller holds stays held until it is in the queue, or the note is taken back. -/
theorem Rounds.held_step (h : s.Rounds g c) (e : Event) (hheld : 0 < s.held) :
    0 < (g.step s e).held ∨ 0 < (g.step s e).running.queued ∨ s.withdraws e = true := by
  obtain ⟨⟨errand, p⟩, hmem, hholds⟩ := List.countP_pos_iff.1 hheld
  obtain ⟨n, hc⟩ := List.mem_iff_getElem?.1 hmem
  obtain ⟨p', hc', hmoves⟩ := moves_step g e hc
  have hkept : Caller.holds ⟨errand, p'⟩ = true → 0 < (g.step s e).held := fun hholds' =>
    List.countP_pos_iff.2 ⟨_, List.mem_of_getElem? hc', hholds'⟩
  cases hmoves with
  | stays => exact Or.inl (hkept hholds)
  | @reply q next a now he hr =>
      rcases Caller.asks_of_holds hholds with rfl | rfl
      · obtain ⟨d, ⟨state, hasks, hnext⟩, -⟩ := h.callers _ hmem
        have hholds' : Caller.holds ⟨errand, next a⟩ = (state a).holds :=
          (Caller.dealing_eq (hnext a)).2
        cases hasks with
        | apart hq => cases hq
        | queue =>
            obtain rfl : s.running.queueRequest.1 = a := Option.some.inj (congrArg Prod.fst hr)
            have hrunning : s.running.queueRequest.2 = (g.step s e).running := congrArg Prod.snd hr
            rcases s.running.queueRequest_cases with hqueue | ⟨w, -, -, hqueue⟩
            · exact Or.inl (hkept (hholds'.trans (by rw [hqueue]; rfl)))
            · refine Or.inr (Or.inl ?_)
              rw [← hrunning, hqueue, Running.queued_of_worker rfl, List.count_append]
              exact Nat.succ_pos _
      · have hasks : s.asks? (.caller n) = some .withdrawRequest := by
          rw [asks?, hc]
          rfl
        exact Or.inr (Or.inr (by rw [he, withdraws, hasks]))
  | answer => cases hholds

/-- Who has just offered a record waits, or it comes to hold a request, or one is noted already. -/
theorem due_step (g : CallerSystem) (e : Event) {n : Nat}
    (hc : s.callers[n]? = some ⟨.requestPass, Service.requestPass⟩) :
    (g.step s e).callers[n]? = some ⟨.requestPass, Service.requestPass⟩ ∨
      0 < (g.step s e).held ∨ s.running.requested = true := by
  obtain ⟨p', hc', hmoves⟩ := moves_step g e hc
  generalize hp : Service.requestPass = p at hmoves
  cases hmoves with
  | stays => exact Or.inl (hp ▸ hc')
  | @reply q next a now he hr =>
      cases hp
      obtain rfl : s.running.requested = a := Option.some.inj (Prod.mk.inj hr).1
      cases hrequested : s.running.requested with
      | true => exact Or.inr (Or.inr rfl)
      | false =>
          rw [hrequested] at hc'
          exact Or.inr (Or.inl (List.countP_pos_iff.2 ⟨_, List.mem_of_getElem? hc', rfl⟩))
  | answer => cases hp

/-- What has become of the request of whoever offered a record that left the cache full. -/
inductive CallerSystem.Kept (g : CallerSystem) (n : Nat) (given past : List Event) : Prop
  /-- It is to be noted. -/
  | due (h : (run g.step g.start (given ++ past)).callers[n]?
      = some ⟨.requestPass, Service.requestPass⟩)
  | held (h : 0 < (run g.step g.start (given ++ past)).held)
  | handedOver (h : g.HandsOver given past)
  | takenBack (h : g.TakesBack given past)

/-- Until the worker has ended, a request that is held is not lost. -/
theorem CallerSystem.Kept.of_held {n : Nat}
    (h : 0 < (run g.step g.start (given ++ past)).held) (e : Event) :
    g.Kept n given (past ++ [e]) := by
  obtain ⟨c, hrounds⟩ := rounds_run g (given ++ past)
  have hrun := run_append g.step g.start (given ++ past) [e]
  rw [List.append_assoc] at hrun
  rcases hrounds.held_step e h with hheld | hqueued | he
  · exact .held (hrun ▸ hheld)
  · refine .handedOver ⟨past ++ [e], [], (List.append_nil _).symm, ?_⟩
    exact Nat.add_pos_left (hrun ▸ hqueued) _
  · exact .takenBack ⟨past, e, [], rfl, he⟩

theorem CallerSystem.Kept.next {n : Nat} (h : g.Kept n given past) (e : Event)
    (hruns : (run g.step g.start (given ++ past)).running.hasEnded = false) :
    g.Kept n given (past ++ [e]) := by
  cases h with
  | held h => exact .of_held h e
  | handedOver h => exact .handedOver (h.append [e])
  | takenBack h => exact .takenBack (h.append [e])
  | due h =>
      have hrun := run_append g.step g.start (given ++ past) [e]
      rw [List.append_assoc] at hrun
      rcases due_step g e h with hdue | hheld | hnoted
      · exact .due (hrun ▸ hdue)
      · exact .held (hrun ▸ hheld)
      · obtain ⟨c, hrounds⟩ := rounds_run g (given ++ past)
        have hcount := (hrounds.countsRequests hruns).noted.1 hnoted
        rcases Nat.eq_zero_or_pos (run g.step g.start (given ++ past)).held with hnone | hpos
        · exact .handedOver ⟨past, [e], rfl, by omega⟩
        · exact .of_held hpos e

/-- A worker that has not ended has not ended before. -/
theorem hasEnded_of_append (events later : List Event)
    (hruns : (run g.step g.start (events ++ later)).running.hasEnded = false) :
    (run g.step g.start events).running.hasEnded = false := by
  induction later using List.reverseRecOn with
  | nil => rwa [List.append_nil] at hruns
  | append_singleton later e ih =>
      obtain ⟨c, h⟩ := rounds_run g (events ++ later)
      obtain ⟨c', -, ht⟩ := h.next e
      rw [← List.append_assoc] at hruns
      exact ih (Bool.eq_false_iff.2 fun hended =>
        Bool.eq_false_iff.1 hruns (Running.Turn.hasEnded ht h.worker hended))

theorem kept_run {n : Nat} (h : (run g.step g.start given).callers[n]?
      = some ⟨.requestPass, Service.requestPass⟩) (past : List Event)
    (hruns : (run g.step g.start (given ++ past)).running.hasEnded = false) :
    g.Kept n given past := by
  induction past using List.reverseRecOn with
  | nil =>
      refine .due ?_
      rwa [List.append_nil]
  | append_singleton past e ih =>
      rw [← List.append_assoc] at hruns
      have hbefore := hasEnded_of_append (given ++ past) [e] hruns
      exact (ih hbefore).next e hbefore

/-! ## Waiting -/

/-- Whether a caller has done what it came for. -/
def isDone (s : WithCallers) (n : Nat) : Bool :=
  s.callers[n]?.any fun c => (request? c.program).isNone

/-- A record is admitted and leaves the cache full.  When more has happened, whoever offered it has
done what there is to do about it: a pass was noted as requested already, or it has put the request
into the queue, or it has taken its note back. -/
structure CallerSystem.Admits (g : CallerSystem) (before : List Event) (key : Key) (record : Record)
    (meantime : List Event) : Prop where
  full : ((run g.step g.start before).running.receive key record).1 = (true, true)
  completed : (run g.step g.start (before ++ .offer key record :: meantime)).isDone
    (run g.step g.start before).callers.length = true

/-- Who has offered the record is to note that a pass is requested. -/
theorem CallerSystem.Admits.due {before meantime : List Event} {key : Key} {record : Record}
    (h : g.Admits before key record meantime) :
    (run g.step g.start (before ++ [.offer key record])).callers[
        (run g.step g.start before).callers.length]?
      = some ⟨.requestPass, Service.requestPass⟩ := by
  rw [run_append]
  show ((run g.step g.start before).callers
    ++ (run g.step g.start before).requester key record)[_]? = _
  rw [requester, h.full, if_pos rfl, List.getElem?_concat_length]

theorem CallerSystem.Admits.not_due {before meantime : List Event} {key : Key} {record : Record}
    (h : g.Admits before key record meantime) :
    (run g.step g.start (before ++ [.offer key record] ++ meantime)).callers[
      (run g.step g.start before).callers.length]? ≠ some ⟨.requestPass, Service.requestPass⟩ := by
  intro hdue
  have hdone := h.completed
  rw [List.append_cons, isDone, hdue] at hdone
  cases hdone

/-- Whether a caller came to wait for evictions and has returned. -/
def hasWaited (s : WithCallers) (n : Nat) : Bool :=
  match s.callers[n]? with
  | some ⟨.waitForEvictions, .done _⟩ => true
  | _ => false

theorem hasWaited_iff {n : Nat} :
    s.hasWaited n = true ↔ s.callers[n]? = some ⟨.waitForEvictions, .done ()⟩ := by
  rw [hasWaited]
  constructor
  · intro h
    split at h
    next hc => exact hc
    next => cases h
  · intro h
    rw [h]

/-- A caller comes to wait for evictions, and by the last event it has returned. -/
structure CallerSystem.Waits (g : CallerSystem) (before during : List Event)
    (last : Event) : Prop where
  returned : (run g.step g.start (before ++ .begin .waitForEvictions :: during ++ [last])).hasWaited
    (run g.step g.start before).callers.length = true
  /-- The worker has neither been given up nor ended. -/
  served : (run g.step g.start
    (before ++ .begin .waitForEvictions :: during ++ [last])).running.isServed = true

theorem CallerSystem.Waits.hasEnded {before during : List Event} {last : Event}
    (h : g.Waits before during last) :
    (run g.step g.start (before ++ (.begin .waitForEvictions :: during ++ [last]))).running.hasEnded
      = false := by
  have hserved := h.served
  rw [List.append_assoc] at hserved
  obtain ⟨-, w, hw, hruns⟩ := Running.isServed_iff.1 hserved
  rw [Running.hasEnded_of_worker hw, hruns]

/-- Waiting covers a request that the worker has had before. -/
theorem CallerSystem.Waits.runsPassAfter {meantime during : List Event} {last : Event}
    (h : g.Waits (given ++ meantime) during last) (hrequest : g.HandsOver given meantime) :
    g.RunsPassAfter given (meantime ++ .begin .waitForEvictions :: during) := by
  obtain ⟨hreturned, hserved⟩ := h
  obtain ⟨earlier, between, rfl, hrequest⟩ := hrequest
  have hsplit : given ++ (earlier ++ between) ++ .begin .waitForEvictions :: during
      = given ++ earlier ++ (between ++ .begin .waitForEvictions :: during) := by
    simp only [List.append_assoc]
  rw [hsplit] at hreturned hserved
  obtain ⟨hw, hpending⟩ := pending_run g (given ++ earlier)
    (between ++ .begin .waitForEvictions :: during) hrequest
  rcases hpending ((worker_next g _ last hw).2 hserved) with
    ⟨first, pass, later, hevents, hpass⟩ | ⟨c, h⟩
  · refine ⟨earlier ++ first, pass, later, ?_, ?_⟩
    · rw [List.append_assoc, hevents]
      simp only [List.append_assoc]
    · rwa [← List.append_assoc]
  · -- the caller would still wait
    have hcount : (run g.step g.start (given ++ earlier)).callers.length
        ≤ (run g.step g.start (given ++ (earlier ++ between))).callers.length := by
      rw [← List.append_assoc, run_append g.step g.start (given ++ earlier)]
      exact length_callers_run g _ between
    have hlate := (h.next last hw hserved).1
    cases hlate.callers _ hcount (.done ()) (hasWaited_iff.1 hreturned)

/-- Until the worker has ended, the note that a pass is requested stands for one request.  And when
a caller returns that waited for evictions, with the worker neither given up nor ended, then for
every admission that was completed before the caller came and left the cache full, the worker has
run a whole pass that began after the admission and was over before the return.  The exceptions are
requests that the worker did not have when the caller came, since whoever had noted one for several
had not put it into the queue, or had taken the note back. -/
theorem requests_covered (g : CallerSystem) :
    (∀ events, (run g.step g.start events).running.hasEnded = false →
      (run g.step g.start events).CountsRequests) ∧
    ∀ before key record meantime during last, g.Admits before key record meantime →
      g.Waits (before ++ .offer key record :: meantime) during last →
      g.RunsPassAfter (before ++ [.offer key record])
          (meantime ++ .begin .waitForEvictions :: during) ∨
        ¬ g.HandsOver (before ++ [.offer key record]) meantime ∧
          (0 < (run g.step g.start (before ++ .offer key record :: meantime)).held ∨
            g.TakesBack (before ++ [.offer key record]) meantime) := by
  constructor
  · intro events hruns
    obtain ⟨c, h⟩ := rounds_run g events
    exact h.countsRequests hruns
  · intro before key record meantime during last hadmits hwaits
    have hruns := hasEnded_of_append _ _ hwaits.hasEnded
    rw [List.append_cons] at hwaits hruns
    by_cases hrequest : g.HandsOver (before ++ [.offer key record]) meantime
    · exact Or.inl (hwaits.runsPassAfter hrequest)
    · refine Or.inr ⟨hrequest, ?_⟩
      rw [List.append_cons]
      cases kept_run hadmits.due meantime hruns with
      | due h => exact absurd h hadmits.not_due
      | held h => exact Or.inl h
      | handedOver h => exact absurd h hrequest
      | takenBack h => exact Or.inr h

/-- A requested pass is under way, and has looked at the cache. -/
def passUnderWay : List Event :=
  [.call .init, .go .worker 0, .go .worker 0, .offer (.hash [1]) (.ofBytes .transaction [1]),
    .go (.caller 0) 0, .go (.caller 0) 0, .go .worker 0, .go .worker 0, .go .worker 0]

/-- A caller that has come leaves its mark, and the worker ends its pass, runs another one, and
takes up the mark. -/
def secondPass : List Event :=
  [.go (.caller 2) 0, .go (.caller 2) 0, .go (.caller 2) 0,
    .answer .worker .done, .go .worker 0, .go .worker 0, .go .worker 0,
    .go .worker 0, .go .worker 0, .go .worker 0,
    .answer .worker .done, .go .worker 0, .go .worker 0, .go .worker 0,
    .go .worker 0, .go .worker 0]

/-- A record that is admitted when the pass has looked already is covered by another pass. -/
theorem requests_covered_secondPass :
    (run CallerSystem.single.step CallerSystem.single.start passUnderWay).CountsRequests ∧
    CallerSystem.single.RunsPassAfter
      (passUnderWay ++ [.offer (.hash [2]) (.ofBytes .transaction [2])])
      ([.go (.caller 1) 0, .go (.caller 1) 0] ++ .begin .waitForEvictions :: secondPass) := by
  obtain ⟨hcounts, hcovers⟩ := requests_covered CallerSystem.single
  refine ⟨hcounts passUnderWay (by decide +kernel), ?_⟩
  have hrequest : CallerSystem.single.HandsOver
      (passUnderWay ++ [.offer (.hash [2]) (.ofBytes .transaction [2])])
      [.go (.caller 1) 0, .go (.caller 1) 0] :=
    ⟨[.go (.caller 1) 0, .go (.caller 1) 0], [], rfl, by decide +kernel⟩
  refine (hcovers passUnderWay _ _ _ secondPass (.go (.caller 2) 0) ?_ ?_).resolve_right
    fun h => h.1 hrequest
  · exact ⟨by decide +kernel, by decide +kernel⟩
  · exact ⟨by decide +kernel, by decide +kernel⟩

/-- Whether the worker is about to look at the cache for a pass. -/
def looks (s : WithCallers) : Bool :=
  match s.asks? .worker with
  | some .beginEviction => true
  | _ => false

/-- A pass begins with a look at the cache. -/
theorem CallerSystem.RunsPassAfter.looks {events : List Event} (h : g.RunsPassAfter given events) :
    ∃ earlier ∈ events.inits, (run g.step g.start (given ++ earlier)).looks = true := by
  obtain ⟨earlier, pass, later, rfl, hbegun, -⟩ := h
  refine ⟨earlier, (List.mem_inits _ _).2 ⟨pass ++ later, (List.append_assoc _ _ _).symm⟩, ?_⟩
  rw [WithCallers.looks, asks?, hbegun]
  rfl

/-- A caller has noted that a pass is requested, and has not put the request into the queue. -/
def notedOnly : List Event :=
  [.call .init, .go .worker 0, .go .worker 0, .offer (.hash [1]) (.ofBytes .transaction [1]),
    .go (.caller 0) 0]

/-- A caller that has come to wait leaves its mark, and the worker takes up the mark. -/
def markOnly : List Event :=
  [.go (.caller 2) 0, .go (.caller 2) 0, .go (.caller 2) 0, .go .worker 0, .go .worker 0]

/-- A request is in the queue behind a pass that is under way when a shutdown gives the worker up,
and a caller comes to wait. -/
def givenUp : List Event :=
  passUnderWay ++ [.offer (.hash [2]) (.ofBytes .transaction [2]), .go (.caller 1) 0,
    .go (.caller 1) 0, .begin .shutdown, .go (.caller 2) 0, .go (.caller 2) 0,
    .begin .waitForEvictions, .go (.caller 3) 0]

/-- The note that a pass is requested may be there when no request is in the queue.  Then an
admission relies on the note, and whoever waits for evictions returns when no pass has been run.
Whoever comes when a shutdown has given the worker up returns at once, while a request is in the
queue. -/
theorem not_covered_of_notedOnly :
    (¬ ∀ (g : CallerSystem) (events : List Event),
      (run g.step g.start events).running.isServed = true →
      ((run g.step g.start events).running.requested = true ↔
        (run g.step g.start events).running.queued = 1)) ∧
    (¬ ∀ (g : CallerSystem) (before : List Event) (key : Key) (record : Record)
      (meantime during : List Event) (last : Event), g.Admits before key record meantime →
      ¬ g.TakesBack (before ++ [.offer key record]) meantime →
      g.Waits (before ++ .offer key record :: meantime) during last →
      g.RunsPassAfter (before ++ [.offer key record])
        (meantime ++ .begin .waitForEvictions :: during)) ∧
    (run CallerSystem.single.step CallerSystem.single.start givenUp).hasWaited 3 = true ∧
      (run CallerSystem.single.step CallerSystem.single.start givenUp).running.hasEnded = false ∧
      (run CallerSystem.single.step CallerSystem.single.start givenUp).running.queued = 1 := by
  refine ⟨?_, ?_, by decide +kernel, by decide +kernel, by decide +kernel⟩
  · intro hclaim
    have hqueued := (hclaim CallerSystem.single notedOnly (by decide +kernel)).1 (by decide +kernel)
    revert hqueued
    decide +kernel
  · intro hclaim
    have hkept : ¬ CallerSystem.single.TakesBack
        (notedOnly ++ [.offer (.hash [2]) (.ofBytes .transaction [2])]) [.go (.caller 1) 0] := by
      rintro ⟨earlier, e, later, heq, he⟩
      cases earlier with
      | nil =>
          cases heq
          revert he
          decide +kernel
      | cons first earlier => cases earlier <;> cases heq
    have hpass := hclaim CallerSystem.single notedOnly (.hash [2]) (.ofBytes .transaction [2])
      [.go (.caller 1) 0] markOnly (.go (.caller 2) 0) ⟨by decide +kernel, by decide +kernel⟩ hkept
      ⟨by decide +kernel, by decide +kernel⟩
    have hlooks := hpass.looks
    revert hlooks
    decide +kernel

end WithCallers

end Cache

end RecordStore
