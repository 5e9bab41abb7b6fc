import RecordStore.Proofs.Cache.Barriers
import RecordStore.Proofs.Cache.Replies

/-!
# How long the worker attends to tickets

A worker that was created stays, with the period that the cache was configured with.  It ends for
two reasons only: it took up the request to stop, which a shutdown makes when it has closed the
cache, or its period is zero (`Running.Terms`).  As long as it has not ended, a ticket that was
handed over is in the queue, or the worker is busy with it, or there is a reply to it.

A cache is closed just if a caller that shuts it down has got on
(`WithCallers.closed_iff_callsShutdown`).
-/

namespace RecordStore

namespace Cache

open Service (Prog)

theorem Course.ofEvent_eq_stopping {e : Worker.Event Task} (h : Course.ofEvent e = .stopping) :
    e = .stop := by
  cases e with
  | task task => cases task <;> cases h
  | tick => cases h
  | stop => rfl

/-- A worker takes up the request to stop only when it was asked to stop. -/
theorem stopping_of_ready {w : Worker Task} {now : Nat} (h : .stop ∈ w.ready now) :
    w.stopping = true := by
  simp only [Worker.ready, List.mem_append, List.mem_map] at h
  rcases h with (⟨task, -, h⟩ | h) | h
  · cases h
  · split at h <;> simp at h
  · split at h
    next hstopping => exact hstopping
    next => cases h

namespace Running

variable {r r' : Running} {held held' : Nat} {c c' : Course} {interval ticket : Nat}
  {w w' : Worker Task} {q : Request}

/-! ## The life of the worker -/

theorem Turn.closed (h : r.Turn held c r' held' c') (hclosed : r.cache.closed = true) :
    r'.cache.closed = true := by
  cases h with
  | apart cache hkept | lead cache hkept => exact hkept hclosed
  | _ => exact hclosed

/-- On what terms a worker works: its period is the configured one, and it stops and ends for no
other reasons than that the cache was closed or that the period is zero. -/
structure Terms (interval : Nat) (closed : Bool) (w : Worker Task) : Prop where
  period : w.period = some interval
  stopping : w.stopping = true → closed = true
  ended : w.hasEnded = true → closed = true ∨ interval = 0

/-- The terms do not depend on the queue and on the line of callers. -/
theorem Terms.keep {closed closed' : Bool} (h : Terms interval closed w)
    (hclosed : closed = true → closed' = true) (hperiod : w'.period = w.period)
    (hstopping : w'.stopping = w.stopping) (hended : w'.hasEnded = true → w.hasEnded = true) :
    Terms interval closed' w' where
  period := hperiod.trans h.period
  stopping hw := hclosed (h.stopping (hstopping ▸ hw))
  ended hw := (h.ended (hended hw)).imp hclosed id

theorem Terms.begin {closed : Bool} (h : Terms interval closed w) (now : Nat) :
    Terms interval closed (w.begin now) := by
  rcases w.begin_cases now with ⟨hzero, hbegin⟩ | ⟨-, due, hbegin⟩ <;> rw [hbegin]
  · have hinterval : interval = 0 := Option.some.inj (h.period.symm.trans hzero)
    exact ⟨h.period, h.stopping, fun _ => Or.inr hinterval⟩
  · exact h.keep id rfl rfl nofun

theorem Terms.take {closed : Bool} (h : Terms interval closed w) (now : Nat)
    (e : Worker.Event Task) : Terms interval closed (w.take now e) := by
  cases e with
  | task task | tick | stop => exact h.keep id rfl rfl nofun

/-- What is true of the worker at any time, beside what its queue and its tickets satisfy. -/
structure Attended (interval : Nat) (r : Running) (c : Course) : Prop where
  retryInterval : r.retryInterval = interval
  attached : r.attached = true → r.worker.isSome = true
  terms : ∀ {w : Worker Task}, r.worker = some w → Terms interval r.cache.closed w
  stopping : c = .stopping → r.cache.closed = true
  /-- The worker is busy with the task whose ticket it deals with. -/
  busy : ∀ {ticket : Nat}, c.ticket? = some ticket → ∃ w task, r.worker = some w ∧
    w.phase = .busy (.task task) ∧ task.ticket? = some ticket

namespace Attended

theorem ofConfig (config : Config) : (ofConfig config).Attended config.retryInterval .fresh where
  retryInterval := rfl
  attached h := by cases h
  terms hw := by cases hw
  stopping h := by cases h
  busy h := by cases h

variable (h : r.Attended interval c) (hd : r.WorkerInvariant held c)
    (ht : r.Turn held c r' held' c')
include h ht

theorem attached_turn (hattached : r'.attached = true) : r'.worker.isSome = true := by
  cases ht with
  | apart | note | withdraw | draw | fetch | lead | clear | answer => exact h.attached hattached
  | finish => exact Option.isSome_map.trans (h.attached hattached)
  | detach => cases hattached
  | start | queue | submit | line | begin | idle | take => rfl

theorem terms_turn (hw' : r'.worker = some w') : Terms interval r'.cache.closed w' := by
  cases ht with
  | apart cache hclosed | lead cache hclosed => exact (h.terms hw').keep hclosed rfl rfl id
  | note | withdraw | draw | fetch | clear | answer => exact h.terms hw'
  | start =>
      cases hw'
      exact ⟨congrArg some h.retryInterval, nofun, nofun⟩
  | queue hw hruns | submit waiting hw hruns | line waiting hw =>
      cases hw'
      exact (h.terms hw).keep id rfl rfl id
  | idle hw =>
      cases hw'
      exact (h.terms hw).keep id rfl rfl nofun
  | begin now hw =>
      cases hw'
      exact (h.terms hw).begin now
  | take hw =>
      cases hw'
      exact (h.terms hw).take _ _
  | detach hclosed =>
      obtain ⟨w, hw, rfl⟩ := Option.map_eq_some_iff.1 hw'
      exact ⟨(h.terms hw).period, fun _ => hclosed, (h.terms hw).ended⟩
  | finish =>
      obtain ⟨w, hw, rfl⟩ := Option.map_eq_some_iff.1 hw'
      exact ⟨(h.terms hw).period, fun _ => h.stopping rfl, fun _ => Or.inl (h.stopping rfl)⟩

theorem stopping_turn (hc' : c' = .stopping) : r'.cache.closed = true := by
  have hkept := ht.closed
  cases ht with
  | @take _ w e now hw hruns he =>
      obtain rfl := Course.ofEvent_eq_stopping hc'
      exact (h.terms hw).stopping (stopping_of_ready he)
  | lead cache hclosed hleads =>
      subst hc'
      generalize hc' : Course.stopping = c' at hleads
      cases hleads with
      | skip ticket? | conclude ticket? => cases ticket? <;> cases hc'
      | _ => cases hc'
  | begin | idle | clear | answer | finish => cases hc'
  | _ => exact hkept (h.stopping hc')

include hd

theorem busy_turn (hticket : c'.ticket? = some ticket) : ∃ w task, r'.worker = some w ∧
    w.phase = .busy (.task task) ∧ task.ticket? = some ticket := by
  cases ht with
  | apart | note | withdraw | draw | fetch => exact h.busy hticket
  | lead cache hclosed hleads => exact h.busy (hleads.ticket?_eq ▸ hticket)
  | start hopen hdetached =>
      rw [hd.vacant (hd.eq_none hopen hdetached)] at hticket
      cases hticket
  | queue hw | submit waiting hw | line waiting hw =>
      obtain ⟨w, task, hw', hphase, htask⟩ := h.busy hticket
      cases hw.symm.trans hw'
      exact ⟨_, task, rfl, hphase, htask⟩
  | detach =>
      obtain ⟨w, task, hw, hphase, htask⟩ := h.busy hticket
      exact ⟨w.stop, task, congrArg (Option.map Worker.stop) hw, hphase, htask⟩
  | take hw hruns he =>
      obtain ⟨task, rfl, htask⟩ := Course.ticket?_ofEvent _ hticket
      exact ⟨_, task, rfl, rfl, htask⟩
  | begin | idle | clear | answer | finish => cases hticket

theorem turn : r'.Attended interval c' where
  retryInterval := by
    have hinterval := h.retryInterval
    cases ht with
    | _ => exact hinterval
  attached := h.attached_turn ht
  terms := h.terms_turn ht
  stopping := h.stopping_turn ht
  busy := h.busy_turn hd ht

end Attended

/-! ## Tickets that are known -/

/-- The worker comes to deal with a ticket when it takes the task from its queue. -/
theorem Turn.taken (h : r.Turn held c r' held' c') (hc' : c'.ticket? = some ticket) :
    c.ticket? = some ticket ∨ ∃ w task, r.worker = some w ∧ task ∈ w.queue ∧
      task.ticket? = some ticket ∧ c' = .ofEvent (.task task) := by
  cases h with
  | lead cache hclosed hleads => exact Or.inl (hleads.ticket?_eq ▸ hc')
  | take hw hruns he =>
      obtain ⟨task, rfl, hticket⟩ := Course.ticket?_ofEvent _ hc'
      refine Or.inr ⟨_, task, hw, ?_, hticket, rfl⟩
      rw [Worker.queue_of_ready he]
      exact List.mem_cons_self
  | begin | clear | answer | finish => cases hc'
  | _ => exact Or.inl hc'

theorem Attended.of_hasEnded (h : r.Attended interval c) (hended : r.hasEnded = true) :
    r.cache.closed = true ∨ interval = 0 := by
  obtain ⟨w, hw, hended⟩ := hasEnded_iff.1 hended
  exact (h.terms hw).ended hended

/-- A task in the queue stays there, or the worker takes it up, or the worker ends. -/
theorem Turn.queued (ht : r.Turn held c r' held' c') (hd : r.WorkerInvariant held c) {task : Task}
    (hw : r.worker = some w) (htask : task ∈ w.queue) (hticket : task.ticket? = some ticket) :
    r'.Knows c' ticket ∨ r'.hasEnded = true := by
  cases ht with
  | apart | note | withdraw | draw | fetch | lead | clear | answer =>
      exact Or.inl (.queued hw htask hticket)
  | start hopen hdetached =>
      rw [hd.eq_none hopen hdetached] at hw
      cases hw
  | queue hw' | submit waiting hw' =>
      cases hw.symm.trans hw'
      exact Or.inl (.queued rfl (List.mem_append_left _ htask) hticket)
  | line waiting hw' | idle hw' =>
      cases hw.symm.trans hw'
      exact Or.inl (.queued rfl htask hticket)
  | detach =>
      exact Or.inl (.queued (congrArg (Option.map Worker.stop) hw) htask hticket)
  | begin now hw' =>
      cases hw.symm.trans hw'
      cases hruns : (w.begin now).hasEnded with
      | true => exact Or.inr hruns
      | false => exact Or.inl (.queued rfl (queue_begin hruns ▸ htask) hticket)
  | take hw' hruns he =>
      cases hw.symm.trans hw'
      rcases queue_take he with ⟨head, rfl, hqueue⟩ | ⟨-, hqueue⟩
      · rw [hqueue] at htask
        rcases List.mem_cons.1 htask with rfl | hrest
        · refine Or.inl (.handled ?_)
          cases task <;> exact hticket
        · exact Or.inl (.queued rfl hrest hticket)
      · exact Or.inl (.queued rfl (hqueue ▸ htask) hticket)
  | finish =>
      exact Or.inr (hasEnded_iff.2 ⟨w.finish, congrArg (Option.map Worker.finish) hw, rfl⟩)

/-- The worker deals with a ticket until it has replied. -/
theorem Turn.dealt (h : r.Turn held c r' held' c') (hticket : c.ticket? = some ticket) :
    r'.Knows c' ticket := by
  cases h with
  | lead cache hclosed hleads => exact .handled (hleads.ticket?_eq.trans hticket)
  | @answer _ ticket' outcome =>
      obtain rfl := Option.some.inj hticket
      exact .replied (p := (ticket', outcome)) (List.mem_append_right _ (List.mem_singleton_self _))
  | begin | idle | take | clear | finish => cases hticket
  | _ => exact .handled hticket

/-! ## Events that spare a ticket -/

/-- What happens spares a ticket: nobody hands over a task under it, and nobody fetches a reply to
it.  Nobody replies but the worker, if that is what it asks. -/
structure Spares (r : Running) (asked? : Option Request) (r' : Running) (ticket : Nat) : Prop where
  queue : ∀ {w' : Worker Task} {task : Task}, r'.worker = some w' → task ∈ w'.queue →
    task.ticket? = some ticket → ∃ w, r.worker = some w ∧ task ∈ w.queue
  kept : ∀ {p : Nat × Except Error Nat}, p ∈ r.replies → p.1 = ticket → p ∈ r'.replies
  told : ∀ {p : Nat × Except Error Nat}, p ∈ r'.replies →
    p ∈ r.replies ∨ asked? = some (.answer p.1 p.2)

namespace Spares

variable {asked? : Option Request} {now caller : Nat}

theorem of_same (hworker : r'.worker = r.worker) (hreplies : r'.replies = r.replies) :
    r.Spares asked? r' ticket where
  queue hw htask _ := ⟨_, hworker ▸ hw, htask⟩
  kept hp _ := hreplies ▸ hp
  told hp := Or.inl (hreplies ▸ hp)

/-- The worker changes, and no task comes into its queue under the ticket. -/
theorem of_queue (hw : r.worker = some w) (hw' : r'.worker = some w')
    (hqueue : ∀ task ∈ w'.queue, task.ticket? = some ticket → task ∈ w.queue)
    (hreplies : r'.replies = r.replies) : r.Spares asked? r' ticket where
  queue hw₀ htask hticket := by
    cases hw'.symm.trans hw₀
    exact ⟨w, hw, hqueue _ htask hticket⟩
  kept hp _ := hreplies ▸ hp
  told hp := Or.inl (hreplies ▸ hp)

theorem of_isApart (hq : q.isApart = true) :
    r.Spares asked? (r.reply? caller now q).2 ticket := by
  rw [r.reply?_of_isApart caller now hq]
  exact .of_same rfl rfl

theorem perform {call : Call} (hcall : WithCallers.isPlain call = true) :
    r.Spares asked? (r.perform call).2 ticket := by
  cases call with
  | init =>
      show r.Spares asked? r.start.2 ticket
      simp only [Running.start]
      split
      · exact .of_same rfl rfl
      · split
        · exact .of_same rfl rfl
        · exact ⟨fun hw htask => (by cases hw; cases htask), fun hp _ => hp, Or.inl⟩
  | save | saveBatch | update | deleteBatch | shutdown => cases hcall
  | _ => exact .of_same rfl rfl

theorem take {e : Worker.Event Task} (hw : r.worker = some w) (he : e ∈ w.ready now) :
    r.Spares asked? { r with worker := some (w.take now e) } ticket := by
  refine .of_queue hw rfl (fun task htask _ => ?_) rfl
  rcases queue_take he with ⟨head, -, hqueue⟩ | ⟨-, hqueue⟩
  · rw [hqueue]
    exact List.mem_cons_of_mem _ htask
  · exact hqueue ▸ htask

/-- The worker goes on with its duty. -/
theorem of_duty {d : Duty} {state : Reply q → Duty} (hasks : Duty.Asks d q state) :
    r.Spares (some q) (r.reply? caller now q).2 ticket := by
  cases hasks with
  | begin =>
      simp only [reply?]
      split
      next w hw => exact .of_queue hw rfl (fun task htask _ => mem_queue_begin htask) rfl
      next => exact .of_same rfl rfl
  | next =>
      simp only [reply?]
      split
      next w hw =>
        split
        · exact .of_same rfl rfl
        · rcases w.next_cases now with ⟨e, he, hnext⟩ | hnext <;> simp only [hnext]
          · exact .take hw he
          · exact .of_queue hw rfl (fun task htask _ => htask) rfl
      next => exact .of_same rfl rfl
  | reply ticket' outcome =>
      refine ⟨fun hw htask _ => ⟨_, hw, htask⟩, fun hp _ => List.mem_append_left _ hp, ?_⟩
      intro p hp
      rcases List.mem_append.1 hp with hold | hnew
      · exact Or.inl hold
      · rw [List.mem_singleton.1 hnew]
        exact Or.inr rfl
  | clear => exact .of_same rfl rfl
  | finish =>
      refine ⟨fun hw' htask _ => ?_, fun hp _ => hp, Or.inl⟩
      obtain ⟨w, hw, rfl⟩ := Option.map_eq_some_iff.1 hw'
      cases htask
  | fail | check | look | drop => exact .of_isApart rfl
  | pass hpass =>
      cases hpass with
      | save | finish | delete => exact .of_isApart rfl

/-- A caller goes on, and it has another ticket, or it has to wait. -/
theorem of_asks {d : Dealing} {state : Reply q → Dealing} (hasks : Errand.Asks d q state)
    (hother : d.ticket? = some ticket → (r.reply? caller now q).1 = none) :
    r.Spares asked? (r.reply? caller now q).2 ticket := by
  cases hasks with
  | apart hq => exact .of_isApart hq
  | draw | note | withdraw => exact .of_same rfl rfl
  | queue =>
      show r.Spares asked? r.queueRequest.2 ticket
      rcases r.queueRequest_cases with hqueue | ⟨w, hw, -, hqueue⟩ <;> rw [hqueue]
      · exact .of_same rfl rfl
      · refine .of_queue hw rfl (fun task htask hticket => ?_) rfl
        rcases List.mem_append.1 htask with hold | hnew
        · exact hold
        · rw [List.mem_singleton.1 hnew] at hticket
          cases hticket
  | detach =>
      refine ⟨fun hw' htask _ => ?_, fun hp _ => hp, Or.inl⟩
      obtain ⟨w, hw, rfl⟩ := Option.map_eq_some_iff.1 hw'
      exact ⟨w, hw, htask⟩
  | @submit task ticket' hticket =>
      simp only [reply?] at hother ⊢
      cases hw : r.worker with
      | none =>
          rw [r.submit?_of_none hw]
          exact .of_same rfl rfl
      | some w =>
          rw [r.submit?_of_worker hw] at hother ⊢
          have hgets := w.gets_submit caller task
          generalize w.submit caller task = answer at hgets hother ⊢
          obtain ⟨a, w'⟩ := answer
          simp only at hgets
          cases hgets with
          | accepts waiting hruns =>
              refine .of_queue hw rfl (fun task' htask' hticket' => ?_) rfl
              rcases List.mem_append.1 htask' with hold | hnew
              · exact hold
              · rw [List.mem_singleton.1 hnew, hticket] at hticket'
                cases hother hticket'
          | defers | hasEnded => exact .of_queue hw rfl (fun task htask _ => htask) rfl
          | isFull => exact .of_queue hw rfl (fun task htask _ => htask) rfl
  | @await ticket' =>
      simp only [reply?, await?] at hother ⊢
      split
      next hfound =>
        have hne : ticket' ≠ ticket := by
          rintro rfl
          have hnone := hother rfl
          simp only [hfound] at hnone
          cases hnone
        refine ⟨fun hw htask _ => ⟨_, hw, htask⟩, fun hp hticket => ?_, fun hp => ?_⟩
        · refine List.mem_filter.2 ⟨hp, ?_⟩
          rw [hticket, bne_iff_ne]
          exact hne.symm
        · exact Or.inl (List.mem_of_mem_filter hp)
      next =>
        split
        · split <;> exact .of_same rfl rfl
        · exact .of_same rfl rfl

end Spares

/-- While a ticket is spared, what nobody knows of it stays unknown. -/
theorem Turn.unknown {asked? : Option Request} (ht : r.Turn held c r' held' c')
    (hspares : r.Spares asked? r' ticket) (h : ¬ r.Knows c ticket) : ¬ r'.Knows c' ticket := by
  intro hk
  apply h
  cases hk with
  | queued hw' htask hticket =>
      obtain ⟨w, hw, htask⟩ := hspares.queue hw' htask hticket
      exact .queued hw htask hticket
  | handled hc' =>
      rcases ht.handled hc' with hc | ⟨w, task, hw, htask, hticket⟩
      · exact .handled hc
      · exact .queued hw htask hticket
  | replied hp =>
      rcases ht.replied hp with hold | hc
      · exact .replied hold
      · exact .handled hc

/-- While a ticket is spared, the worker attends to it until there is a reply, or it ends. -/
theorem Turn.known {asked? : Option Request} (ht : r.Turn held c r' held' c')
    (hd : r.WorkerInvariant held c)
    (hspares : r.Spares asked? r' ticket) (h : r.Knows c ticket ∨ r.hasEnded = true) :
    r'.Knows c' ticket ∨ r'.hasEnded = true := by
  rcases h with hk | hended
  · cases hk with
    | queued hw htask hticket => exact ht.queued hd hw htask hticket
    | handled hc => exact Or.inl (ht.dealt hc)
    | replied hp => exact Or.inl (.replied (hspares.kept hp rfl))
  · exact Or.inr (ht.hasEnded hd hended)

/-! ## What a caller with a ticket is told -/

theorem isLive_of_busy {task : Task} (hphase : w.phase = .busy (.task task))
    (hticket : task.ticket? = some ticket) : isLive w ticket = true := by
  simp [isLive, hphase, hticket]

/-- Who waits for a reply gets one, unless the worker has ended. -/
theorem await?_cases (h : r.Attended interval c)
    (hknown : r.Knows c ticket ∨ r.hasEnded = true) {reply : Option (Except Error Nat)}
    (hr : r.await? ticket = (some reply, r')) :
    (∃ p ∈ r.replies, p.1 = ticket ∧ reply = some p.2) ∨ reply = none ∧ r.hasEnded = true := by
  simp only [await?] at hr
  split at hr
  next p hfound =>
    cases hr
    have hticket := List.find?_some hfound
    exact Or.inl ⟨p, List.mem_of_find?_eq_some hfound, beq_iff_eq.1 hticket, rfl⟩
  next hnone =>
    have hreplied : ∀ p ∈ r.replies, p.1 ≠ ticket := fun p hp heq =>
      List.find?_eq_none.1 hnone p hp (beq_iff_eq.2 heq)
    have hreply : reply = none := by
      split at hr
      · split at hr <;> cases hr
        rfl
      · cases hr
        rfl
    refine Or.inr ⟨hreply, hknown.resolve_left fun hk => ?_⟩
    cases hk with
    | queued hw htask hticket =>
        simp only [hw, isLive_of_mem htask hticket, if_true] at hr
        cases hr
    | handled hc =>
        obtain ⟨w, task, hw, hphase, htask⟩ := h.busy hc
        simp only [hw, isLive_of_busy hphase htask, if_true] at hr
        cases hr
    | replied hp => exact hreplied _ hp rfl

end Running

/-- A caller that goes on does not come to have a ticket that was drawn before. -/
theorem Errand.Asks.ne {r r' : Running} {q : Request} {d : Dealing} {state : Reply q → Dealing}
    (hasks : Errand.Asks d q state) {ticket caller now : Nat} (hd : d.ticket? ≠ some ticket)
    (hdrawn : ticket < r.nextTicket) {a : Reply q} (hr : r.reply? caller now q = (some a, r')) :
    (state a).ticket? ≠ some ticket := by
  cases hasks with
  | draw =>
      cases hr
      intro heq
      obtain rfl := Option.some.inj heq
      exact Nat.lt_irrefl _ hdrawn
  | note | queue => cases a <;> exact nofun
  | withdraw => exact nofun
  | _ => exact hd

namespace WithCallers

variable {g : CallerSystem} {s : WithCallers} {c c' : Course} {e : Event} {n ticket : Nat}

/-! ## Tickets of one caller -/

/-- A ticket was drawn, and nobody but one caller has it. -/
structure Owns (s : WithCallers) (n ticket : Nat) : Prop where
  drawn : ticket < s.running.nextTicket
  others : ∀ (m : Nat) (caller : Caller), m ≠ n → s.callers[m]? = some caller →
    ∃ d : Dealing, d.ticket? ≠ some ticket ∧ caller.program.Obeys Errand.Asks Errand.Ends d

/-- A ticket that is drawn is new to everybody. -/
theorem Rounds.owns (h : s.Rounds g c) (n : Nat) {s' : WithCallers}
    (hnext : s'.running.nextTicket = s.running.nextTicket + 1)
    (hcallers : ∀ m, m ≠ n → s'.callers[m]? = s.callers[m]?) :
    s'.Owns n s.running.nextTicket where
  drawn := by omega
  others m caller hm hc := by
    rw [hcallers m hm] at hc
    obtain ⟨d, hobeys, hdrawn⟩ := h.callers caller (List.mem_of_getElem? hc)
    exact ⟨d, fun hd => Nat.lt_irrefl _ (hdrawn _ hd), hobeys⟩

/-- A caller that has a ticket to itself keeps it. -/
theorem Owns.step (h : s.Owns n ticket) (ht : s.WorkerTurn c (g.step s e) c') :
    (g.step s e).Owns n ticket where
  drawn := Nat.lt_of_lt_of_le h.drawn ht.nextTicket_le
  others m caller hm hc := by
    cases stems_step hc with
    | old hold => exact h.others m caller hm hold
    | requester => exact ⟨.due, nofun, Errand.obeys_asks g.backendName .requestPass⟩
    | comes errand =>
        exact ⟨_, errand.ticket?_outset ▸ nofun, Errand.obeys_asks g.backendName errand⟩
    | goes hold hr =>
        obtain ⟨d, hd, state, hasks, hnext⟩ := h.others m _ hm hold
        exact ⟨_, hasks.ne hd h.drawn hr, hnext _⟩
    | answered verdict hold =>
        obtain ⟨d, hd, state, hasks, hnext⟩ := h.others m _ hm hold
        cases hasks with
        | apart => exact ⟨_, hd, hnext _⟩

/-- The worker asks what its duty is. -/
theorem Staged.exists_duty {stage : Nat → Stage} (h : s.Staged g stage) {q : Request}
    (hq : s.asks? .worker = some q) : ∃ d state, Duty.Asks d q state := by
  obtain ⟨next, hw⟩ := asks?_worker hq
  obtain ⟨d, hobeys, -⟩ := h.worker
  rw [hw] at hobeys
  obtain ⟨state, hasks, -⟩ := hobeys
  exact ⟨d, state, hasks⟩

/-- An event spares the ticket of a caller, unless the caller gets a reply. -/
theorem Owns.spares (h : s.Owns n ticket) (hrounds : s.Rounds g c)
    {stage : Nat → Stage} (hstaged : s.Staged g stage)
    (hwaits : ∀ now, e = .go (.caller n) now → ∀ q, s.asks? (.caller n) = some q →
      (s.running.reply? (n + 1) now q).1 = none) :
    s.running.Spares (s.asks? .worker) (g.step s e).running ticket := by
  cases e with
  | offer key record => exact .of_same rfl rfl
  | call call =>
      simp only [CallerSystem.step]
      split
      next hcall => exact .perform hcall
      next => exact .of_same rfl rfl
  | own | begin => exact .of_same rfl rfl
  | take e now =>
      simp only [CallerSystem.step, WithCallers.take]
      split
      next next w hworker hw =>
        split
        next hready =>
          simp only [Bool.and_eq_true, List.contains_iff_mem] at hready
          exact .take hw hready.2
        next => exact .of_same rfl rfl
      next => exact .of_same rfl rfl
  | answer party verdict =>
      rw [step_answer]
      show s.running.Spares _ (s.hear party verdict.outcome).running ticket
      rw [running_hear]
      exact .of_same rfl rfl
  | go party now =>
      rw [running_go]
      cases hq : s.asks? party with
      | none => exact .of_same rfl rfl
      | some q =>
          cases party with
          | worker =>
              obtain ⟨d, state, hasks⟩ := hstaged.exists_duty hq
              rw [hq]
              exact .of_duty hasks
          | caller m =>
              obtain ⟨errand, next, hc⟩ := asks?_caller hq
              by_cases hm : m = n
              · subst hm
                obtain ⟨d, ⟨state, hasks, -⟩, -⟩ := hrounds.callers _ (List.mem_of_getElem? hc)
                exact .of_asks hasks fun _ => hwaits now rfl q hq
              · obtain ⟨d, hd, state, hasks, -⟩ := h.others m _ hm hc
                exact .of_asks hasks fun heq => absurd heq hd

/-- The worker keeps to its rounds and to its terms. -/
theorem attended_run (g : CallerSystem) (events : List Event) :
    ∃ c, (run g.step g.start events).Rounds g c ∧
    (run g.step g.start events).running.Attended g.config.retryInterval c := by
  induction events using List.reverseRecOn with
  | nil => exact ⟨.fresh, .start g, .ofConfig g.config⟩
  | append_singleton events e ih =>
      obtain ⟨c, hrounds, hattended⟩ := ih
      obtain ⟨c', hrounds', ht⟩ := hrounds.next e
      exact ⟨c', hrounds', hattended.turn hrounds.worker ht⟩

end WithCallers

/-! ## Who closes the cache -/

/-- Nothing but a request to close it closes a cache. -/
theorem Running.closed_reply?_of_ne (r : Running) (caller now : Nat) {q : Request}
    (hclose : q ≠ .close) (hperform : ∀ call, q ≠ .perform call) :
    (r.reply? caller now q).2.cache.closed = r.cache.closed := by
  cases q with
  | perform call => exact absurd rfl (hperform call)
  | close => exact absurd rfl hclose
  | receive key record => exact closed_receive r key record
  | beginEviction =>
      rcases r.cache.beginEviction_cases with hc | ⟨candidates, -, hc⟩ <;>
        simp only [reply?, hc]
  | beginFlush => rcases r.cache.beginFlush_cases with hc | hc <;> simp only [reply?, hc]
  | finishBatch | dropWritten | empty | backend => rfl
  | _ => exact (r.reply?_of_isAside caller now rfl).2.2

theorem Duty.Asks.ne_close {d : Duty} {q : Request} {state : Reply q → Duty}
    (h : Duty.Asks d q state) : q ≠ .close := by
  rintro rfl
  cases h with
  | pass hpass => cases hpass

theorem Duty.Asks.ne_perform {d : Duty} {q : Request} {state : Reply q → Duty}
    (h : Duty.Asks d q state) (call : Call) : q ≠ .perform call := by
  rintro rfl
  cases h with
  | pass hpass => cases hpass

theorem Errand.Asks.ne_perform {d : Dealing} {q : Request} {state : Reply q → Dealing}
    (h : Errand.Asks d q state) (call : Call) : q ≠ .perform call := by
  rintro rfl
  cases h with
  | apart hq => cases hq

/-- Only a caller that shuts the cache down asks to close it, and this is the first that it asks. -/
theorem Caller.AtStage.asks_close {r : Running} {st : Stage} {errand : Errand}
    {next : Bool → Prog errand.Answer} (h : Caller.AtStage r ⟨errand, .ask .close next⟩ st) :
    errand = .shutdown := by
  cases h with
  | errand herrand hobeys =>
      obtain ⟨state, hasks, -⟩ := hobeys
      cases hasks with
      | aside hq => cases hq
      | pass hafter hpass => cases hpass
  | shutdown => rfl

namespace WithCallers

variable {g : CallerSystem} {s : WithCallers} {e : Event} {events : List Event}

/-- A caller that shuts the cache down gets on. -/
def IsShutdown (s : WithCallers) : Event → Prop
  | .go (.caller n) _ => ∃ program, s.callers[n]? = some ⟨.shutdown, program⟩
  | _ => False

/-- Among events a shutdown is called: a caller that came for it gets on.  One that has only come
has done nothing to the cache. -/
def CallerSystem.CallsShutdown (g : CallerSystem) (events : List Event) : Prop :=
  ∃ past e rest, events = past ++ e :: rest ∧ (run g.step g.start past).IsShutdown e

theorem callsShutdown_append_singleton : g.CallsShutdown (events ++ [e]) ↔
    g.CallsShutdown events ∨ (run g.step g.start events).IsShutdown e := by
  constructor
  · rintro ⟨past, e', rest, heq, he'⟩
    rcases List.eq_nil_or_concat rest with rfl | ⟨rest, last, rfl⟩
    · obtain ⟨rfl, hlast⟩ := List.append_inj' heq rfl
      cases hlast
      exact Or.inr he'
    · rw [List.concat_eq_append, ← List.cons_append, ← List.append_assoc] at heq
      obtain ⟨rfl, -⟩ := List.append_inj' heq rfl
      exact Or.inl ⟨past, e', rest, rfl, he'⟩
  · rintro (⟨past, e', rest, rfl, he'⟩ | he)
    · exact ⟨past, e', rest ++ [e], by rw [List.append_assoc, List.cons_append], he'⟩
    · exact ⟨events, e, [], rfl, he⟩

theorem CallerSystem.CallsShutdown.append (h : g.CallsShutdown events) (later : List Event) :
    g.CallsShutdown (events ++ later) := by
  obtain ⟨past, e, rest, rfl, he⟩ := h
  exact ⟨past, e, rest ++ later, by rw [List.append_assoc, List.cons_append], he⟩

/-- Apart from shutdowns nothing closes the cache. -/
theorem closed_step {stage : Nat → Stage} (hstaged : s.Staged g stage) {c : Course}
    (hrounds : s.Rounds g c) (he : ¬ s.IsShutdown e) :
    (g.step s e).running.cache.closed = s.running.cache.closed := by
  cases e with
  | offer key record => exact Running.closed_receive s.running key record
  | call call =>
      simp only [CallerSystem.step]
      split
      next hcall =>
        show (s.running.perform call).2.cache.closed = s.running.cache.closed
        by_cases hinit : call = .init
        · subst hinit
          exact congrArg Cache.closed (Running.cache_start s.running)
        · exact (Running.Wanes.perform hstaged.sound.contents.slots hcall hinit).closed
      next => rfl
  | own | begin => rfl
  | take e now => rw [cache_take]
  | answer party verdict =>
      rw [step_answer]
      show (s.hear party verdict.outcome).running.cache.closed = s.running.cache.closed
      rw [running_hear]
  | go party now =>
      rw [running_go]
      cases hq : s.asks? party with
      | none => rfl
      | some q =>
          cases party with
          | worker =>
              obtain ⟨d, state, hasks⟩ := hstaged.exists_duty hq
              exact s.running.closed_reply?_of_ne _ now hasks.ne_close hasks.ne_perform
          | caller n =>
              obtain ⟨errand, next, hc⟩ := asks?_caller hq
              obtain ⟨d, ⟨state, hasks, -⟩, -⟩ := hrounds.callers _ (List.mem_of_getElem? hc)
              refine s.running.closed_reply?_of_ne _ now ?_ hasks.ne_perform
              rintro rfl
              obtain rfl := (hstaged.callers n _ hc).asks_close
              exact he ⟨_, hc⟩

/-- A caller that shuts the cache down has not begun, or the cache is closed. -/
def Closers (g : CallerSystem) (s : WithCallers) : Prop :=
  ∀ (n : Nat) (program : Prog (Except Failure Unit)),
    s.callers[n]? = some ⟨.shutdown, program⟩ →
      s.running.cache.closed = true ∨ program = Service.shutdown g.backendName

/-- A shutdown that gets on closes the cache, if it is not closed. -/
theorem Closers.closed_step (h : s.Closers g) {c c' : Course}
    (ht : s.WorkerTurn c (g.step s e) c') (he : s.IsShutdown e) :
    (g.step s e).running.cache.closed = true := by
  cases e with
  | go party now =>
      cases party with
      | worker => cases he
      | caller n =>
          obtain ⟨program, hc⟩ := he
          rcases h n program hc with hclosed | rfl
          · exact ht.closed hclosed
          · have hasks : s.asks? (.caller n) = some .close := by
              rw [asks?, hc]
              rfl
            rw [running_go, hasks]
            rfl
  | _ => cases he

theorem Closers.step (h : s.Closers g) {c c' : Course}
    (ht : s.WorkerTurn c (g.step s e) c') : (g.step s e).Closers g := by
  intro n program hc
  cases stems_step hc with
  | old hold => exact (h n _ hold).imp_left ht.closed
  | comes => exact Or.inr rfl
  | goes hm => exact Or.inl (h.closed_step ht ⟨_, hm⟩)
  | answered verdict hm =>
      rcases h n _ hm with hclosed | hprogram
      · exact Or.inl (ht.closed hclosed)
      · cases hprogram

/-- A cache is closed just if a shutdown was called. -/
theorem closed_iff_callsShutdown (g : CallerSystem) (events : List Event) :
    (run g.step g.start events).running.cache.closed = true ↔ g.CallsShutdown events := by
  suffices h : (run g.step g.start events).Closers g ∧
      ((run g.step g.start events).running.cache.closed = true ↔ g.CallsShutdown events) from h.2
  induction events using List.reverseRecOn with
  | nil =>
      refine ⟨fun n program hc => (by cases hc), fun h => (by cases h), ?_⟩
      rintro ⟨past, e, rest, heq, -⟩
      cases past <;> cases heq
  | append_singleton events e ih =>
      obtain ⟨hclosers, hiff⟩ := ih
      obtain ⟨c, hrounds⟩ := rounds_run g events
      obtain ⟨stage, hstaged, -⟩ := staged_run g events
      obtain ⟨c', -, ht⟩ := hrounds.step hstaged e
      rw [callsShutdown_append_singleton, ← hiff, run_append]
      refine ⟨hclosers.step ht, ?_⟩
      show (g.step (run g.step g.start events) e).running.cache.closed = true ↔ _
      by_cases he : (run g.step g.start events).IsShutdown e
      · exact ⟨fun _ => Or.inr he, fun _ => hclosers.closed_step ht he⟩
      · rw [closed_step hstaged hrounds he]
        exact ⟨Or.inl, fun h => h.resolve_right he⟩

end WithCallers

end Cache

end RecordStore
