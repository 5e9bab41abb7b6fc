import RecordStore.Proofs.Cache.Attendance

/-!
# What callers are told of a shutdown

A caller that has everything written, or a pass run, is told that the cache was shut down in three
cases: the cache is closed when the caller looks, the worker has ended when the caller hands over
its task, or the worker ends while the task is in its queue.  No pass has that outcome itself
(`Service.IsPass`).  The worker ends only for a shutdown, or because its period is zero
(`Running.Terms`), so but for such a period the answer is true.

A caller that is told anything else is told the outcome of a pass that was run for it after it came
(`WithCallers.CallerSystem.RunsPassFor`).  The caller runs the pass itself, or it waits under a
ticket that nobody else has, and what is known under the ticket is its task, its pass, and then the
outcome of that pass (`WithCallers.CallerSystem.Serves`).
-/

namespace RecordStore

namespace Cache

open Service (Prog)

/-! ## Programs that callers are left with -/

namespace Service

theorem IsPass.next {q : Request} {next : Reply q → Prog (Except Error Nat)}
    (h : IsPass (.ask q next)) (a : Reply q) : IsPass (next a) := by
  obtain ⟨state, -, hnext⟩ := h
  exact hnext a

theorem IsPass.isApart {q : Request} {next : Reply q → Prog (Except Error Nat)}
    (h : IsPass (.ask q next)) : q.isApart = true := by
  obtain ⟨state, hq, -⟩ := h
  exact hq

/-- What a caller does when the worker has accepted its task. -/
def fetch (ticket : Nat) : Prog (Except Error Nat) :=
  .ask (.await ticket) fun reply => .done (reply.getD (.error .shutDown))

/-- What a caller does with the ticket that it has drawn for a pass. -/
def handOver (ticket : Nat) : Prog (Except Error Nat) :=
  .ask (.submit (.evictFor ticket)) fun accepted =>
    if accepted then fetch ticket else .done (.error .shutDown)

/-- What a caller does to have a pass run, when it has seen that the cache is open. -/
def choose (name : String) : Prog (Except Error Nat) :=
  .ask .isAttached fun attached => if attached then .ask .newTicket handOver else evictOldest name

/-- What a caller does that is turned away from a closed cache. -/
def unlessClosed (p : Prog (Except Error Nat)) : Prog (Except Error Nat) :=
  .ask .isClosed fun closed => if closed then .done (.error .shutDown) else p

theorem evict_eq (name : String) : evict name = unlessClosed (choose name) := by
  refine congrArg (Program.ask (I := Effects) Request.isClosed) (funext fun closed => ?_)
  cases closed with
  | true => rfl
  | false =>
      refine congrArg (Program.ask (I := Effects) Request.isAttached) (funext fun attached => ?_)
      cases attached with
      | false => rfl
      | true =>
          refine congrArg (Program.ask (I := Effects) Request.newTicket) (funext fun ticket => ?_)
          refine congrArg (Program.ask (I := Effects) (.submit (.evictFor ticket)))
            (funext fun accepted => ?_)
          cases accepted <;> rfl

theorem writeAll_eq (name : String) : writeAll name = unlessClosed (flushAll name) := by
  refine congrArg (Program.ask (I := Effects) Request.isClosed) (funext fun closed => ?_)
  cases closed <;> rfl

end Service

/-- A worker whose round is over has no ticket. -/
theorem Course.Left.ticket?_eq_none {name : String} {c : Course} {again : Bool}
    (h : c.Left name (.done again)) : c.ticket? = none := by
  cases c with
  | paused | gone => rfl
  | passing ticket? =>
      obtain ⟨q, next, -, h⟩ := h
      cases h
  | replying ticket =>
      obtain ⟨outcome, h⟩ := h
      cases h
  | _ => cases h

/-- The worker replies only under the ticket of its task. -/
theorem Course.Left.eq_replying {name : String} {c : Course} {ticket : Nat}
    {outcome : Except Error Nat} {next : Unit → Prog Bool}
    (h : c.Left name (.ask (.answer ticket outcome) next)) : c = .replying ticket := by
  cases c with
  | replying ticket' =>
      obtain ⟨outcome', h⟩ := h
      cases h
      rfl
  | passing ticket? =>
      obtain ⟨q, next, hpass, h⟩ := h
      cases h
      cases hpass.choose_spec.1
  | _ => cases h

namespace WithCallers

variable {g : CallerSystem} {s s' : WithCallers} {c c' : Course} {past : List Event} {e : Event}
  {n ticket : Nat} {outcome : Except Error Nat}

/-- A caller that gets on leaves the others where they are. -/
theorem getElem?_callers_go (g : CallerSystem) (s : WithCallers) (now : Nat) {m : Nat}
    (hm : m ≠ n) : (g.step s (.go (.caller n) now)).callers[m]? = s.callers[m]? := by
  simp only [CallerSystem.step, goCaller]
  split
  · split
    · exact List.getElem?_set_ne hm.symm
    · rfl
  · rfl

/-! ## Passes that are run for a caller -/

/-- What is left of a pass for a caller, which runs it itself, or waits under its ticket for the
worker to run it. -/
def HasLeft (s : WithCallers) (n : Nat) : Option Nat → Prog (Except Error Nat) → Prop
  | none, p => s.callers[n]? = some ⟨.evict, p⟩
  | some ticket, p => s.callers[n]? = some ⟨.evict, Service.fetch ticket⟩ ∧
      s.worker = p.bind (Service.conclude (some ticket))

/-- Among events that follow on a state a pass begins for a caller, and it goes on until the last
of them.  Then something is left of it. -/
inductive CallerSystem.PassFor (g : CallerSystem) (n : Nat) (ticket? : Option Nat)
    (s : WithCallers) : List Event → Prog (Except Error Nat) → Prop where
  | begins {past : List Event}
      (h : (run g.step s past).HasLeft n ticket? (Service.evictOldest g.backendName)) :
      PassFor g n ticket? s past (Service.evictOldest g.backendName)
  | goesOn {past : List Event} {e : Event} {p p' : Prog (Except Error Nat)}
      (hp : PassFor g n ticket? s past p) (h : (run g.step s (past ++ [e])).HasLeft n ticket? p') :
      PassFor g n ticket? s (past ++ [e]) p'

/-- Among events that follow on a state a whole pass is run for a caller, with an outcome. -/
def CallerSystem.RunsPassFor (g : CallerSystem) (n : Nat) (s : WithCallers) (events : List Event)
    (outcome : Except Error Nat) : Prop :=
  ∃ ticket? earlier later, events = earlier ++ later ∧ g.PassFor n ticket? s earlier (.done outcome)

theorem CallerSystem.PassFor.hasLeft {ticket? : Option Nat} {p : Prog (Except Error Nat)}
    (h : g.PassFor n ticket? s past p) : (run g.step s past).HasLeft n ticket? p := by
  cases h with
  | begins h => exact h
  | goesOn hp h => exact h

theorem CallerSystem.RunsPassFor.append (h : g.RunsPassFor n s past outcome) (later : List Event) :
    g.RunsPassFor n s (past ++ later) outcome := by
  obtain ⟨ticket?, earlier, between, rfl, hpass⟩ := h
  exact ⟨ticket?, earlier, between ++ later, List.append_assoc _ _ _, hpass⟩

/-- What is known under the ticket of a caller that waits: its task, the pass that the worker runs
for it, and the outcome of a pass that was run for it. -/
structure CallerSystem.Serves (g : CallerSystem) (n ticket : Nat) (s : WithCallers)
    (past : List Event) (c : Course) : Prop where
  queued : ∀ {w : Worker Task} {task : Task}, (run g.step s past).running.worker = some w →
    task ∈ w.queue → task.ticket? = some ticket → task = .evictFor ticket
  handled : c.ticket? = some ticket →
    ∃ p, g.PassFor n (some ticket) s past p ∧ Service.IsPass p
  replied : ∀ {p : Nat × Except Error Nat}, p ∈ (run g.step s past).running.replies → p.1 = ticket →
    g.RunsPassFor n s past p.2 ∧ p.2 ≠ .error .shutDown

namespace CallerSystem.Serves

variable (h : g.Serves n ticket s past c) (hs' : g.step (run g.step s past) e = s')
  (hcaller : s'.callers[n]? = some ⟨.evict, Service.fetch ticket⟩)
include h hs' hcaller

/-- The pass of the worker goes on, unless the worker replies. -/
theorem handled_of_left (hleft : c'.Left g.backendName s'.worker)
    (hc : c.ticket? = some ticket) (hc' : c'.ticket? = some ticket) :
    ∃ p, g.PassFor n (some ticket) s (past ++ [e]) p ∧ Service.IsPass p := by
  obtain ⟨p, hpass, his⟩ := h.handled hc
  have hworker : (run g.step s past).worker = p.bind (Service.conclude (some ticket)) :=
    hpass.hasLeft.2
  have hstep := worker_step g (run g.step s past) e
  rw [hs'] at hstep
  rcases hstep with hsame | hover | ⟨q, next, a, hask, hnext⟩
  · refine ⟨p, hpass.goesOn ?_, his⟩
    rw [run_concat, hs']
    exact ⟨hcaller, hsame.trans hworker⟩
  · rw [hover] at hworker
    cases p <;> cases hworker
  · rw [hask] at hworker
    cases p with
    | done outcome =>
        cases hworker
        rw [hnext] at hleft
        rw [hleft.ticket?_eq_none] at hc'
        cases hc'
    | ask q' next' =>
        cases hworker
        refine ⟨next' a, hpass.goesOn ?_, his.next a⟩
        rw [run_concat, hs']
        exact ⟨hcaller, hnext⟩

/-- What is known under a ticket that others spare stays what a pass for the caller made known. -/
theorem step (hrounds : (run g.step s past).Rounds g c) (hrounds' : s'.Rounds g c')
    (ht : (run g.step s past).WorkerTurn c s' c')
    (hspares : (run g.step s past).running.Spares
      ((run g.step s past).asks? .worker) s'.running ticket) :
    g.Serves n ticket s (past ++ [e]) c' where
  queued hw' htask hticket := by
    rw [run_concat, hs'] at hw'
    obtain ⟨w, hw, htask⟩ := hspares.queue hw' htask hticket
    exact h.queued hw htask hticket
  handled hc' := by
    rcases ht.taken hc' with hc | ⟨w, task, hw, htask, hticket, rfl⟩
    · exact h.handled_of_left hs' hcaller hrounds'.left hc hc'
    · obtain rfl := h.queued hw htask hticket
      refine ⟨_, .begins ?_, Service.isPass_evictOldest g.backendName⟩
      rw [run_concat, hs']
      exact ⟨hcaller, hrounds'.left⟩
  replied := by
    intro p hp hticket
    rw [run_concat, hs'] at hp
    rcases hspares.told hp with hold | hasks
    · obtain ⟨hruns, hne⟩ := h.replied hold hticket
      exact ⟨hruns.append [e], hne⟩
    · obtain ⟨next, hw⟩ := asks?_worker hasks
      have hleft := hrounds.left
      rw [hw] at hleft
      obtain rfl := hleft.eq_replying
      obtain ⟨p₀, hpass, his⟩ := h.handled (congrArg some hticket)
      have hworker := hpass.hasLeft.2
      rw [hw] at hworker
      cases p₀ with
      | done outcome =>
          cases hworker
          exact ⟨⟨_, past, [e], rfl, hpass⟩, his⟩
      | ask q' next' =>
          cases hworker
          cases his.isApart

end CallerSystem.Serves

/-- When a task is accepted under a ticket that was unknown, nothing else is known under it. -/
theorem CallerSystem.Serves.of_submit (hrun : run g.step s (past ++ [e]) = s')
    (hnew : ¬ (run g.step s past).running.Knows c ticket)
    (ht : (run g.step s past).WorkerTurn c s' c')
    (hreplies : s'.running.replies = (run g.step s past).running.replies) {w w' : Worker Task}
    (hw : (run g.step s past).running.worker = some w) (hw' : s'.running.worker = some w')
    (hqueue : w'.queue = w.queue ++ [.evictFor ticket]) : g.Serves n ticket s (past ++ [e]) c' where
  queued hw₀ htask hticket := by
    rw [hrun] at hw₀
    cases hw'.symm.trans hw₀
    rw [hqueue] at htask
    rcases List.mem_append.1 htask with hold | hlast
    · exact absurd (.queued hw hold hticket) hnew
    · exact List.mem_singleton.1 hlast
  handled hc' := by
    rcases ht.handled hc' with hc | ⟨w, task, hw, htask, hticket⟩
    · exact absurd (.handled hc) hnew
    · exact absurd (.queued hw htask hticket) hnew
  replied := by
    rintro p hp rfl
    rw [hrun, hreplies] at hp
    exact absurd (.replied hp) hnew

/-! ## Callers that have a pass run -/

/-- Why a caller is told that the cache was shut down. -/
def Refuses (s : WithCallers) (interval : Nat) : Prop :=
  s.running.cache.closed = true ∨ interval = 0 ∧ s.running.hasEnded = true

/-- Where a caller is that has come to have a pass run, with the program that it is left with. -/
inductive CallerSystem.Evicting (g : CallerSystem) (n : Nat) (s : WithCallers) (past : List Event)
    (c : Course) : Prog (Except Error Nat) → Prop where
  | comes : Evicting g n s past c (Service.unlessClosed (Service.choose g.backendName))
  | refused (h : (run g.step s past).Refuses g.config.retryInterval) :
      Evicting g n s past c (.done (.error .shutDown))
  | looks : Evicting g n s past c (Service.choose g.backendName)
  /-- The caller runs the pass itself. -/
  | runs {p : Prog (Except Error Nat)} (h : g.PassFor n none s past p) (his : Service.IsPass p) :
      Evicting g n s past c p
  | draws (hw : (run g.step s past).running.worker.isSome = true) :
      Evicting g n s past c (.ask .newTicket Service.handOver)
  | submits {ticket : Nat} (hw : (run g.step s past).running.worker.isSome = true)
      (howns : (run g.step s past).Owns n ticket)
        (hnew : ¬ (run g.step s past).running.Knows c ticket) :
      Evicting g n s past c (Service.handOver ticket)
  | awaits {ticket : Nat} (howns : (run g.step s past).Owns n ticket)
    (hserves : g.Serves n ticket s past c)
      (hknown : (run g.step s past).running.Knows c ticket ∨
        (run g.step s past).running.hasEnded = true) :
      Evicting g n s past c (Service.fetch ticket)
  | returned {outcome : Except Error Nat} (h : g.RunsPassFor n s past outcome)
      (hne : outcome ≠ .error .shutDown) : Evicting g n s past c (.done outcome)

namespace CallerSystem.Evicting

variable {p p' : Prog (Except Error Nat)} {stage : Nat → Stage}

/-- A caller that does not get on stays where it is, whatever others do. -/
theorem stay (h : g.Evicting n s past c p) (hs' : g.step (run g.step s past) e = s')
    (hcaller : s'.callers[n]? = some ⟨.evict, p⟩)
    (hrounds : (run g.step s past).Rounds g c) (hstaged : (run g.step s past).Staged g stage)
    (hrounds' : s'.Rounds g c') (ht : (run g.step s past).WorkerTurn c s' c')
    (hwaits : ∀ now, e = .go (.caller n) now → ∀ q, request? p = some q →
      ((run g.step s past).running.reply? (n + 1) now q).1 = none)
    (hold : (run g.step s past).callers[n]? = some ⟨.evict, p⟩) :
    g.Evicting n s (past ++ [e]) c' p := by
  have hrun : run g.step s (past ++ [e]) = s' := (run_concat g.step s past e).trans hs'
  have hquiet : ∀ now, e = .go (.caller n) now → ∀ q,
      (run g.step s past).asks? (.caller n) = some q →
      ((run g.step s past).running.reply? (n + 1) now q).1 = none := by
    intro now he q hq
    rw [asks?, hold] at hq
    exact hwaits now he q hq
  cases h with
  | comes => exact .comes
  | looks => exact .looks
  | refused h =>
      refine .refused ?_
      rw [hrun]
      rcases h with hclosed | ⟨hzero, hended⟩
      · exact Or.inl (ht.closed hclosed)
      · exact Or.inr ⟨hzero, ht.hasEnded hrounds.worker hended⟩
  | runs h his =>
      refine .runs (h.goesOn ?_) his
      rw [hrun]
      exact hcaller
  | draws hw =>
      refine .draws ?_
      rw [hrun]
      exact ht.isSome_worker hw
  | submits hw howns hnew =>
      subst hs'
      have hspares := howns.spares hrounds hstaged hquiet
      refine .submits ?_ ?_ ?_ <;> rw [hrun]
      · exact ht.isSome_worker hw
      · exact howns.step ht
      · exact ht.unknown hspares hnew
  | awaits howns hserves hknown =>
      subst hs'
      have hspares := howns.spares hrounds hstaged hquiet
      refine .awaits ?_ (hserves.step rfl hcaller hrounds hrounds' ht hspares) ?_ <;> rw [hrun]
      · exact howns.step ht
      · exact ht.known hrounds.worker hspares hknown
  | returned h hne => exact .returned (h.append [e]) hne

/-- A caller gets a reply of the cache. -/
theorem reply {q : Request} {next : Reply q → Prog (Except Error Nat)} {now : Nat} {a : Reply q}
    (h : g.Evicting n s past c (.ask q next))
    (hs' : g.step (run g.step s past) (.go (.caller n) now) = s')
    (hcaller : s'.callers[n]? = some ⟨.evict, next a⟩)
    (hrounds : (run g.step s past).Rounds g c)
    (hattended : (run g.step s past).running.Attended g.config.retryInterval c)
    (ht : (run g.step s past).WorkerTurn c s' c')
    (hr : (run g.step s past).running.reply? (n + 1) now q = (some a, s'.running)) :
    g.Evicting n s (past ++ [.go (.caller n) now]) c' (next a) := by
  have hrun : run g.step s (past ++ [.go (.caller n) now]) = s' :=
    (run_concat g.step s past _).trans hs'
  have hrefuses : (run g.step s past).running.hasEnded = true →
    s'.Refuses g.config.retryInterval := by
    intro hended
    rcases hattended.of_hasEnded hended with hclosed | hzero
    · exact Or.inl (ht.closed hclosed)
    · exact Or.inr ⟨hzero, ht.hasEnded hrounds.worker hended⟩
  generalize hp : (.ask q next : Prog (Except Error Nat)) = p at h
  cases h with
  | comes =>
      cases hp
      have hclosed := Option.some.inj (Prod.mk.inj hr).1
      cases a with
      | true => exact .refused (hrun.symm ▸ Or.inl (ht.closed hclosed))
      | false => exact .looks
  | looks =>
      cases hp
      have hattached := Option.some.inj (Prod.mk.inj hr).1
      cases a with
      | true => exact .draws (hrun.symm ▸ ht.isSome_worker (hattended.attached hattached))
      | false => exact .runs (.begins (hrun.symm ▸ hcaller)) (Service.isPass_evictOldest _)
  | runs h his =>
      subst hp
      exact .runs (h.goesOn (hrun.symm ▸ hcaller)) (his.next a)
  | draws hw =>
      cases hp
      obtain ⟨ha, hrunning⟩ := Prod.mk.inj hr
      obtain rfl := Option.some.inj ha
      refine .submits ?_ ?_ ?_ <;> rw [hrun]
      · exact ht.isSome_worker hw
      · refine hrounds.owns n (congrArg Running.nextTicket hrunning.symm) fun m hm => ?_
        rw [← hs']
        exact getElem?_callers_go g _ now hm
      · intro hk
        rcases ht.knows hk with hold | hlt
        · exact Nat.lt_irrefl _ (hrounds.worker.drawn hold)
        · exact Nat.lt_irrefl _ hlt
  | @submits ticket hw howns hnew =>
      cases hp
      rcases Running.submit?_cases hw hr with ⟨rfl, hreplies, w, w', hw, hw',
        hqueue⟩ | ⟨rfl, hended⟩
      · subst hs'
        have htask : Task.evictFor ticket ∈ w'.queue := by
          rw [hqueue]
          exact List.mem_append_right _ (List.mem_singleton_self _)
        refine .awaits (hrun.symm ▸ howns.step ht)
          (.of_submit hrun hnew ht hreplies hw hw' hqueue) ?_
        rw [hrun]
        exact Or.inl (.queued hw' htask rfl)
      · exact .refused (hrun.symm ▸ hrefuses hended)
  | awaits howns hserves hknown =>
      cases hp
      rcases Running.await?_cases hattended hknown hr with ⟨p, hp, hticket, rfl⟩ | ⟨rfl, hended⟩
      · obtain ⟨hruns, hne⟩ := hserves.replied hp hticket
        exact .returned (hruns.append _) hne
      · exact .refused (hrun.symm ▸ hrefuses hended)
  | refused | returned => cases hp

/-- A caller gets an answer of the backend, to a call of its pass. -/
theorem answer {call : Call} {next : Reply (.backend call) → Prog (Except Error Nat)}
    (h : g.Evicting n s past c (.ask (.backend call) next)) (hrun : run g.step s (past ++ [e]) = s')
    (a : call.Outcome) (hcaller : s'.callers[n]? = some ⟨.evict, next a⟩) :
    g.Evicting n s (past ++ [e]) c' (next a) := by
  generalize hp : (.ask (.backend call) next : Prog (Except Error Nat)) = p at h
  cases h with
  | runs h his =>
      subst hp
      exact .runs (h.goesOn (hrun.symm ▸ hcaller)) (his.next a)
  | _ => cases hp

end CallerSystem.Evicting

/-! ## Runs with a caller that comes -/

/-- The cache when a caller has come. -/
def CallerSystem.visit (g : CallerSystem) (before : List Event) (errand : Errand) : WithCallers :=
  run g.step g.start (before ++ [.begin errand])

/-- The number of the caller that comes next. -/
def CallerSystem.newcomer (g : CallerSystem) (before : List Event) : Nat :=
    (run g.step g.start before).callers.length

theorem CallerSystem.run_visit (g : CallerSystem) (before : List Event) (errand : Errand)
    (after : List Event) :
    run g.step g.start (before ++ .begin errand :: after) = run g.step
      (g.visit before errand) after := by
  rw [visit, ← run_append, ← List.append_cons]

variable {before after : List Event}

theorem CallerSystem.callers_visit (g : CallerSystem) (before : List Event) (errand : Errand) :
    (g.visit before errand).callers[g.newcomer before]?
      = some ⟨errand, errand.program g.backendName⟩ := by
  rw [visit, run_append]
  exact List.getElem?_concat_length

/-- A caller that has come to have a pass run is somewhere on its way. -/
theorem evicting_run (g : CallerSystem) (before after : List Event) : ∃ c p,
    (run g.step (g.visit before .evict) after).callers[g.newcomer before]? = some ⟨.evict, p⟩ ∧
      (run g.step (g.visit before .evict) after).Rounds g c ∧
      (run g.step (g.visit before .evict) after).running.Attended g.config.retryInterval c ∧
      g.Evicting (g.newcomer before) (g.visit before .evict) after c p := by
  induction after using List.reverseRecOn with
  | nil =>
      obtain ⟨c, hrounds, hattended⟩ := attended_run g (before ++ [.begin .evict])
      refine ⟨c, _, g.callers_visit before .evict, hrounds, hattended, ?_⟩
      show g.Evicting _ _ [] c (Service.evict g.backendName)
      rw [Service.evict_eq]
      exact .comes
  | append_singleton past e ih =>
      obtain ⟨c, p, hc, hrounds, hattended, h⟩ := ih
      obtain ⟨stage, hstaged, -⟩ := staged_run g (before ++ .begin .evict :: past)
      rw [g.run_visit] at hstaged
      obtain ⟨c', hrounds', ht⟩ := hrounds.step hstaged e
      obtain ⟨p', hc', hmoves⟩ := moves_step g e hc
      have hrun := run_concat g.step (g.visit before .evict) past e
      rw [hrun]
      refine ⟨c', p', hc', hrounds', hattended.turn hrounds.worker ht, ?_⟩
      cases hmoves with
      | stays hwaits => exact h.stay rfl hc' hrounds hstaged hrounds' ht hwaits hc
      | reply he hr =>
          subst he
          exact h.reply rfl hc' hrounds hattended ht hr
      | answer a => exact h.answer hrun a hc'

/-- Where a caller is that has come to have everything written. -/
inductive Writing (s : WithCallers) (name : String) : Prog (Except Error Nat) → Prop where
  | comes : Writing s name (Service.unlessClosed (Service.flushAll name))
  | refused (h : s.running.cache.closed = true) : Writing s name (.done (.error .shutDown))
  | runs {p : Prog (Except Error Nat)} (his : Service.IsPass p) : Writing s name p

theorem Writing.step {p p' : Prog (Except Error Nat)} (h : s.Writing g.backendName p)
    (ht : s.WorkerTurn c s' c') (hmoves : Moves s n e s' p p') :
    s'.Writing g.backendName p' := by
  cases hmoves with
  | stays =>
      cases h with
      | comes => exact .comes
      | refused h => exact .refused (ht.closed h)
      | runs his => exact .runs his
  | @reply q next a now he hr =>
      generalize hp : (.ask q next : Prog (Except Error Nat)) = p at h
      cases h with
      | comes =>
          cases hp
          have hclosed := Option.some.inj (Prod.mk.inj hr).1
          cases a with
          | true => exact .refused (ht.closed hclosed)
          | false => exact .runs (Service.isPass_flushAll g.backendName)
      | refused => cases hp
      | runs his =>
          subst hp
          exact .runs (his.next a)
  | @answer call next a =>
      generalize hp : (.ask (.backend call) next : Prog (Except Error Nat)) = p at h
      cases h with
      | runs his =>
          subst hp
          exact .runs (his.next a)
      | _ => cases hp

theorem writing_run (g : CallerSystem) (before after : List Event) : ∃ p,
    (run g.step (g.visit before .writeAll) after).callers[g.newcomer before]?
        = some ⟨.writeAll, p⟩ ∧
      (run g.step (g.visit before .writeAll) after).Writing g.backendName p := by
  induction after using List.reverseRecOn with
  | nil =>
      refine ⟨_, g.callers_visit before .writeAll, ?_⟩
      show Writing _ _ (Service.writeAll g.backendName)
      rw [Service.writeAll_eq]
      exact .comes
  | append_singleton past e ih =>
      obtain ⟨p, hc, h⟩ := ih
      obtain ⟨c, hrounds⟩ := rounds_run g (before ++ .begin .writeAll :: past)
      obtain ⟨c', -, ht⟩ := hrounds.next e
      obtain ⟨p', hc', hmoves⟩ := moves_step g e hc
      rw [run_concat, g.run_visit] at ht
      rw [run_concat]
      exact ⟨p', hc', h.step ht hmoves⟩

/-- A caller that comes when the cache is closed is turned away. -/
theorem turnedAway_run {errand : Errand} {next : Bool → Prog errand.Answer}
    {refusal : errand.Answer} (hprogram : errand.program g.backendName = .ask .isClosed next)
    (hrefusal : next true = .done refusal) (hcalled : g.CallsShutdown before)
    (after : List Event) :
    ∃ p, (run g.step (g.visit before errand) after).callers[g.newcomer before]?
      = some ⟨errand, p⟩ ∧ (p = .ask .isClosed next ∨ p = .done refusal) := by
  induction after using List.reverseRecOn with
  | nil => exact ⟨_, g.callers_visit before errand, Or.inl hprogram⟩
  | append_singleton past e ih =>
      obtain ⟨p, hc, h⟩ := ih
      obtain ⟨p', hc', hmoves⟩ := moves_step g e hc
      rw [run_concat]
      refine ⟨p', hc', ?_⟩
      have hclosed := (closed_iff_callsShutdown g _).2 (hcalled.append (.begin errand :: past))
      rw [g.run_visit] at hclosed
      cases hmoves with
      | stays => exact h
      | @reply q next' a now he hr =>
          rcases h with h | h <;> cases h
          have ha := Option.some.inj (Prod.mk.inj hr).1
          rw [hclosed] at ha
          subst ha
          exact Or.inr hrefusal
      | answer a => rcases h with h | h <;> cases h

/-! ## What callers return with -/

/-- What a caller has returned with that came to have everything written, or a pass run. -/
def outcome? (s : WithCallers) (n : Nat) : Option (Except Error Nat) :=
  match s.callers[n]? with
  | some ⟨.writeAll, .done outcome⟩ | some ⟨.evict, .done outcome⟩ => some outcome
  | _ => none

theorem outcome?_eq_some (h : s.outcome? n = some outcome) :
    s.callers[n]? = some ⟨.writeAll, .done outcome⟩ ∨
      s.callers[n]? = some ⟨.evict, .done outcome⟩ := by
  rw [outcome?] at h
  split at h
  next hc =>
    cases h
    exact Or.inl hc
  next hc =>
    cases h
    exact Or.inr hc
  next => cases h

/-- A caller that comes after some events has returned after some more, with an outcome. -/
def CallerSystem.Returns (g : CallerSystem) (before : List Event) (errand : Errand)
    (after : List Event) (outcome : Except Error Nat) : Prop :=
  (run g.step g.start (before ++ .begin errand :: after)).outcome? (g.newcomer before)
    = some outcome

instance {errand : Errand} : Decidable (g.Returns before errand after outcome) :=
  inferInstanceAs (Decidable (_ = _))

/-- The program of a caller that has returned is over. -/
theorem CallerSystem.Returns.eq_done {errand : Errand} (h : g.Returns before errand after outcome)
    {p : Prog errand.Answer} (hc : (run g.step
      (g.visit before errand) after).callers[g.newcomer before]?
      = some ⟨errand, p⟩) : HEq p (Program.done outcome : Prog (Except Error Nat)) := by
  rw [CallerSystem.Returns, g.run_visit] at h
  rcases outcome?_eq_some h with hdone | hdone
  · obtain ⟨rfl, hp⟩ := Caller.mk.inj (Option.some.inj (hc.symm.trans hdone))
    exact hp
  · obtain ⟨rfl, hp⟩ := Caller.mk.inj (Option.some.inj (hc.symm.trans hdone))
    exact hp

/-- Who has everything written is told of a shutdown only if one was called in time. -/
theorem refused_of_writeAll (h : g.Returns before .writeAll after (.error .shutDown)) :
    g.CallsShutdown (before ++ .begin .writeAll :: after) := by
  obtain ⟨p, hc, hwriting⟩ := writing_run g before after
  obtain rfl := eq_of_heq (h.eq_done hc)
  rw [← closed_iff_callsShutdown, g.run_visit]
  cases hwriting with
  | refused hclosed => exact hclosed
  | runs his => exact absurd rfl his

/-- Who comes when a shutdown has been called is told of it. -/
theorem eq_shutDown_of_called (hcalled : g.CallsShutdown before) :
    (g.Returns before .writeAll after outcome → outcome = .error .shutDown) ∧
      (g.Returns before .evict after outcome → outcome = .error .shutDown) := by
  constructor
  · intro h
    have hprogram : Errand.writeAll.program g.backendName = .ask .isClosed _ :=
      Service.writeAll_eq g.backendName
    obtain ⟨p, hc, hp⟩ := turnedAway_run hprogram rfl hcalled after
    obtain rfl := eq_of_heq (h.eq_done hc)
    rcases hp with hp | hp <;> cases hp
    rfl
  · intro h
    have hprogram : Errand.evict.program g.backendName = .ask .isClosed _ :=
      Service.evict_eq g.backendName
    obtain ⟨p, hc, hp⟩ := turnedAway_run hprogram rfl hcalled after
    obtain rfl := eq_of_heq (h.eq_done hc)
    rcases hp with hp | hp <;> cases hp
    rfl

/-- Who has a pass run is told of a shutdown only if one was called in time, or if the worker has
ended because its period is zero.  Who is told anything else is told the outcome of a pass. -/
theorem outcome_of_evict (h : g.Returns before .evict after outcome) :
    outcome = .error .shutDown ∧ (run g.step (g.visit before .evict) after).Refuses
        g.config.retryInterval ∨
      outcome ≠ .error .shutDown ∧
        g.RunsPassFor (g.newcomer before) (g.visit before .evict) after outcome := by
  obtain ⟨c, p, hc, -, -, hevicting⟩ := evicting_run g before after
  obtain rfl := eq_of_heq (h.eq_done hc)
  cases hevicting with
  | refused hrefuses => exact Or.inl ⟨rfl, hrefuses⟩
  | runs hpass his => exact Or.inr ⟨his, _, after, [], (List.append_nil _).symm, hpass⟩
  | returned hruns hne => exact Or.inr ⟨hne, hruns⟩

/-- Callers are told that the cache was shut down if a shutdown was called before they came.  Who
has everything written is told so only if a shutdown was called before it returns, and so is who has
a pass run, unless the worker has ended because its period is zero.  Who has a pass run and is told
anything else is told the outcome of a pass that was run for it after it came. -/
theorem told_shutDown (g : CallerSystem) (before after : List Event) (outcome : Except Error Nat) :
    (g.Returns before .writeAll after outcome →
      (g.CallsShutdown before → outcome = .error .shutDown) ∧
      (outcome = .error .shutDown → g.CallsShutdown (before ++ .begin .writeAll :: after))) ∧
    (g.Returns before .evict after outcome →
      (g.CallsShutdown before → outcome = .error .shutDown) ∧
      (outcome = .error .shutDown → g.CallsShutdown (before ++ .begin .evict :: after) ∨
        g.config.retryInterval = 0 ∧
          (run g.step g.start (before ++ .begin .evict :: after)).running.hasEnded = true) ∧
      (outcome ≠ .error .shutDown →
        g.RunsPassFor (g.newcomer before) (g.visit before .evict) after outcome)) := by
  refine ⟨fun h => ⟨fun hcalled => (eq_shutDown_of_called hcalled).1 h, ?_⟩,
    fun h => ⟨fun hcalled => (eq_shutDown_of_called hcalled).2 h, ?_, ?_⟩⟩
  · rintro rfl
    exact refused_of_writeAll h
  · intro hrefused
    rcases outcome_of_evict h with ⟨-, hrefuses⟩ | ⟨hne, -⟩
    · rw [← closed_iff_callsShutdown, g.run_visit]
      exact hrefuses
    · exact absurd hrefused hne
  · intro hne
    rcases outcome_of_evict h with ⟨hrefused, -⟩ | ⟨-, hruns⟩
    · exact absurd hrefused hne
    · exact hruns

/-- A record is admitted, and no pass can be requested, before the worker is created and begins. -/
def served : List Event :=
  [.offer (.hash [1]) (.ofBytes .transaction [1]), .go (.caller 0) 0, .go (.caller 0) 0,
    .go (.caller 0) 0, .call .init, .go .worker 0, .go .worker 0]

/-- A caller that has come hands its task over.  The worker takes it up, runs a pass and replies,
and the caller fetches the reply. -/
def servesFirst : List Event :=
  [.go (.caller 1) 0, .go (.caller 1) 0, .go (.caller 1) 0, .go (.caller 1) 0,
    .go .worker 0, .go .worker 0, .answer .worker .done, .go .worker 0, .go .worker 0,
    .go .worker 0, .go (.caller 1) 0]

/-- A pass is run for a caller, and another caller is turned away when a shutdown was called. -/
theorem told_shutDown_single :
    CallerSystem.single.RunsPassFor (CallerSystem.single.newcomer served)
        (CallerSystem.single.visit served .evict) servesFirst (.ok 1) ∧
      CallerSystem.single.CallsShutdown ([.begin .shutdown, .go (.caller 0) 0] ++
        .begin .writeAll :: [.go (.caller 1) 0]) := by
  constructor
  · exact ((told_shutDown CallerSystem.single served servesFirst (.ok 1)).2
      (by decide +kernel)).2.2 nofun
  · exact ((told_shutDown CallerSystem.single [.begin .shutdown, .go (.caller 0) 0]
      [.go (.caller 1) 0] (.error .shutDown)).1 (by decide +kernel)).2 rfl

/-- A cache meant for one entry whose worker has a period of zero. -/
def CallerSystem.unpaced : CallerSystem where
  __ := CallerSystem.single
  config := { byteBudget := 0, retryInterval := 0 }

/-- A caller is told that the cache was shut down when nobody has called a shutdown: the worker has
ended since its period is zero. -/
theorem told_shutDown_unpaced :
    CallerSystem.unpaced.Returns [.call .init, .go .worker 0] .evict
        [.go (.caller 0) 0, .go (.caller 0) 0, .go (.caller 0) 0, .go (.caller 0) 0]
        (.error .shutDown) ∧
      ¬ CallerSystem.unpaced.CallsShutdown ([.call .init, .go .worker 0] ++ .begin .evict ::
        [.go (.caller 0) 0, .go (.caller 0) 0, .go (.caller 0) 0, .go (.caller 0) 0]) := by
  refine ⟨by decide +kernel, ?_⟩
  rw [← closed_iff_callsShutdown, Bool.not_eq_true]
  decide +kernel

end WithCallers

end Cache

end RecordStore
