import RecordStore.Proofs.Cache.Marks

/-!
# What programs are told

At an event of a cache with callers one party at most is told something: the cache replies to what
it asks, the worker takes up an event, or the backend answers (`WithCallers.told?`).  Then the
program of this party goes on with the reply.  Otherwise a caller may come, or the worker begins its
next round, and that is all that happens to programs (`WithCallers.goesOnWith_step`).
-/

namespace RecordStore

namespace Cache

open Service (Prog)

namespace WithCallers

variable {s : WithCallers} {n : Nat}

theorem asks?_worker {q : Request} (h : s.asks? .worker = some q) :
    ∃ next, s.worker = .ask q next := by
  rw [asks?] at h
  cases hw : s.worker with
  | done a =>
      rw [hw] at h
      cases h
  | ask q' next =>
      rw [hw] at h
      cases h
      exact ⟨next, rfl⟩

theorem asks?_caller {q : Request} (h : s.asks? (.caller n) = some q) :
    ∃ errand next, s.callers[n]? = some ⟨errand, .ask q next⟩ := by
  obtain ⟨⟨errand, program⟩, hc, hq⟩ := Option.bind_eq_some_iff.1 h
  cases program with
  | done a => cases hq
  | ask q' next =>
      cases hq
      exact ⟨errand, next, hc⟩

/-- The reply that a party is told at an event, with its request. -/
def told? (s : WithCallers) : Event → Option (Party × (q : Request) × Reply q)
  | .go party now => (s.asks? party).bind fun q =>
      (s.running.reply? party.number now q).1.map fun a => (party, ⟨q, a⟩)
  | .take e now =>
      match s.asks? .worker, s.running.worker with
      | some .nextEvent, some w =>
          if !w.hasEnded && (w.ready now).contains e then some (.worker, ⟨.nextEvent, e⟩) else none
      | _, _ => none
  | .answer party verdict =>
      (s.waitsFor? party).map fun call => (party, ⟨.backend call, verdict.outcome call⟩)
  | .offer _ _ | .call _ | .own _ | .begin _ => none

/-- How programs go on when one of them is told something, or none. -/
inductive GoesOnWith (g : CallerSystem) (s s' : WithCallers) :
    Option (Party × (q : Request) × Reply q) → Prop where
  | stays (hworker : s'.worker = s.worker) (hcallers : s'.callers = s.callers) :
      GoesOnWith g s s' none
  /-- The worker begins its next round. -/
  | again (hw : s.worker = .done true) (hworker : s'.worker = Service.work g.backendName)
      (hcallers : s'.callers = s.callers) : GoesOnWith g s s' none
  | begins (errand : Errand) (hworker : s'.worker = s.worker)
      (hcallers : s'.callers = s.callers ++ [⟨errand, errand.program g.backendName⟩]) :
      GoesOnWith g s s' none
  | worker {q : Request} {next : Reply q → Prog Bool} {a : Reply q}
      (hw : s.worker = .ask q next) (hworker : s'.worker = next a)
      (hcallers : s'.callers = s.callers) : GoesOnWith g s s' (some (.worker, ⟨q, a⟩))
  | caller {n : Nat} {errand : Errand} {q : Request} {next : Reply q → Prog errand.Answer}
      {a : Reply q} (hc : s.callers[n]? = some ⟨errand, .ask q next⟩)
      (hworker : s'.worker = s.worker) (hcallers : s'.callers = s.callers.set n ⟨errand, next a⟩) :
      GoesOnWith g s s' (some (.caller n, ⟨q, a⟩))

theorem goesOnWith_go (g : CallerSystem) (s : WithCallers) (party : Party) (now : Nat) :
    GoesOnWith g s (g.step s (.go party now)) (s.told? (.go party now)) := by
  cases party with
  | worker =>
      simp only [CallerSystem.step, goWorker, told?, asks?, Party.number]
      split
      next hw =>
        rw [hw]
        exact .again hw rfl rfl
      next hw =>
        rw [hw]
        exact .stays rfl rfl
      next q next hw =>
        rw [hw]
        simp only [request?, Option.bind_some]
        split
        next a running hr =>
          rw [hr]
          exact .worker hw rfl rfl
        next hr =>
          rw [hr]
          exact .stays hw.symm rfl
  | caller n =>
      simp only [CallerSystem.step, goCaller, told?, asks?, Party.number]
      split
      next errand q next hc =>
        rw [hc]
        simp only [Option.bind_some, request?]
        split
        next a running hr =>
          rw [hr]
          exact .caller hc rfl rfl
        next hr =>
          rw [hr]
          exact .stays rfl rfl
      next hnone =>
        cases hc : s.callers[n]? with
        | none => exact .stays rfl rfl
        | some c =>
            obtain ⟨errand, program⟩ := c
            cases program with
            | done a => exact .stays rfl rfl
            | ask q next => exact absurd hc (hnone errand q next)

theorem goesOnWith_take (g : CallerSystem) (s : WithCallers) (e : Worker.Event Task) (now : Nat) :
    GoesOnWith g s (g.step s (.take e now)) (s.told? (.take e now)) := by
  simp only [CallerSystem.step, WithCallers.take, told?]
  split
  next next w hworker hw =>
    have hasks : s.asks? .worker = some .nextEvent := by
      rw [asks?, hworker]
      rfl
    rw [hasks, hw]
    simp only
    split
    · exact .worker hworker rfl rfl
    · exact .stays rfl rfl
  next hnone =>
    split
    next w hasks hw =>
      obtain ⟨next, hworker⟩ := asks?_worker hasks
      exact absurd hw (hnone next w hworker)
    next => exact .stays rfl rfl

theorem goesOnWith_answer (g : CallerSystem) (s : WithCallers) (party : Party) (verdict : Verdict) :
    GoesOnWith g s (g.step s (.answer party verdict)) (s.told? (.answer party verdict)) := by
  cases party with
  | worker =>
      simp only [CallerSystem.step, answerWorker, told?, waitsFor?]
      split
      next call next hw =>
        rw [hw]
        exact .worker hw rfl rfl
      next hnone =>
        rw [pending?_eq_none hnone]
        exact .stays rfl rfl
  | caller n =>
      simp only [CallerSystem.step, answerCaller, told?, waitsFor?]
      split
      next errand call next hc =>
        rw [hc]
        exact .caller hc rfl rfl
      next hnone =>
        cases hc : s.callers[n]? with
        | none => exact .stays rfl rfl
        | some c =>
            obtain ⟨errand, program⟩ := c
            have hpending : pending? program = none :=
              pending?_eq_none fun call next hp => hnone errand call next (hp ▸ hc)
            rw [Option.bind_some, hpending]
            exact .stays rfl rfl

/-- A program goes on at an event if it is told something, and the others stay. -/
theorem goesOnWith_step (g : CallerSystem) (s : WithCallers) (e : Event) :
    GoesOnWith g s (g.step s e) (s.told? e) := by
  cases e with
  | offer key record =>
      simp only [CallerSystem.step, WithCallers.offer, requester]
      split
      · exact .begins .requestPass rfl rfl
      · exact .stays rfl (List.append_nil _)
  | own => exact .stays rfl rfl
  | call call =>
      simp only [CallerSystem.step]
      split <;> exact .stays rfl rfl
  | begin errand => exact .begins errand rfl rfl
  | go party now => exact goesOnWith_go g s party now
  | take e now => exact goesOnWith_take g s e now
  | answer party verdict => exact goesOnWith_answer g s party verdict

/-- The program of the worker stays, or its round is over, or the worker goes on with a reply. -/
theorem worker_step (g : CallerSystem) (s : WithCallers) (e : Event) :
    (g.step s e).worker = s.worker ∨
    s.worker = .done true ∨ ∃ q next a, s.worker = .ask q next ∧ (g.step s e).worker = next a := by
  have hgoes := goesOnWith_step g s e
  generalize s.told? e = told at hgoes
  cases hgoes with
  | stays hworker | begins errand hworker | caller hc hworker => exact Or.inl hworker
  | again hw => exact Or.inr (Or.inl hw)
  | worker hw hworker => exact Or.inr (Or.inr ⟨_, _, _, hw, hworker⟩)

end WithCallers

end Cache

end RecordStore
