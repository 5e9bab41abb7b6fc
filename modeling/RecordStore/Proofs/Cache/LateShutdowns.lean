import RecordStore.Proofs.Cache.Closeout

/-!
# Shutdowns of a closed cache

Of several shutdowns one closes the cache.  The others succeed at once, whether the closing one has
ended or not, and even if it has failed.  So their success tells nothing about the backend.

What was admitted and not removed since is not lost by that: it is stored or still cached
(`WithCallers.Accounts.stored_or_cached`), and it is stored once the closing shutdown has succeeded
(`WithCallers.stored_of_hasShutDown`).  But if that one has failed, then nothing is ever written
again (`WithCallers.stored_of_hasFailed`).
-/

namespace RecordStore

namespace Cache

open Service (Prog)

namespace WithCallers

variable {g : CallerSystem} {s : WithCallers} {d : Duty} {k : Closing} {e : Event}
    {events : List Event} {n : Nat}

/-! ## Shutdowns that have succeeded -/

theorem hasShutDown_iff :
    s.hasShutDown n = true ↔ s.callers[n]? = some ⟨.shutdown, .done (.ok ())⟩ := by
  rw [hasShutDown]
  constructor
  · intro h
    split at h
    next hc => exact hc
    next => cases h
  · intro h
    rw [h]

namespace Watched

/-- While the cache is open, a shutdown that goes on closes it and has not ended. -/
theorem hasShutDown_of_step (h : Watched g s d k) (hopen : (g.step s e).closer = none)
    (hdone : (g.step s e).hasShutDown n = true) : s.hasShutDown n = true := by
  have hnone : s.closer = none := by
    cases hs : s.closer with
    | none => rfl
    | some m =>
        have hsome : (g.step s e).closer.isSome = true := closer_step (by rw [hs]; rfl)
        rw [hopen] at hsome
        cases hsome
  have hrest : ∀ (m : Nat) (c : Caller), s.callers[m]? = some c → c.AtRest := fun m c hc =>
    h.others m c hc (by rw [hnone]; nofun)
  rw [hasShutDown_iff] at hdone ⊢
  generalize hended : (⟨.shutdown, .done (.ok ())⟩ : Caller) = c at hdone ⊢
  cases stems_step hdone with
  | old hold => exact hold
  | requester => cases hended
  | comes errand => cases errand <;> cases hended
  | goes hc hr hcloser =>
      -- a shutdown that ends at its first request found the cache closed
      exfalso
      obtain rfl := congrArg Caller.errand hended
      cases hrest _ _ hc with
      | errand herrand => exact herrand rfl
      | shutdown hk hobeys =>
          obtain ⟨state, hasks, -⟩ := hobeys
          obtain rfl := hasks.eq_close hk
          have hclosed : s.running.cache.closed = false := by
            rw [h.running.closed, h.under, hnone]
            rfl
          cases hr
          rw [hclosed, hopen] at hcloser
          cases hcloser
  | answered verdict hc => exact absurd (hrest _ _ hc) Caller.AtRest.not_waits

theorem isSome_closer_of_hasShutDown (halong : Along g.step Reserved g.start events)
    (hdone : (run g.step g.start events).hasShutDown n = true) :
    (run g.step g.start events).closer.isSome = true := by
  suffices h : ∃ d k, Watched g (run g.step g.start events) d k ∧
      ∀ n, (run g.step g.start events).hasShutDown n = true →
        (run g.step g.start events).closer.isSome = true by
    obtain ⟨_, _, -, h⟩ := h
    exact h n hdone
  refine run_induction (Q := fun s => ∃ d k, Watched g s d k ∧
    ∀ n, s.hasShutDown n = true → s.closer.isSome = true) halong
    ⟨.fresh, .arriving, .start g, fun n hn => by cases hn⟩ fun s e hs hreserved => ?_
  obtain ⟨d, k, h, hclosed⟩ := hs
  obtain ⟨d', k', hl⟩ := h.step hreserved
  refine ⟨d', k', hl.watched, fun n hn => ?_⟩
  cases hcloser : (g.step s e).closer with
  | some m => rfl
  | none =>
      have hsome := closer_step (g := g) (e := e) (hclosed n (h.hasShutDown_of_step hcloser hn))
      rw [hcloser] at hsome
      exact hsome

end Watched

/-! ## Records that are left in the cache -/

/-- Whether the cache has a record under an address. -/
def Caches (s : WithCallers) (id : EntryId) (r : Record) : Prop :=
    ∃ x ∈ s.entries, x.id = id ∧ x.2 = r

/-- What was admitted and not removed since is stored, unless it is still cached. -/
theorem Accounts.stored_or_cached (ha : s.Accounts d k) {id : EntryId} {r : Record}
    (hr : s.admitted id = some r) : s.stored id = some r ∨ s.Caches id r := by
  obtain ⟨calls, ha⟩ := ha
  obtain ⟨version, first, hkept⟩ := ha.kept id r hr
  by_cases hgone : ∀ c ∈ s.running.cache.contents.slots.candidates, c.slot.id ≠ id
  · exact Or.inl (hkept.dropped hgone).1
  · simp only [not_forall, not_not] at hgone
    obtain ⟨c, hc, rfl⟩ := hgone
    have hslot : s.admitted c.slot.id = some c.slot.record := ha.slots c hc
    rw [hr] at hslot
    exact Or.inr ⟨c.slot.entry, List.mem_map_of_mem hc, rfl, (Option.some.inj hslot).symm⟩

/-- Let callers begin no batch, but for the one that closes the cache, and let nobody else write to
the backend.  When a shutdown has ended without a failure, then all that was admitted and not
removed since is stored, unless the shutdown that closed the cache is another one, which has failed
or not ended yet, and the cache still has the record. -/
theorem stored_of_hasShutDown (g : CallerSystem) (events : List Event)
    (halong : Along g.step Reserved g.start events) {n : Nat}
    (hdone : (run g.step g.start events).hasShutDown n = true) :
    ∃ m, (run g.step g.start events).closer = some m ∧
      ∀ id r, (run g.step g.start events).admitted id = some r →
        (run g.step g.start events).stored id = some r ∨
          (run g.step g.start events).hasShutDown m = false ∧
            (run g.step g.start events).Caches id r := by
  obtain ⟨d, k, h, ha⟩ := (Watched.start g).along_run (accounts_start g) halong
  obtain ⟨m, hm⟩ := Option.isSome_iff_exists.1 (Watched.isSome_closer_of_hasShutDown halong hdone)
  refine ⟨m, hm, fun id r hr => ?_⟩
  cases hended : (run g.step g.start events).hasShutDown m with
  | true =>
      obtain rfl := h.eq_succeeded hm hended
      exact Or.inl (h.stored_of_succeeded ha hr)
  | false => exact (ha.stored_or_cached hr).imp_right fun hcached => ⟨rfl, hcached⟩

/-- The batch of a shutdown fails, and then the cache is shut down again. -/
def shutDownAgain : List Event :=
  [.offer (.hash [1]) (.ofBytes .transaction [1]), .go (.caller 0) 0, .go (.caller 0) 0,
    .go (.caller 0) 0, .begin .shutdown, .go (.caller 1) 0, .go (.caller 1) 0, .go (.caller 1) 0,
    .answer (.caller 1) .refused, .go (.caller 1) 0, .begin .shutdown, .go (.caller 2) 0]

/-- The second shutdown succeeds, and the record is left in the cache. -/
theorem stored_of_shutDownAgain :
    (run CallerSystem.single.step CallerSystem.single.start shutDownAgain).hasShutDown 2 = true ∧
      (run CallerSystem.single.step CallerSystem.single.start shutDownAgain).Caches
        ⟨.transaction, .hash [1]⟩ (.ofBytes .transaction [1]) := by
  have halong : Along CallerSystem.single.step Reserved CallerSystem.single.start
      shutDownAgain := by
    decide +kernel
  have hdone : (run CallerSystem.single.step CallerSystem.single.start shutDownAgain).hasShutDown 2
      = true := by
    decide +kernel
  have hadmitted : (run CallerSystem.single.step CallerSystem.single.start shutDownAgain).admitted
      ⟨.transaction, .hash [1]⟩ = some (.ofBytes .transaction [1]) := by decide +kernel
  obtain ⟨m, -, hkept⟩ := stored_of_hasShutDown CallerSystem.single shutDownAgain halong hdone
  rcases hkept _ _ hadmitted with hstored | ⟨-, hcached⟩
  · have hnone : (run CallerSystem.single.step CallerSystem.single.start shutDownAgain).stored
        ⟨.transaction, .hash [1]⟩ = none := by decide +kernel
    rw [hnone] at hstored
    cases hstored
  · exact ⟨hdone, hcached⟩

/-- The success of a shutdown does not tell that everything is stored: here the one before has
failed. -/
theorem not_stored_of_hasShutDown :
    ¬ ∀ (events : List Event) (n : Nat),
      Along CallerSystem.single.step Reserved CallerSystem.single.start events →
      (run CallerSystem.single.step CallerSystem.single.start events).hasShutDown n = true →
      ∀ id r, (run CallerSystem.single.step CallerSystem.single.start events).admitted id = some r →
        (run CallerSystem.single.step CallerSystem.single.start events).stored id = some r := by
  intro h
  have hstored := h shutDownAgain 2 (by decide +kernel) (by decide +kernel)
    ⟨.transaction, .hash [1]⟩ (.ofBytes .transaction [1]) (by decide +kernel)
  revert hstored
  decide +kernel

/-- The cache is shut down again while the first shutdown waits for the backend. -/
def shutDownMeanwhile : List Event :=
  [.offer (.hash [1]) (.ofBytes .transaction [1]), .go (.caller 0) 0, .go (.caller 0) 0,
    .go (.caller 0) 0, .begin .shutdown, .go (.caller 1) 0, .go (.caller 1) 0, .go (.caller 1) 0,
    .begin .shutdown, .go (.caller 2) 0]

example : (run CallerSystem.single.step CallerSystem.single.start shutDownMeanwhile).hasShutDown 2
      = true ∧
    (run CallerSystem.single.step CallerSystem.single.start shutDownMeanwhile).stored
      ⟨.transaction, .hash [1]⟩ = none := by
  decide +kernel

/-! ## Shutdowns that have failed -/

/-- Whether the shutdown of a caller has ended with a failure. -/
def hasFailed (s : WithCallers) (n : Nat) : Bool :=
  match s.callers[n]? with
  | some ⟨.shutdown, .done (.error _)⟩ => true
  | _ => false

theorem hasFailed_iff :
    s.hasFailed n = true ↔ ∃ e, s.callers[n]? = some ⟨.shutdown, .done (.error e)⟩ := by
  rw [hasFailed]
  constructor
  · intro h
    split at h
    next e hc => exact ⟨e, hc⟩
    next => cases h
  · rintro ⟨e, h⟩
    rw [h]

/-- What a caller has ended with stays so. -/
theorem callers_step_of_done {errand : Errand} {a : errand.Answer}
    (hc : s.callers[n]? = some ⟨errand, .done a⟩) :
    (g.step s e).callers[n]? = some ⟨errand, .done a⟩ := by
  have hset : ∀ {m : Nat} {c c' : Caller}, s.callers[m]? = some c → c ≠ ⟨errand, .done a⟩ →
      (s.callers.set m c')[n]? = some ⟨errand, .done a⟩ := by
    intro m c c' hm hne
    rw [List.getElem?_set_ne, hc]
    rintro rfl
    exact hne (Option.some.inj (hm.symm.trans hc))
  cases touches_step g s e with
  | aside hcallers | own call hcallers | answerWorker verdict hw hcallers => rwa [hcallers]
  | begin errand' hcallers | offer hcallers =>
      rw [hcallers, List.getElem?_append_left (List.getElem?_eq_some_iff.1 hc).1, hc]
  | go hm hr hcallers => exact hcallers ▸ hset hm nofun
  | answerCaller verdict hm hcallers => exact hcallers ▸ hset hm nofun

namespace Watched

theorem eq_failed (h : Watched g s d k) (hn : s.closer = some n) (hfailed : s.hasFailed n = true) :
    k = .failed := by
  obtain ⟨e, hc⟩ := hasFailed_iff.1 hfailed
  obtain ⟨program, hprogram, hobeys⟩ := h.closer n hn
  rw [hc] at hprogram
  cases hprogram
  cases hobeys
  rfl

/-- When the closing has failed, nothing is written any more. -/
theorem stored_step (h : Watched g s d .failed) (hreserved : s.Reserved e) :
    (g.step s e).stored = s.stored := by
  cases touches_step g s e with
  | aside hcallers hcloser hstored => exact hstored
  | own call => exact hreserved.elim
  | begin errand hcallers hcloser hstored | offer hcallers hcloser hstored => exact hstored
  | go hc hr hcallers hcloser hstored => exact hstored
  | answerWorker verdict hw =>
      -- the worker has stopped, and so has no pass
      exfalso
      have hobeys := h.worker
      rw [hw] at hobeys
      obtain ⟨state, hasks, -⟩ := hobeys
      have hstopped := h.running.stopped rfl
      rcases Running.Watched.fits_of_hasStopped h.running.fits hstopped with rfl | rfl | rfl <;>
        cases hasks with
        | pass hpass => cases hpass
  | @answerCaller m _ _ _ verdict hc =>
      exfalso
      by_cases hm : s.closer = some m
      · obtain ⟨program, hprogram, hobeys⟩ := h.closer m hm
        rw [hc] at hprogram
        cases hprogram
        obtain ⟨state, hasks, -⟩ := hobeys
        cases hasks with
        | pass hpass => cases hpass
      · exact Caller.AtRest.not_waits (h.others m _ hc hm)

/-- A cache that is closed is not closed again. -/
theorem closer_step_of_some (h : Watched g s d k) (hn : s.closer = some n) :
    (g.step s e).closer = some n := by
  cases touches_step g s e with
  | aside hcallers hcloser | own call hcallers hcloser | begin errand hcallers hcloser
  | offer hcallers hcloser | answerWorker verdict hw hcallers hcloser
  | answerCaller verdict hc hcallers hcloser =>
      exact hcloser.trans hn
  | @go m _ _ q _ a _ hc hr hcallers hcloser =>
      have hsame : notedCloser m s.closer q a = s.closer := by
        cases q with
        | close =>
            have hclosed : s.running.cache.closed = true := by
              rw [h.running.closed, h.under, hn]
              rfl
            cases hr
            rw [hclosed]
            rfl
        | _ => rfl
      exact hcloser.trans (hsame.trans hn)

end Watched

/-- When the shutdown that closed the cache has failed, what the backend stores stays as it is,
whatever happens and whoever shuts the cache down again. -/
theorem stored_of_hasFailed (g : CallerSystem) {first second : List Event}
    (halong : Along g.step Reserved g.start (first ++ second))
    (hn : (run g.step g.start first).closer = some n)
    (hfailed : (run g.step g.start first).hasFailed n = true) :
    (run g.step g.start (first ++ second)).stored = (run g.step g.start first).stored := by
  obtain ⟨hfirst, hsecond⟩ := along_append.1 halong
  obtain ⟨d, k, h, -⟩ := (Watched.start g).along_run (accounts_start g) hfirst
  obtain rfl := h.eq_failed hn hfailed
  rw [run_append]
  suffices h : ∃ d, Watched g (run g.step (run g.step g.start first) second) d .failed ∧
      (run g.step (run g.step g.start first) second).closer = some n ∧
      (run g.step (run g.step g.start first) second).hasFailed n = true ∧
      (run g.step (run g.step g.start first) second).stored = (run g.step g.start first).stored by
    obtain ⟨_, -, -, -, h⟩ := h
    exact h
  refine run_induction (Q := fun s => ∃ d, Watched g s d .failed ∧ s.closer = some n ∧
    s.hasFailed n = true ∧ s.stored = (run g.step g.start first).stored) hsecond
    ⟨d, h, hn, hfailed, rfl⟩ fun s e hs hreserved => ?_
  obtain ⟨d, h, hn, hfailed, hstored⟩ := hs
  obtain ⟨d', k', hl⟩ := h.step hreserved
  have hn' : (g.step s e).closer = some n := h.closer_step_of_some hn
  have hfailed' : (g.step s e).hasFailed n = true := by
    obtain ⟨error, hc⟩ := hasFailed_iff.1 hfailed
    exact hasFailed_iff.2 ⟨error, callers_step_of_done hc⟩
  obtain rfl := hl.watched.eq_failed hn' hfailed'
  exact ⟨d', hl.watched, hn', hfailed', (h.stored_step hreserved).trans hstored⟩

end WithCallers

end Cache

end RecordStore
