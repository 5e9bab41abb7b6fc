import Mathlib.Data.List.ReduceOption
import Mathlib.Data.UInt
import RecordStore.Proofs.Cache.Outcomes
import RecordStore.Proofs.Cache.PassRuns
import RecordStore.Proofs.Cache.SlotNumbers

/-!
# The books of a cache

Beside a cache with callers a ledger can be kept, from what happens to the cache alone.  It says
which slots came and how each of them went, how much was offered and looked up, and what came out of
every eviction pass.  The passes are not known by what they do to the cache: what is left of each
pass is kept for everybody who runs programs, and is told what the program is told
(`WithCallers.Followed`).

Whatever happens, the counters and the slots of the cache are those of the ledger
(`WithCallers.ledger_balances`).  Passes may overlap.  A slot that two passes have written goes
once, and only the pass that removed it counts it.

Something is counted in the step in which it happens.  No step looks at a counter, so whoever counts
later only makes the counters late.
-/

namespace RecordStore

namespace Cache

open Service (Prog)

/-! ## Ledgers -/

/-- What became of the slots of a cache, what the cache was asked for, and how its eviction passes
ended. -/
structure Ledger where
  /-- The numbers that were given to slots which an admission appended. -/
  given : List Nat := []
  /-- The numbers of the slots that eviction passes removed. -/
  evicted : List Nat := []
  /-- The numbers of the slots that went by a deletion, with their kind, or at the end of a
  shutdown. -/
  removed : List Nat := []
  /-- How many records were offered. -/
  offered : Nat := 0
  /-- How many times a record was asked for. -/
  lookedUp : Nat := 0
  /-- What came out of the eviction passes that are over. -/
  outcomes : List (Except Error Nat) := []

namespace Ledger

/-- A ledger that goes on with another one. -/
def add (x y : Ledger) : Ledger where
  given := x.given ++ y.given
  evicted := x.evicted ++ y.evicted
  removed := x.removed ++ y.removed
  offered := x.offered + y.offered
  lookedUp := x.lookedUp + y.lookedUp
  outcomes := x.outcomes ++ y.outcomes

/-- What the eviction passes gave, where one that failed gave nothing. -/
def results (x : Ledger) : List (Option Nat) := x.outcomes.map Except.toOption

theorem results_add (x y : Ledger) : (x.add y).results = x.results ++ y.results := List.map_append

end Ledger

/-- The cache is what its ledger says. -/
structure Balances (c : Cache) (x : Ledger) : Prop where
  /-- The counter of entries removed counts the slots that passes removed. -/
  evicted : c.counters.evicted = .ofNat x.evicted.length
  /-- The passes that succeeded gave the number of these slots. -/
  results : x.evicted.length = x.results.reduceOption.sum
  failed : c.counters.failedEvictions = .ofNat (x.results.count none)
  offered : c.counters.admissions + c.counters.rejections = .ofNat x.offered
  lookedUp : c.counters.hits + c.counters.misses = .ofNat x.lookedUp
  /-- A slot that came is there or has gone, and it has gone in one way. -/
  slots : (c.contents.slots.numbers ++ (x.evicted ++ x.removed)).Perm x.given
  /-- No two slots were given one number. -/
  nodup : x.given.Nodup
  length : x.given.length = c.len + x.evicted.length + x.removed.length

/-! ## Changes that are entered -/

/-- What happened to a cache is what a ledger says. -/
structure Enters (c c' : Cache) (x : Ledger) : Prop where
  slots : c.contents.slots.Turns c'.contents.slots x.given (x.evicted ++ x.removed)
  evicted : c'.counters.evicted = c.counters.evicted + .ofNat x.evicted.length
  results : x.evicted.length = x.results.reduceOption.sum
  failed : c'.counters.failedEvictions
    = c.counters.failedEvictions + .ofNat (x.results.count none)
  offered : c'.counters.admissions + c'.counters.rejections
    = c.counters.admissions + c.counters.rejections + .ofNat x.offered
  lookedUp : c'.counters.hits + c'.counters.misses
    = c.counters.hits + c.counters.misses + .ofNat x.lookedUp

namespace Ledger

/-- What is noted of an offer. -/
def ofOffer (c : Cache) (key : Key) (record : Record) : Ledger where
  given := if c.accepts record then c.contents.slots.given key record else []
  offered := 1

/-- What is noted of a call that is answered at once, with the slots before and after it. -/
def ofCall (s t : Slots) : Call → Ledger
  | .get _ _ | .seek _ _ => { lookedUp := 1 }
  | .delete _ _ | .clear _ => { removed := s.gone t }
  | _ => {}

/-- What is noted of a request of a program, but for the outcome of a pass. -/
def ofRequest (s t : Slots) : Request → Ledger
  | .dropWritten _ => { evicted := s.gone t }
  | .empty => { removed := s.gone t }
  | _ => {}

end Ledger

namespace Enters

variable {config : Config} {c c' c'' : Cache} {x y : Ledger} {outcomes : List (Except Error Nat)}

theorem refl (c : Cache) : c.Enters c {} where
  slots := .refl _
  evicted := (UInt64.add_zero _).symm
  results := rfl
  failed := (UInt64.add_zero _).symm
  offered := (UInt64.add_zero _).symm
  lookedUp := (UInt64.add_zero _).symm

/-- Counts that are added one after the other. -/
theorem ofNat_add_ofNat {n n' n'' : UInt64} {k k' : Nat} (h : n' = n + .ofNat k)
    (h' : n'' = n' + .ofNat k') : n'' = n + .ofNat (k + k') := by
  rw [h', h, UInt64.ofNat_add, UInt64.add_assoc]

theorem trans (h : c.Enters c' x) (h' : c'.Enters c'' y) : c.Enters c'' (x.add y) where
  slots := by
    refine (h.slots.trans h'.slots).of_perm ?_
    refine List.perm_append_comm.trans ?_
    simp only [Ledger.add, List.append_assoc]
    refine List.Perm.append_left _ ?_
    rw [← List.append_assoc, ← List.append_assoc]
    exact List.perm_append_comm.append_right _
  evicted := by
    rw [Ledger.add, List.length_append]
    exact ofNat_add_ofNat h.evicted h'.evicted
  results := by
    rw [Ledger.results_add, List.reduceOption_append, List.sum_append, ← h.results, ← h'.results]
    exact List.length_append
  failed := by
    rw [Ledger.results_add, List.count_append]
    exact ofNat_add_ofNat h.failed h'.failed
  offered := ofNat_add_ofNat h.offered h'.offered
  lookedUp := ofNat_add_ofNat h.lookedUp h'.lookedUp

/-- Slots come and go, but for eviction passes, and nothing is counted. -/
theorem of_turns {given removed : List Nat}
    (hslots : c.contents.slots.Turns c'.contents.slots given removed)
    (hcounters : c'.counters = c.counters) : c.Enters c' { given, removed } where
  slots := hslots
  evicted := by rw [hcounters]; exact (refl c).evicted
  results := rfl
  failed := by rw [hcounters]; exact (refl c).failed
  offered := by rw [hcounters]; exact (refl c).offered
  lookedUp := by rw [hcounters]; exact (refl c).lookedUp

/-- A change of neither the slots nor the counters. -/
theorem of_eq (hslots : c'.contents.slots = c.contents.slots)
    (hcounters : c'.counters = c.counters) : c.Enters c' {} :=
  of_turns (hslots ▸ .refl _) hcounters

/-- A change by which slots go away, and nothing is counted. -/
theorem of_removed (hloses : c.contents.slots.Loses c'.contents.slots)
    (hnext : c'.contents.slots.nextSeq = c.contents.slots.nextSeq)
    (hcounters : c'.counters = c.counters) :
    c.Enters c' { removed := c.contents.slots.gone c'.contents.slots } :=
  of_turns (.of_loses hloses hnext) hcounters

theorem offer (h : c.Sound config) (key : Key) (record : Record) :
    c.Enters (c.offer key record).2 (.ofOffer c key record) := by
  rcases Running.offer_cases c key record with ⟨haccepts, heq⟩ | ⟨haccepts, heq⟩
  · rw [heq, Ledger.ofOffer, haccepts]
    exact {
      slots := by
        rw [Contents.slots_put]
        exact Slots.turns_insert h.contents.slots key record
      evicted := (refl c).evicted
      results := rfl
      failed := (refl c).failed
      offered := add_right_comm _ _ _
      lookedUp := (refl c).lookedUp }
  · rw [heq, Ledger.ofOffer, haccepts]
    exact {
      slots := .refl _
      evicted := (refl c).evicted
      results := rfl
      failed := (refl c).failed
      offered := (UInt64.add_assoc _ _ _).symm
      lookedUp := (refl c).lookedUp }

theorem get (id : EntryId) : c.Enters (c.get id).2 { lookedUp := 1 } := by
  simp only [Cache.get]
  split
  · exact { refl c with lookedUp := add_right_comm _ _ _ }
  · exact { refl c with lookedUp := (UInt64.add_assoc _ _ _).symm }

/-- Calls that are answered at once, admit nothing, and remove one entry or kind at most. -/
theorem perform {r : Running} (h : r.cache.Sound config) {call : Call}
    (hcall : WithCallers.isPlain call = true) : r.cache.Enters (r.perform call).2.cache
      (.ofCall r.cache.contents.slots (r.perform call).2.cache.contents.slots call) := by
  cases call with
  | save | saveBatch | update | deleteBatch | shutdown => cases hcall
  | init =>
      have hcache := r.cache_start
      exact .of_eq (congrArg (·.contents.slots) hcache) (congrArg (·.counters) hcache)
  | get kind key => exact .get _
  | seek kind raw => exact .get _
  | delete kind key =>
      refine .of_removed (Alters.delete h ⟨kind, key⟩).slots ?_ rfl
      exact (congrArg (·.nextSeq) (Contents.slots_remove _ _)).trans (Slots.nextSeq_remove _)
  | clear kind =>
      refine .of_removed (Alters.clear h kind).slots ?_ rfl
      exact (congrArg (·.nextSeq) (Contents.slots_removeKind _ _)).trans
        (Slots.nextSeq_eraseAll _ _)
  | _ => exact .refl _

/-- An eviction pass that has been written removes slots, and gives their number. -/
theorem dropWritten (candidates : List Candidate)
    (houtcomes : outcomes.map Except.toOption = [some (c.dropWritten candidates).1]) :
    c.Enters (c.dropWritten candidates).2
      { evicted := c.contents.slots.gone (c.dropWritten candidates).2.contents.slots,
        outcomes } := by
  have hloses := (Alters.dropWritten (c := c) candidates).slots
  have hslots : (c.dropWritten candidates).2.contents.slots
      = (c.contents.dropAllWritten candidates).2.slots := Contents.slots_rebuild _ _
  have hcount : (c.contents.slots.gone (c.dropWritten candidates).2.contents.slots).length
      = (c.dropWritten candidates).1 := by
    have hperm := (Slots.perm_gone hloses).length_eq
    have hlen := Contents.fst_dropAllWritten_add_len candidates c.contents
    rw [List.length_append, Slots.length_numbers, Slots.length_numbers, hslots] at hperm
    rw [hslots]
    exact Nat.add_left_cancel (hperm.trans (hlen.symm.trans (Nat.add_comm _ _)))
  exact { refl c with
    slots := by
      rw [List.append_nil]
      refine .of_loses hloses ?_
      rw [hslots, Contents.nextSeq_dropAllWritten]
    evicted := by
      rw [hcount]
      rfl
    results := by
      rw [hcount, Ledger.results, houtcomes]
      rfl
    failed := by
      rw [Ledger.results, houtcomes]
      exact (refl c).failed }

/-- A request by which nothing comes or goes, and nothing is counted, ends a pass that had nothing
to do, or none. -/
theorem idle (hslots : c'.contents.slots = c.contents.slots)
    (hcounters : c'.counters = c.counters)
    (houtcomes : outcomes.map Except.toOption = [] ∨ outcomes.map Except.toOption = [some 0]) :
    c.Enters c' { outcomes } := by
  refine { of_eq hslots hcounters with results := ?_, failed := ?_ }
  · rw [Ledger.results]
    rcases houtcomes with h | h <;> rw [h] <;> rfl
  · rw [Ledger.results]
    rcases houtcomes with h | h <;> rw [h] <;> exact (of_eq hslots hcounters).failed

/-- What is replied to a program is entered, with the outcome of the pass that is over then. -/
theorem reply {r : Running} {caller now : Nat} {q : Request} {a : Reply q}
    (hq : q.isOfProgram = true) (ha : (r.reply? caller now q).1 = some a)
    (houtcomes : outcomes.map Except.toOption = (Service.reported? q a).toList) :
    r.cache.Enters (r.reply? caller now q).2.cache
      { Ledger.ofRequest r.cache.contents.slots
        (r.reply? caller now q).2.cache.contents.slots q with
        outcomes } := by
  have hsame : ∀ {c'}, c' = r.cache → outcomes.map Except.toOption = [] →
      r.cache.Enters c' { outcomes } := by
    rintro _ rfl hnil
    exact .idle rfl rfl (.inl hnil)
  cases q with
  | perform | receive => cases hq
  | beginEviction =>
      obtain rfl : r.cache.beginEviction.1 = a := Option.some.inj ha
      show r.cache.Enters r.cache.beginEviction.2 { outcomes }
      rcases r.cache.beginEviction_cases with hc | ⟨candidates, -, hc⟩ <;> rw [hc] at houtcomes ⊢
      · exact .idle rfl rfl (.inr houtcomes)
      · exact .idle rfl rfl (.inl houtcomes)
  | beginFlush =>
      show r.cache.Enters r.cache.beginFlush.2 { outcomes }
      rcases r.cache.beginFlush_cases with hc | hc <;> rw [hc] <;>
        exact .idle rfl rfl (.inl houtcomes)
  | close | finishBatch => exact .idle rfl rfl (.inl houtcomes)
  | dropWritten candidates =>
      cases ha
      exact .dropWritten candidates houtcomes
  | failEviction =>
      exact { refl r.cache with
        results := by
          rw [Ledger.results, houtcomes]
          rfl
        failed := by
          rw [Ledger.results, houtcomes]
          rfl }
  | empty =>
      have hremoved : r.cache.Enters r.cache.empty
          { removed := r.cache.contents.slots.gone r.cache.empty.contents.slots } :=
        .of_removed Alters.empty.slots rfl rfl
      obtain rfl := List.map_eq_nil_iff.1 houtcomes
      exact hremoved
  | queueRequest | submit | await | nextEvent | join | beginWork =>
      exact hsame (r.cache_of_isAboutWork caller now rfl) houtcomes
  | backend => cases ha
  | _ => exact hsame rfl houtcomes

/-- The cache is what its ledger says after a start without slots and counts. -/
theorem balances (h : (Cache.ofConfig config).Enters c x) : c.Balances x := by
  have hgiven : List.range c.contents.slots.nextSeq = x.given := h.slots.given_eq
  have hperm : (c.contents.slots.numbers ++ (x.evicted ++ x.removed)).Perm x.given := h.slots.perm
  exact {
    evicted := h.evicted.trans (UInt64.zero_add _)
    results := h.results
    failed := h.failed.trans (UInt64.zero_add _)
    offered := h.offered.trans (UInt64.zero_add _)
    lookedUp := h.lookedUp.trans (UInt64.zero_add _)
    slots := hperm
    nodup := hgiven ▸ List.nodup_range
    length := by
      rw [← hperm.length_eq, List.length_append, List.length_append, Slots.length_numbers,
        Nat.add_assoc]
      rfl }

end Enters

theorem Party.caller_ne_worker (n : Nat) : Party.caller n ≠ .worker := nofun

namespace WithCallers

variable {g : CallerSystem} {s s' : WithCallers} {e : Event}

/-! ## Passes that are followed -/

/-- Beside everybody stands what is left of the eviction pass that they are in, or the whole of
their next one. -/
structure Followed (g : CallerSystem) (s : WithCallers)
    (left : Party → Prog (Except Error Nat)) : Prop where
  worker : Service.Follows g.backendName (left .worker) s.worker
  callers : ∀ (n : Nat) c, s.callers[n]? = some c →
    Service.Follows g.backendName (left (.caller n)) c.program
  absent : ∀ n, s.callers.length ≤ n → left (.caller n) = Service.evictOldest g.backendName

namespace Followed

variable {left : Party → Prog (Except Error Nat)} {party : Party} {q : Request} {a : Reply q}

theorem start (g : CallerSystem) : g.start.Followed g fun _ =>
    Service.evictOldest g.backendName where
  worker := .between (Service.runsPasses_setOut _)
  callers n c hc := by cases hc
  absent _ _ := rfl

/-- A party that is told nothing is in no other pass than before. -/
theorem untold (h : s.Followed g left) (ht : GoesOnWith g s s' none) : s'.Followed g left := by
  cases ht with
  | stays hworker hcallers => exact ⟨hworker ▸ h.worker, hcallers ▸ h.callers, hcallers ▸ h.absent⟩
  | again hw hworker hcallers =>
      refine ⟨?_, hcallers ▸ h.callers, hcallers ▸ h.absent⟩
      have hover := h.worker
      rw [hw] at hover
      rw [hworker, hover.of_done]
      exact .between (Service.runsPasses_work _)
  | begins errand hworker hcallers =>
      refine ⟨hworker ▸ h.worker, fun n c hc => ?_, fun n hn => ?_⟩
      · rw [hcallers] at hc
        rcases getElem?_concat_cases hc with hold | ⟨rfl, rfl⟩
        · exact h.callers n c hold
        · rw [h.absent _ (Nat.le_refl _)]
          exact .between (Service.runsPasses_program _ errand)
      · rw [hcallers, List.length_append] at hn
        exact h.absent n (by omega)

/-- The pass of a party is told what the party is told. -/
theorem told (h : s.Followed g left) (ht : GoesOnWith g s s' (some (party, ⟨q, a⟩))) :
    s'.Followed g (Function.update left party
        (Service.renew g.backendName ((left party).hear q a))) ∧
      q.isOfProgram = true ∧
      ((left party).hear q a).result?.map Except.toOption = Service.reported? q a := by
  cases ht with
  | @worker q next a hw hworker hcallers =>
      have hbefore := h.worker
      rw [hw] at hbefore
      obtain ⟨hafter, hreport⟩ := hbefore.hear a
      refine ⟨⟨?_, fun n c hc => ?_, fun n hn => ?_⟩, hbefore.isOfProgram, hreport⟩
      · rw [hworker, Function.update_self]
        exact hafter
      · rw [Function.update_of_ne (Party.caller_ne_worker n)]
        exact h.callers n c (hcallers ▸ hc)
      · rw [Function.update_of_ne (Party.caller_ne_worker n)]
        exact h.absent n (hcallers ▸ hn)
  | @caller m errand q next a hm hworker hcallers =>
      obtain ⟨hafter, hreport⟩ := (h.callers m _ hm).hear a
      refine ⟨⟨?_, fun n c hc => ?_, fun n hn => ?_⟩, (h.callers m _ hm).isOfProgram, hreport⟩
      · rw [Function.update_of_ne (Party.caller_ne_worker m).symm]
        exact hworker ▸ h.worker
      · rw [hcallers] at hc
        rcases getElem?_set_cases hc with ⟨rfl, rfl⟩ | ⟨hne, hold⟩
        · rw [Function.update_self]
          exact hafter
        · rw [Function.update_of_ne fun heq => hne (Party.caller.inj heq)]
          exact h.callers n c hold
      · rw [hcallers, List.length_set] at hn
        have hlt := (List.getElem?_eq_some_iff.1 hm).1
        have hne : Party.caller n ≠ .caller m := fun heq => by
          cases heq
          omega
        rw [Function.update_of_ne hne]
        exact h.absent n hn

end Followed

/-! ## Books -/

/-- A ledger, and what is left of everybody's eviction pass. -/
structure Books where
  ledger : Ledger := {}
  left : Party → Prog (Except Error Nat)

/-- What is noted of an event.  Where a party is told something, so is its pass, and what comes out
of that is noted. -/
noncomputable def CallerSystem.entry (g : CallerSystem) (s : WithCallers)
    (left : Party → Prog (Except Error Nat)) (e : Event) : Ledger :=
  let before := s.running.cache.contents.slots
  let after := (g.step s e).running.cache.contents.slots
  match e with
  | .offer key record => .ofOffer s.running.cache key record
  | .call call => .ofCall before after call
  | e =>
      match s.told? e with
      | some (party, ⟨q, a⟩) =>
          { Ledger.ofRequest before after q with
            outcomes := ((left party).hear q a).result?.toList }
      | none => {}

/-- Whether a record is offered to the cache. -/
def Event.isOffer : Event → Bool
  | .offer _ _ => true
  | _ => false

/-- Whether the cache is asked for a record. -/
def Event.isLookUp : Event → Bool
  | .call (.get _ _) | .call (.seek _ _) => true
  | _ => false

theorem CallerSystem.asked_entry (g : CallerSystem) (s : WithCallers)
    (left : Party → Prog (Except Error Nat))
    (e : Event) : (g.entry s left e).offered = (if e.isOffer then 1 else 0) ∧
      (g.entry s left e).lookedUp = (if e.isLookUp then 1 else 0) := by
  cases e with
  | offer key record => exact ⟨rfl, rfl⟩
  | call call => cases call <;> exact ⟨rfl, rfl⟩
  | own | begin => exact ⟨rfl, rfl⟩
  | go | take | answer =>
      simp only [CallerSystem.entry]
      split
      next party q a _ => cases q <;> exact ⟨rfl, rfl⟩
      next => exact ⟨rfl, rfl⟩

/-- What is left of the passes after an event. -/
noncomputable def CallerSystem.leftAfter (g : CallerSystem) (s : WithCallers)
    (left : Party → Prog (Except Error Nat)) (e : Event) : Party → Prog (Except Error Nat) :=
  match s.told? e with
  | some (party, ⟨q, a⟩) =>
      Function.update left party (Service.renew g.backendName ((left party).hear q a))
  | none => left

/-- The books are brought up to date after every event. -/
noncomputable def CallerSystem.keepBooks (g : CallerSystem) : WithCallers → Books →
    List Event → Books
  | _, b, [] => b
  | s, b, e :: events =>
      g.keepBooks (g.step s e)
        { ledger := b.ledger.add (g.entry s b.left e), left := g.leftAfter s b.left e } events

/-- The books of a cache with callers from the start on. -/
noncomputable def CallerSystem.books (g : CallerSystem) (events : List Event) : Books :=
  g.keepBooks g.start { left := fun _ => Service.evictOldest g.backendName } events

section

variable {stage : Nat → Stage} {left : Party → Prog (Except Error Nat)}

theorem Followed.step (h : s.Followed g left) (e : Event) :
    (g.step s e).Followed g (g.leftAfter s left e) := by
  have hgoes := goesOnWith_step g s e
  rw [CallerSystem.leftAfter]
  split
  next party q a htold => exact (h.told (htold ▸ hgoes)).1
  next htold => exact h.untold (htold ▸ hgoes)

theorem Followed.reported (h : s.Followed g left) {party : Party} {q : Request} {a : Reply q}
    (htold : s.told? e = some (party, ⟨q, a⟩)) : q.isOfProgram = true ∧
      ((left party).hear q a).result?.toList.map Except.toOption
        = (Service.reported? q a).toList := by
  have hgoes := goesOnWith_step g s e
  rw [htold] at hgoes
  obtain ⟨-, hq, hreport⟩ := h.told hgoes
  rw [← hreport, Option.toList_map]
  exact ⟨hq, rfl⟩

theorem Followed.enters_go (h : s.Followed g left) (party : Party) (now : Nat) :
    s.running.cache.Enters (g.step s (.go party now)).running.cache
      (g.entry s left (.go party now)) := by
  simp only [CallerSystem.entry]
  split
  next party' q a htold =>
    obtain ⟨hq, houtcomes⟩ := h.reported htold
    obtain ⟨q', hasks, htold⟩ := Option.bind_eq_some_iff.1 htold
    obtain ⟨a', ha, heq⟩ := Option.map_eq_some_iff.1 htold
    cases heq
    rw [running_go, hasks]
    exact .reply hq ha houtcomes
  next htold =>
    rw [running_go]
    cases hasks : s.asks? party with
    | none => exact .refl _
    | some q =>
        simp only [told?, hasks, Option.bind_some, Option.map_eq_none_iff] at htold
        have hcache : (s.running.reply? party.number now q).2.cache = s.running.cache :=
          Running.cache_of_wait (Prod.ext htold rfl)
        rw [Option.elim_some, hcache]
        exact .refl _

theorem Followed.enters_take (h : s.Followed g left) (event : Worker.Event Task) (now : Nat) :
    s.running.cache.Enters (g.step s (.take event now)).running.cache
      (g.entry s left (.take event now)) := by
  simp only [CallerSystem.entry]
  rw [cache_take]
  split
  next party q a htold =>
    obtain ⟨-, houtcomes⟩ := h.reported htold
    simp only [told?] at htold
    split at htold
    · split at htold <;> cases htold
      exact .idle rfl rfl (.inl houtcomes)
    · cases htold
  next => exact .refl _

theorem Followed.enters_answer (h : s.Followed g left) (party : Party) (verdict : Verdict) :
    s.running.cache.Enters (g.step s (.answer party verdict)).running.cache
      (g.entry s left (.answer party verdict)) := by
  have hrunning : (g.step s (.answer party verdict)).running = s.running := by
    rw [step_answer]
    exact running_hear s party verdict.outcome
  simp only [CallerSystem.entry]
  rw [hrunning]
  split
  next party' q a htold =>
    obtain ⟨-, houtcomes⟩ := h.reported htold
    obtain ⟨call, hcall, heq⟩ := Option.map_eq_some_iff.1 htold
    cases heq
    exact .idle rfl rfl (.inl houtcomes)
  next => exact .refl _

/-- What an event does to the cache is noted. -/
theorem Staged.enters (h : s.Staged g stage) (hfollowed : s.Followed g left) (e : Event) :
    s.running.cache.Enters (g.step s e).running.cache (g.entry s left e) := by
  cases e with
  | offer key record => exact .offer h.sound key record
  | call call =>
      simp only [CallerSystem.entry, CallerSystem.step]
      split
      next hcall => exact .perform h.sound hcall
      next hcall => cases call <;> first | exact .refl _ | exact absurd rfl hcall
  | own | begin => exact .refl _
  | go party now => exact hfollowed.enters_go party now
  | take event now => exact hfollowed.enters_take event now
  | answer party verdict => exact hfollowed.enters_answer party verdict

end

theorem CallerSystem.keepBooks_concat (g : CallerSystem) (s : WithCallers) (b : Books)
    (events : List Event) (e : Event) : g.keepBooks s b (events ++ [e])
      = { ledger := (g.keepBooks s b events).ledger.add
            (g.entry (run g.step s events) (g.keepBooks s b events).left e)
          left := g.leftAfter (run g.step s events) (g.keepBooks s b events).left e } := by
  induction events generalizing s b with
  | nil => rfl
  | cons e' events ih => exact ih _ _

/-- Everybody's passes are followed, and what happened to the cache is in the ledger. -/
theorem books_run (g : CallerSystem) (events : List Event) :
    (run g.step g.start events).Followed g (g.books events).left ∧
      g.start.running.cache.Enters (run g.step g.start events).running.cache
        (g.books events).ledger := by
  induction events using List.reverseRecOn with
  | nil => exact ⟨.start g, .refl _⟩
  | append_singleton events e ih =>
      obtain ⟨hfollowed, henters⟩ := ih
      obtain ⟨stage, hstaged, -⟩ := staged_run g events
      rw [run_concat, CallerSystem.books, g.keepBooks_concat]
      exact ⟨hfollowed.step e, henters.trans (hstaged.enters hfollowed e)⟩

/-- Every offer and every look-up is in the ledger. -/
theorem asked_books (g : CallerSystem) (events : List Event) :
    (g.books events).ledger.offered = events.countP Event.isOffer ∧
      (g.books events).ledger.lookedUp = events.countP Event.isLookUp := by
  induction events using List.reverseRecOn with
  | nil => exact ⟨rfl, rfl⟩
  | append_singleton events e ih =>
      obtain ⟨hoffered, hlookedUp⟩ := ih
      obtain ⟨hoffered', hlookedUp'⟩ :=
        g.asked_entry (run g.step g.start events) (g.books events).left e
      rw [CallerSystem.books, g.keepBooks_concat, List.countP_append, List.countP_append,
        ← hoffered, ← hlookedUp, List.countP_singleton, List.countP_singleton]
      exact ⟨congrArg _ hoffered', congrArg _ hlookedUp'⟩

/-- **Conservation.**  Whatever happens to a cache with callers, its counters and its slots are
those of the ledger.  The passes that the ledger knows of are those that programs run, and it has
every offer and every look-up.

Offers and deletions may be part of longer calls, one after the other
(`CallerSystem.running_offers`, `CallerSystem.running_deletes`). -/
theorem ledger_balances (g : CallerSystem) (events : List Event) :
    (run g.step g.start events).running.cache.Balances (g.books events).ledger ∧
      (run g.step g.start events).Followed g (g.books events).left ∧
      (g.books events).ledger.offered = events.countP Event.isOffer ∧
      (g.books events).ledger.lookedUp = events.countP Event.isLookUp := by
  obtain ⟨hfollowed, henters⟩ := books_run g events
  exact ⟨henters.balances, hfollowed, asked_books g events⟩

/-- Two passes have looked at the one entry before either was written. -/
example : (run CallerSystem.single.step CallerSystem.single.start
    (.offer (.hash [1]) (.ofBytes .transaction [1]) ::
      ([0, 1].flatMap fun n => .begin .evict :: List.replicate 3 (.go (.caller n) 0)) ++
      [0, 1].flatMap fun n =>
        [.answer (.caller n) .done, .go (.caller n) 0, .go (.caller n) 0])).running.cache.counters
    = { admissions := 1, evicted := 1 } := by decide +kernel

end WithCallers

end Cache

end RecordStore
