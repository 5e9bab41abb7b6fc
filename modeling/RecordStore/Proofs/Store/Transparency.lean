import RecordStore.Proofs.Store.Coherence

/-!
# Stores with and without a cache

In a *history* every operation, and every pass that a program of the cache has begun, is over
before the next turn comes (`Turn`).  Then the client cannot tell by loads, finds and existence
checks whether the store has a cache.  With a cache of any configuration and without one, a read by
an address gives what was written there last (`Session.value_eq_lastWritten`), whatever was
evicted, written back and read again.
-/

namespace RecordStore

open Bench (StoreStep Value)
open Cache (Orderly)

namespace Store

/-! ## Histories -/

/-- A sequential store with the programs that run on its cache. -/
structure Session where
  store : SequentialStore
  jobs : List (Cache.Service.Prog Unit) := []

/-- What may happen next in a history.  Each turn is over when the next begins. -/
inductive Turn where
  /-- The client has an operation carried out. -/
  | operate (step : StoreStep)
  /-- Someone has a program run on the cache. -/
  | begin (job : Cache.Job)
  /-- A program goes on, until it has ended or has to wait. -/
  | go (n now : Nat)

/-- Whether an operation of the client is ordinary, if it is one. -/
def Turn.isOrdinary : Turn → Bool
  | operate step => step.isOrdinary
  | begin _ | go _ _ => true

namespace Session

/-- A store over tables in memory, with a new cache if there is a configuration. -/
def new (config? : Option Cache.Config) (m : Memory) : Session where
  store := { cache := config?.map .ofConfig, backends := [.memory m] }

/-- What a turn does.  One that is not possible does nothing. -/
def turn (b : Session) : Turn → Session
  | .operate step => { b with store := (b.store.operate step).2 }
  | .begin job => { b with jobs := b.jobs ++ [job.program b.store.backendName] }
  | .go n now =>
      match b.jobs[n]? with
      | some p => ⟨(b.store.goOn n now p).2, b.jobs.set n (b.store.goOn n now p).1⟩
      | none => b

/-- What an operation would give back. -/
def value (b : Session) (step : StoreStep) : Value := (b.store.operate step).1

end Session

/-! ### What was written last -/

/-- What a turn writes under an address: a record, or none if it deletes what is there. -/
def Turn.writes? (id : EntryId) : Turn → Option (Option Record)
  | operate (.save record key) | operate (.update record key _) =>
      if record.idAt key = id then some (some record) else none
  | operate (.saveBatch entries) =>
      -- of several entries with one address the last one counts
      (entries.reverse.find? fun e => e.id = id).map fun e => some e.2
  | operate (.delete kind key) => if (⟨kind, key⟩ : EntryId) = id then some none else none
  | operate (.deleteBatch ids) => if id ∈ ids then some none else none
  | _ => none

/-- What was written last under each address, or what was there at first if nothing was. -/
def lastWritten (initial : Records) (turns : List Turn) : Records := fun id =>
  (turns.reverse.findSome? (Turn.writes? id)).getD (initial id)

/-- What is stored after a turn. -/
def Turn.leaves (t : Records) : Turn → Records
  | operate step => step.leaves t
  | begin _ | go _ _ => t

theorem leaves_apply {turn : Turn} (h : turn.isOrdinary = true) (t : Records) (id : EntryId) :
    turn.leaves t id = (turn.writes? id).getD (t id) := by
  cases turn with
  | begin | go => rfl
  | operate step =>
      cases step with
      | save record key | update record key reason =>
          show t.put (key, record) id = _
          simp only [Records.put, Turn.writes?, Entry.id, eq_comm (a := id)]
          split <;> rfl
      | saveBatch entries => exact Records.saveBatch_apply entries t id
      | delete kind key =>
          show t.erase ⟨kind, key⟩ id = _
          simp only [Records.erase, Turn.writes?, eq_comm (a := id)]
          split <;> rfl
      | deleteBatch ids =>
          refine (Records.deleteBatch_apply ids t).trans ?_
          simp only [Turn.writes?]
          split <;> rfl
      | shutdown | clearTable | clearMetadata => cases h
      | _ => rfl

theorem lastWritten_cons {turn : Turn} (h : turn.isOrdinary = true) (initial : Records)
    (turns : List Turn) :
    lastWritten initial (turn :: turns) = lastWritten (turn.leaves initial) turns := by
  funext id
  rw [lastWritten, lastWritten, leaves_apply h, List.reverse_cons, List.findSome?_append]
  cases turns.reverse.findSome? (Turn.writes? id) with
  | some written => rfl
  | none => cases hwrites : turn.writes? id <;> simp [hwrites]

/-! ### Coherent histories -/

/-- A session over a coherent store, where no pass is under way. -/
structure Session.Regular (config : Cache.Config) (t : Records) (b : Session) : Prop where
  settled : SequentialStore.Settled b.store.layout config t b.store
  tabled : t.Tabled
  orderly : ∀ p ∈ b.jobs, Orderly .resting p

namespace Session

variable {config : Cache.Config} {t : Records} {b : Session}

theorem regular_turn (h : b.Regular config t) {turn : Turn} (hturn : turn.isOrdinary = true) :
    (b.turn turn).Regular config (turn.leaves t) := by
  cases turn with
  | operate step =>
      obtain ⟨-, hs⟩ :=
        SequentialStore.Coherent.ensures_operation h.settled.single h.tabled hturn b.store h.settled
      refine ⟨hs.relayout, ?_, h.orderly⟩
      show (step.call?.elim t t.apply).Tabled
      cases step.call? with
      | none => exact h.tabled
      | some call => exact h.tabled.apply call
  | begin job =>
      refine ⟨h.settled, h.tabled, fun p hp => ?_⟩
      rcases List.mem_append.1 hp with hp | hp
      · exact h.orderly p hp
      · rw [List.mem_singleton.1 hp]
        exact job.orderly_program _
  | go n now =>
      have hset : ∀ {q}, Orderly .resting q → ∀ p ∈ b.jobs.set n q, Orderly .resting p := by
        intro q hq p hp
        rcases List.mem_or_eq_of_mem_set hp with hp | rfl
        · exact h.orderly p hp
        · exact hq
      simp only [Session.turn]
      split
      next p hp =>
        have horderly := h.orderly p (List.mem_of_getElem? hp)
        cases hcache : b.store.cache with
        | none =>
            rw [SequentialStore.goOn_of_none hcache]
            exact ⟨h.settled, h.tabled, hset horderly⟩
        | some r =>
            obtain ⟨hgone, hs⟩ := SequentialStore.goOn_orderly horderly h.settled trivial hcache
            exact ⟨hs.relayout, h.tabled, hset hgone⟩
      next => exact h

theorem regular_run (h : b.Regular config t) {turns : List Turn}
    (hturns : ∀ turn ∈ turns, turn.isOrdinary = true) :
    (run turn b turns).Regular config (lastWritten t turns) := by
  induction turns generalizing b t with
  | nil => exact h
  | cons turn turns ih =>
      rw [List.forall_mem_cons] at hturns
      rw [lastWritten_cons hturns.1]
      exact ih (regular_turn h hturns.1) hturns.2

theorem regular_new (config? : Option Cache.Config) (m : Memory) (hm : m.records.Tabled) :
    (new config? m).Regular (config?.getD {}) m.records where
  settled := {
    isOpen := rfl
    layout := by rw [SequentialStore.layout, Option.isSome_map]
    cache := by
      intro r hr
      obtain ⟨config, rfl, rfl⟩ := Option.map_eq_some_iff.1 hr
      exact Cache.mirrors_ofConfig config m.records
    backend := ⟨m, rfl, rfl⟩ }
  tabled := hm
  orderly := nofun

/-- Reads by addresses give what was written last, whatever has happened. -/
theorem value_run (config? : Option Cache.Config) {m : Memory} (hm : m.records.Tabled)
    {turns : List Turn} (hturns : ∀ turn ∈ turns, turn.isOrdinary = true) {step : StoreStep}
    {v : Value} (hv : step.reading? (lastWritten m.records turns) = some v) :
    (run turn (new config? m) turns).value step = v := by
  have h := regular_run (regular_new config? m hm) hturns
  have hstep : step.isOrdinary = true := by
    cases step <;> first | rfl | cases hv
  exact (SequentialStore.Coherent.ensures_operation h.settled.single h.tabled hstep _
    h.settled).1 v hv

/-- A store with a cache and one without answer reads by addresses alike: with what was written
last. -/
theorem value_eq_lastWritten (config : Cache.Config) {m : Memory} (hm : m.records.Tabled)
    {turns : List Turn} (hturns : ∀ turn ∈ turns, turn.isOrdinary = true) {step : StoreStep}
    {v : Value} (hv : step.reading? (lastWritten m.records turns) = some v) :
    (run turn (new (some config) m) turns).value step = v ∧
      (run turn (new none m) turns).value step = v :=
  ⟨value_run (some config) hm hturns hv, value_run none hm hturns hv⟩

/-- A cache for one entry writes it and drops it, and has it back from a load before an update.  A
batch brings two records under one key, and a record of a kind that is excluded. -/
def eventful : List Turn :=
  [.operate .init, .begin .beginWork, .go 0 0,
    .operate (.save (.ofBytes .transaction [1]) (.hash [1])), .begin .work, .go 1 0,
    .operate (.load .transaction (.hash [1])),
    .operate (.update (.ofBytes .transaction [2]) (.hash [1]) "solid"),
    .operate (.saveBatch [(.hash [2], .ofBytes .transaction [3]),
      (.hash [2], .ofBytes .transaction [4]), (.hash [1], .ofBytes .approvee [5])]),
    .begin .writeAll, .go 2 0, .operate (.delete .transaction (.hash [1])),
    .operate (.latest .transaction)]

theorem value_eq_lastWritten_eventful :
    (run turn (new (some { byteBudget := 0 }) {}) (eventful.take 6)).store.cache.map (·.cache.len)
        = some 0 ∧
      ({} : Memory).records.Tabled ∧ (∀ turn ∈ eventful, turn.isOrdinary = true) ∧
      (StoreStep.load .transaction (.hash [2])).reading?
          (lastWritten ({} : Memory).records eventful)
        = some (.record (some (.ofBytes .transaction [4]))) ∧
      (run turn (new (some { byteBudget := 0 }) {}) eventful).value (.load .transaction (.hash [2]))
        = .record (some (.ofBytes .transaction [4])) ∧
      (run turn (new none {}) eventful).value (.load .transaction (.hash [2]))
        = .record (some (.ofBytes .transaction [4])) := by
  have hm : ({} : Memory).records.Tabled := nofun
  have hturns : ∀ turn ∈ eventful, turn.isOrdinary = true := by decide
  have hv : (StoreStep.load .transaction (.hash [2])).reading?
      (lastWritten ({} : Memory).records eventful)
        = some (.record (some (.ofBytes .transaction [4]))) := by decide +kernel
  exact ⟨by decide +kernel, hm, hturns, hv,
    value_eq_lastWritten { byteBudget := 0 } hm hturns hv⟩

end Session

end Store

end RecordStore
