import RecordStore.Proofs.Cache.Beside
import RecordStore.Proofs.Store.Transparency

/-!
# Writes that a cache refuses

An open cache refuses a record for its kind, or because the record is a placeholder.  Nothing that a
cache does depends on what it has counted (`Running.uncounted_reply?`), and a refusal is only
counted.  So whatever happens later happens as if there had been no write
(`JobSystem.refused_write`).

A record that exists is refused for its kind, of which no cache ever has an entry.  So nothing is
left that is older than such a record.  A placeholder leaves what there was under its address.  It
is read from the cache, although the backends have the placeholder, and the next flush writes it
over the placeholder (`Store.Session.not_forgotten_of_missing`).
-/

namespace RecordStore

namespace Cache

/-! ## What is counted -/

/-- The cache with nothing counted. -/
def bare (c : Cache) : Cache := { c with counters := {} }

/-- What is done to a cache, and what comes of it, does not depend on what was counted. -/
def Uncounted {α : Type} (f : Cache → α × Cache) : Prop :=
  ∀ c, (f c).1 = (f c.bare).1 ∧ (f c).2.bare = (f c.bare).2.bare

theorem uncounted_offer (key : Key) (record : Record) : Uncounted fun c => c.offer key record := by
  intro c
  have haccepts : c.bare.accepts record = c.accepts record := rfl
  simp only [Cache.offer, haccepts]
  cases c.accepts record <;> exact ⟨rfl, rfl⟩

theorem uncounted_offerAll (entries : List Entry) : Uncounted fun c => c.offerAll entries := by
  induction entries with
  | nil => exact fun c => ⟨rfl, rfl⟩
  | cons e entries ih =>
      intro c
      obtain ⟨hfst, hsnd⟩ := uncounted_offer e.1 e.2 c
      have hrest := ih (c.offer e.1 e.2).2
      have hrest' := ih (c.bare.offer e.1 e.2).2
      dsimp only at hfst hsnd hrest hrest'
      rw [hsnd] at hrest
      simp only [offerAll]
      rw [hfst, hrest.1, hrest'.1, hrest.2, hrest'.2]
      exact ⟨rfl, rfl⟩

theorem uncounted_get (id : EntryId) : Uncounted fun c => c.get id := by
  intro c
  have hlookup : c.bare.lookup id = c.lookup id := rfl
  simp only [Cache.get, hlookup]
  cases c.lookup id <;> exact ⟨rfl, rfl⟩

theorem bare_foldl_delete (ids : List EntryId) (c : Cache) :
    (ids.foldl delete c).bare = ids.foldl delete c.bare := by
  induction ids generalizing c with
  | nil => rfl
  | cons id ids ih => exact ih (c.delete id)

theorem uncounted_perform (call : Call) : Uncounted fun c => c.perform call := by
  intro c
  cases call with
  | save record key | update record key => exact uncounted_offer key record c
  | saveBatch entries => exact uncounted_offerAll entries c
  | get | seek => exact uncounted_get _ c
  | deleteBatch ids =>
      refine ⟨rfl, ?_⟩
      show (ids.foldl delete c).bare = (ids.foldl delete c.bare).bare
      rw [bare_foldl_delete, bare_foldl_delete]
      rfl
  | _ => exact ⟨rfl, rfl⟩

theorem uncounted_beginPass (candidates : List Candidate) :
    Uncounted fun c => c.beginPass candidates := by
  intro c
  simp only [beginPass]
  cases candidates.isEmpty <;> exact ⟨rfl, rfl⟩

theorem uncounted_beginEviction : Uncounted beginEviction := by
  intro c
  have hfull : c.bare.isFull = c.isFull := rfl
  simp only [beginEviction, hfull]
  cases c.isFull with
  | true => exact uncounted_beginPass _ c
  | false => exact ⟨rfl, rfl⟩

theorem uncounted_finishBatch (batch : Nat) : Uncounted fun c => c.finishBatch batch :=
  fun _ => ⟨rfl, rfl⟩

theorem uncounted_dropWritten (candidates : List Candidate) :
    Uncounted fun c => c.dropWritten candidates := fun _ => ⟨rfl, rfl⟩

namespace Running

/-- The running cache with nothing counted. -/
def bare (r : Running) : Running := { r with cache := r.cache.bare }

/-- What is done to a running cache, and what comes of it, does not depend on what was counted. -/
def Uncounted {α : Type} (f : Running → α × Running) : Prop :=
  ∀ r, (f r).1 = (f r.bare).1 ∧ (f r).2.bare = (f r.bare).2.bare

/-- What is done to the cache alone. -/
theorem uncounted_cache {α β : Type} {f : Cache → α × Cache} (h : Cache.Uncounted f)
    (answer : α → β) :
    Uncounted fun r => (answer (f r.cache).1, { r with cache := (f r.cache).2 }) := by
  intro r
  obtain ⟨hfst, hsnd⟩ := h r.cache
  refine ⟨congrArg answer hfst, ?_⟩
  show { r with cache := (f r.cache).2.bare } = { r with cache := (f r.cache.bare).2.bare }
  rw [hsnd]

theorem uncounted_receive (key : Key) (record : Record) :
    Uncounted fun r => r.receive key record := by
  have hoffer : Cache.Uncounted fun c =>
      (((c.offer key record).1, (c.offer key record).1 && (c.offer key record).2.isFull),
        (c.offer key record).2) := by
    intro c
    obtain ⟨hfst, hsnd⟩ := Cache.uncounted_offer key record c
    have hfull : (c.offer key record).2.isFull = (c.bare.offer key record).2.isFull :=
      congrArg (fun c => c.isFull) hsnd
    dsimp only at hfst ⊢
    rw [hfst, hfull]
    exact ⟨rfl, hsnd⟩
  exact uncounted_cache hoffer id

theorem uncounted_start : Uncounted start := by
  intro r
  have hstart : r.bare.start = (r.start.1, { r.start.2 with cache := r.cache.bare }) :=
    start_withCache r r.cache.bare rfl
  rw [hstart, bare, cache_start]
  exact ⟨rfl, rfl⟩

theorem uncounted_perform (call : Call) : Uncounted fun r => r.perform call := by
  have hcache := uncounted_cache (Cache.uncounted_perform call) fun a => (.ok a : call.Outcome)
  cases call with
  | init => exact uncounted_start
  | _ => exact hcache

/-- A request gets the same reply, whatever was counted. -/
theorem uncounted_reply? (caller now : Nat) (q : Request) :
    Uncounted fun r => r.reply? caller now q := by
  have hwork : isAboutWork q = true → Uncounted fun r => r.reply? caller now q := by
    intro hq r
    have hreply : r.bare.reply? caller now q
        = ((r.reply? caller now q).1, { (r.reply? caller now q).2 with cache := r.cache.bare }) :=
      reply?_withCache r r.cache.bare caller now hq
    dsimp only
    rw [hreply, bare, cache_of_isAboutWork r caller now hq]
    exact ⟨rfl, rfl⟩
  cases q with
  | perform call =>
      intro r
      obtain ⟨hfst, hsnd⟩ := uncounted_perform call r
      exact ⟨congrArg some hfst, hsnd⟩
  | receive key record =>
      intro r
      obtain ⟨hfst, hsnd⟩ := uncounted_receive key record r
      exact ⟨congrArg some hfst, hsnd⟩
  | beginEviction => exact uncounted_cache uncounted_beginEviction some
  | beginFlush => exact fun r => uncounted_cache (uncounted_beginPass _) some r
  | finishBatch batch => exact uncounted_cache (uncounted_finishBatch batch) some
  | dropWritten candidates => exact uncounted_cache (uncounted_dropWritten candidates) some
  | isClosed | close | failEviction | empty | isFull | backend => exact fun r => ⟨rfl, rfl⟩
  | _ => exact hwork rfl

end Running

/-! ## Caches with jobs -/

/-- A cache with jobs, with nothing counted. -/
def WithJobs.bare (s : WithJobs) : WithJobs := { s with running := s.running.bare }

variable {κ : Type} {g : JobSystem κ} {s s' : WithJobs}

theorem WithJobs.bare_advance (s : WithJobs) (n now : Nat) :
    (s.advance n now).bare = (s.bare.advance n now).bare := by
  have hprocesses : s.bare.processes = s.processes := rfl
  have hrunning : s.bare.running = s.running.bare := rfl
  simp only [advance, hprocesses, hrunning]
  split
  next q next batch hp =>
    obtain ⟨hfst, hsnd⟩ := Running.uncounted_reply? n now q s.running
    dsimp only at hfst hsnd
    rcases hreply : s.running.reply? n now q with ⟨a, r⟩
    rcases hreply' : s.running.bare.reply? n now q with ⟨a', r'⟩
    rw [hreply, hreply'] at hfst hsnd
    cases (hfst : a = a')
    cases a with
    | none => exact congrArg (fun r => ({ s with running := r } : WithJobs)) hsnd
    | some a =>
        exact congrArg (fun r => ({ s with
          running := r, processes := s.processes.set n ⟨next a, noted batch q a⟩ } : WithJobs)) hsnd
  next => rfl

theorem bare_step (s : WithJobs) (e : Event κ) : (g.step s e).bare = (g.step s.bare e).bare := by
  cases e with
  | offer key record =>
      exact congrArg (fun r => ({ s with running := r } : WithJobs))
        (Running.uncounted_receive key record s.running).2
  | delete id =>
      exact congrArg (fun r => ({ s with running := r } : WithJobs))
        (Running.uncounted_perform (.delete id.kind id.key) s.running).2
  | clear kind =>
      exact congrArg (fun r => ({ s with running := r } : WithJobs))
        (Running.uncounted_perform (.clear kind) s.running).2
  | own | begin => rfl
  | advance n now => exact s.bare_advance n now
  | answer n verdict =>
      have hprocesses : s.bare.processes = s.processes := rfl
      have hsettle : g.settle s.bare n verdict = g.settle s n verdict := rfl
      simp only [JobSystem.step, WithJobs.answer, hprocesses, hsettle]
      split
      · split <;> rfl
      · rfl

/-- What happens does not depend on what was counted before. -/
theorem bare_run (h : s.bare = s'.bare) (events : List (Event κ)) :
    (run g.step s events).bare = (run g.step s' events).bare :=
  run_related (R := fun s s' : WithJobs => s.bare = s'.bare)
    (fun s s' e h => by rw [bare_step s, h, ← bare_step s']) h events

/-! ## Writes -/

/-- The ways in which a cache is given a record. -/
inductive Way where
  | add
  | save
  | update (reason : String)

/-- What a cache answers when it is given a record under a key, and the cache after it, if nothing
goes on meanwhile. -/
def Way.write (key : Key) (record : Record) (r : Running) : Way → Except Failure Bool × Running
  | add => (.ok (r.offer key record).1, (r.offer key record).2)
  | save => r.serve (.save record key)
  | update reason => r.serve (.update record key reason)

theorem Way.write_eq (way : Way) (key : Key) (record : Record) (r : Running) :
    way.write key record r = (.ok (r.offer key record).1, (r.offer key record).2) := by
  cases way <;> rfl

/-- A cache with jobs that was given a record. -/
def WithJobs.write (s : WithJobs) (way : Way) (key : Key) (record : Record) : WithJobs :=
  { s with running := (way.write key record s.running).2 }

/-- Whether a configuration lets records of a kind into a cache. -/
def Config.admits (config : Config) (kind : Kind) : Bool :=
  !kind.isDerived && !config.excludedKinds.contains kind

theorem Config.takes_eq (config : Config) (record : Record) :
    config.takes record = (record.present && config.admits record.kind) := by
  rw [takes, admits, Record.isDerived, Bool.and_assoc]

variable {config : Config} {c : Cache}

/-- There are no entries of a kind that is not admitted. -/
theorem Sound.kind_ne (h : c.Sound config) {kind : Kind} (hadmits : config.admits kind = false) :
    ∀ d ∈ c.contents.slots.candidates, d.slot.id.kind ≠ kind := by
  intro d hd hkind
  have htaken := h.taken d hd
  rw [config.takes_eq, Bool.and_eq_true] at htaken
  have hkind' : d.slot.record.kind = kind := hkind
  rw [hkind', hadmits] at htaken
  cases htaken.2

theorem Running.fst_offer (r : Running) (key : Key) (record : Record) :
    (r.offer key record).1 = r.cache.accepts record := by
  show (r.cache.offer key record).1 = _
  rw [Cache.offer]
  cases r.cache.accepts record <;> rfl

/-- An offer that is refused is over then. -/
theorem Running.snd_offer_of_refused {r : Running} {key : Key} {record : Record}
    (h : (r.offer key record).1 = false) :
    (r.offer key record).2 = (r.receive key record).2 := by
  have h : (r.cache.offer key record).1 = false := h
  simp only [Running.offer, Running.receive, h, Bool.false_and, Bool.false_eq_true, if_false]

/-- It is counted, and that is all. -/
theorem Running.bare_of_refused {r : Running} {key : Key} {record : Record}
    (h : (r.offer key record).1 = false) : (r.offer key record).2.bare = r.bare := by
  rw [snd_offer_of_refused h]
  rw [fst_offer] at h
  simp only [Running.receive, Cache.offer, h, Bool.false_eq_true, if_false, Bool.false_and]
  rfl

/-- An open cache refuses a record that exists for its kind. -/
theorem Sound.admits_of_refused (h : c.Sound config) {record : Record} (hopen : c.closed = false)
    (hpresent : record.present = true) (hrefused : c.accepts record = false) :
    config.admits record.kind = false := by
  rw [accepts_eq h.excluded, hopen, config.takes_eq, hpresent] at hrefused
  simpa using hrefused

/-- A cache with jobs that refused a record before, beside what it would be without the write. -/
structure Refused (config : Config) (key : Key) (record : Record)
    (s without : WithJobs) : Prop where
  /-- But for what is counted, there might have been no write. -/
  bare : s.bare = without.bare
  /-- A record that exists was refused for its kind. -/
  admits : record.present = true → config.admits record.kind = false
  /-- No pass ever writes an entry of a kind that is not admitted. -/
  absent : config.admits record.kind = false →
    ∀ d ∈ s.running.cache.contents.slots.candidates, d.slot.id.kind ≠ record.kind
  /-- Nothing is read then.  But a placeholder of an admitted kind hides nothing. -/
  get : (s.running.perform (.get record.kind key)).1 =
    .ok (if config.admits record.kind then without.cached ⟨record.kind, key⟩ else none)

/-- At any time after an open cache refused a record, there is nothing older under its address if
the record exists, and otherwise whatever there would be without the write. -/
theorem JobSystem.refused_write (g : JobSystem κ) {past : List (Event κ)} {way : Way} {key : Key}
    {record : Record} (hopen : (run g.step g.start past).running.cache.closed = false)
    (hrefused : (way.write key record (run g.step g.start past).running).1 = .ok false)
    (future : List (Event κ)) :
    Refused g.config key record (run g.step ((run g.step g.start past).write way key record) future)
      (run g.step g.start (past ++ future)) := by
  rw [way.write_eq, Except.ok.injEq] at hrefused
  have hwrite : (run g.step g.start past).write way key record
      = g.step (run g.step g.start past) (.offer key record) := by
    rw [WithJobs.write, way.write_eq]
    simp only [Running.snd_offer_of_refused hrefused]
    rfl
  have hbare : ((run g.step g.start past).write way key record).bare =
    (run g.step g.start past).bare := by
    rw [WithJobs.write, way.write_eq]
    exact congrArg (fun r => ({ run g.step g.start past with running := r } : WithJobs))
      (Running.bare_of_refused hrefused)
  have hsound := run_sound (g := g) (past ++ .offer key record :: future)
  rw [run_append, run_cons, ← hwrite] at hsound
  have hafter := bare_run (g := g) hbare future
  rw [← run_append] at hafter
  have hkind : record.present = true → g.config.admits record.kind = false := by
    intro hpresent
    rw [Running.fst_offer] at hrefused
    exact (run_sound past).admits_of_refused hopen hpresent hrefused
  refine ⟨hafter, hkind, fun hadmits => hsound.kind_ne hadmits, ?_⟩
  rw [(faithful_of_sound hsound).get]
  cases hadmits : g.config.admits record.kind with
  | true =>
      have hslots := congrArg (fun s => s.running.cache.contents.slots) hafter
      exact congrArg (fun slots => Except.ok (slots.recordAt? ⟨record.kind, key⟩)) hslots
  | false =>
      refine congrArg Except.ok (Slots.recordAt?_eq_none_iff.2 fun d hd hid => ?_)
      exact hsound.kind_ne hadmits d hd (congrArg EntryId.kind hid)

/-- A cache for one entry, over a backend that carries out every call. -/
def steadily : JobSystem Job := .single fun _ => true

def transactionCached : List (Event Job) := [.offer (.hash [1]) (.ofBytes .transaction [1])]

/-- Everything in the cache is written. -/
def flushedLater : List (Event Job) :=
  [.begin .writeAll, .advance 0 0, .advance 0 0, .answer 0 .done]

/-- A cache that has a transaction. -/
def occupied : WithJobs := run steadily.step steadily.start transactionCached

/-- A placeholder leaves the transaction, which is written later.  An approvee is refused too, and
there is nothing then. -/
theorem JobSystem.refused_write_flushed :
    occupied.running.cache.closed = false ∧
      ((Way.update "solid").write (.hash [1]) (.missing .transaction) occupied.running).1
        = .ok false ∧
      Refused steadily.config (.hash [1]) (.missing .transaction)
        (run steadily.step (occupied.write (.update "solid") (.hash [1]) (.missing .transaction))
          flushedLater)
        (run steadily.step steadily.start (transactionCached ++ flushedLater)) ∧
      (run steadily.step steadily.start (transactionCached ++ flushedLater)).Holds
        ⟨.transaction, .hash [1]⟩ (.ofBytes .transaction [1]) ∧
      (Way.add.write (.hash [1]) (.ofBytes .approvee [1]) occupied.running).1 = .ok false ∧
      Refused steadily.config (.hash [1]) (.ofBytes .approvee [1])
        (run steadily.step (occupied.write .add (.hash [1]) (.ofBytes .approvee [1])) flushedLater)
        (run steadily.step steadily.start (transactionCached ++ flushedLater)) := by
  have hopen : occupied.running.cache.closed = false := by decide +kernel
  have hplaceholder : ((Way.update "solid").write (.hash [1]) (.missing .transaction)
      occupied.running).1 = .ok false := by decide +kernel
  have happrovee : (Way.add.write (.hash [1]) (.ofBytes .approvee [1]) occupied.running).1
      = .ok false := by decide +kernel
  exact ⟨hopen, hplaceholder, steadily.refused_write hopen hplaceholder flushedLater,
    by decide +kernel, happrovee, steadily.refused_write hopen happrovee flushedLater⟩

end Cache

namespace Store.Session

/-- A store with a cache over tables in memory has saved a transaction. -/
def saved : Session :=
  run turn (new (some {}) {}) [.operate (.save (.ofBytes .transaction [1]) (.hash [1]))]

/-- Then there is a placeholder for it. -/
def replaced : Session :=
  saved.turn (.operate (.update (.missing .transaction) (.hash [1]) "solid"))

/-- The tables accept the placeholder, and the store does.  But the cache refuses it and gives the
transaction, so the store does.  A flush brings the transaction into the tables again. -/
theorem not_forgotten_of_missing :
    (∃ r, saved.store.cache = some r ∧ r.cache.closed = false ∧
        (r.serve (.update (.missing .transaction) (.hash [1]) "solid")).1 = .ok false ∧
        ((r.serve (.update (.missing .transaction) (.hash [1]) "solid")).2.serve
          (.get .transaction (.hash [1]))).1 = .ok (some (.ofBytes .transaction [1]))) ∧
      saved.value (.update (.missing .transaction) (.hash [1]) "solid") = .bool true ∧
      replaced.store.backends.map (Bench.Component.entries .transaction)
        = [[(.hash [1], .missing .transaction)]] ∧
      replaced.value (.load .transaction (.hash [1]))
        = .record (some (.ofBytes .transaction [1])) ∧
      (run turn replaced [.begin .writeAll, .go 0 0]).store.backends.map
          (Bench.Component.entries .transaction)
        = [[(.hash [1], .ofBytes .transaction [1])]] := by
  refine ⟨⟨_, rfl, ?_⟩, ?_⟩
  · decide +kernel
  · decide +kernel

end Store.Session

end RecordStore
