import RecordStore.Proofs.Cache.Mirrors
import RecordStore.Proofs.Store.Sequential

/-!
# Coherent stores

A sequential store is *coherent* if it has one backend, with tables in memory, and its cache mirrors
what the tables store (`SequentialStore.Coherent`).  Three things could break this, and do not.

* A write tells the cache first, and then the tables.  In between the cache mirrors what the tables
  will store.
* A search offers to the cache what it has found in the tables.
* A pass writes what the cache has, which the tables have already.

So a store stays coherent through passes that nothing comes between
(`SequentialStore.goOn_orderly`), and through operations, of which loads, finds and existence checks
give what the tables store (`SequentialStore.Coherent.ensures_operation`).  A record that does not
exist would not be admitted, and would leave an older one in the cache.  A table that is cleared
stays in the cache.  So this is about operations that bring only records that exist, and clear
nothing (`StoreStep.isOrdinary`).
-/

namespace RecordStore

open Bench (Component StoreStep Value)
open Cache (Orderly Stage)

namespace Bench.StoreStep

/-- Whether an operation clears nothing, does not shut down, and brings only records that exist. -/
def isOrdinary (step : StoreStep) : Bool := step.call?.all Call.isOrdinary

/-- What is stored after an operation. -/
def leaves (step : StoreStep) (t : Records) : Records := step.call?.elim t t.apply

/-- The value of a read by an address, if some records are stored. -/
def reading? (t : Records) : StoreStep → Option Value
  | load kind key => some (.record (t ⟨kind, key⟩))
  | find kind raw => some (.record (t ⟨kind, .ofRaw kind raw⟩))
  | has kind key => some (.bool (t ⟨kind, key⟩).isSome)
  | _ => none

end Bench.StoreStep

namespace Store

theorem isSome_whenTrue (b : Bool) : (whenTrue b).isSome = b := by
  cases b <;> rfl

namespace SequentialStore

/-! ## Programs of the cache -/

/-- What happens at a request of a program of the cache, which writes to the first backend.  `none`
if the program has to wait. -/
def cacheReply? (caller now : Nat) (q : Cache.Request) (s : SequentialStore) :
    Option (Cache.Reply q) × SequentialStore :=
  match s.cache with
  | none => (none, s)
  | some r =>
      match q with
      | .backend call =>
          match s.backends with
          | [] => (none, s)
          | c :: rest =>
              (some (c.perform call).1, { s with backends := (c.perform call).2 :: rest })
      | q => ((r.reply? caller now q).1, { s with cache := some (r.reply? caller now q).2 })

/-- A program of the cache goes on until it has ended or has to wait. -/
def goOn (caller now : Nat) : Cache.Service.Prog Unit → SequentialStore →
    Cache.Service.Prog Unit × SequentialStore
  | .done a, s => (.done a, s)
  | .ask q next, s =>
      match s.cacheReply? caller now q with
      | (some a, s) => goOn caller now (next a) s
      | (none, s) => (.ask q next, s)

/-- The name of the backend that the cache writes to. -/
def backendName (s : SequentialStore) : String := (s.backends.head?.map Component.name).getD ""

/-! ## Coherence -/

/-- An open store over tables in memory, with a cache that mirrors some records or with none.  The
tables may have other records than the cache mirrors. -/
structure Coherent (l : Layout) (config : Cache.Config) (st : Stage) (t stored : Records)
    (s : SequentialStore) : Prop where
  isOpen : s.isOpen = true
  layout : l.cache.isSome = s.cache.isSome
  cache : ∀ r, s.cache = some r → r.cache.Mirrors config t st
  backend : ∃ m : Memory, s.backends = [.memory m] ∧ m.records = stored

/-- A coherent store in which no pass is under way. -/
abbrev Settled (l : Layout) (config : Cache.Config) (t : Records) : SequentialStore → Prop :=
  Coherent l config .resting t t

variable {l : Layout} {config : Cache.Config} {st : Stage} {t stored : Records}
    {s : SequentialStore}
  {call : Call}

namespace Coherent

theorem relayout (h : Coherent l config st t stored s) :
    Coherent s.layout config st t stored s where
  isOpen := h.isOpen
  layout := by rw [SequentialStore.layout, Option.isSome_map]
  cache := h.cache
  backend := h.backend

theorem single (h : Coherent l config st t stored s) : s.layout.backends.length = 1 := by
  obtain ⟨m, hm, -⟩ := h.backend
  rw [SequentialStore.layout, hm]
  rfl

/-- A step of the cache. -/
theorem withCache (h : Coherent l config st t stored s) {r : Cache.Running} (hr : s.cache = some r)
    (r' : Cache.Running) {t' : Records} {st' : Stage} (hmirrors : r'.cache.Mirrors config t' st') :
    Coherent l config st' t' stored { s with cache := some r' } where
  isOpen := h.isOpen
  layout := by rw [h.layout, hr]; rfl
  cache := by
    rintro _ ⟨⟩
    exact hmirrors
  backend := h.backend

/-- Without a cache nothing is mirrored. -/
theorem withoutCache (h : Coherent l config st t stored s) (hnone : s.cache = none) (t' : Records) :
    Coherent l config st t' stored s where
  isOpen := h.isOpen
  layout := h.layout
  cache r hr := by rw [hnone] at hr; cases hr
  backend := h.backend

theorem withStage (h : Coherent l config st t stored s) {st' : Stage}
    (hstage : ∀ c : Cache, c.Mirrors config t st → c.Mirrors config t st') :
    Coherent l config st' t stored s where
  isOpen := h.isOpen
  layout := h.layout
  cache r hr := hstage r.cache (h.cache r hr)
  backend := h.backend

/-- A call on the backend. -/
theorem perform (h : Coherent l config st t stored s) (call : Call) :
    ∃ m : Memory, s.backends = [.memory m] ∧ m.records = stored ∧
      Coherent l config st t (stored.apply call)
        { s with backends := [.memory (m.perform call).2] } := by
  obtain ⟨m, hm, rfl⟩ := h.backend
  exact ⟨m, hm, rfl, h.isOpen, h.layout, h.cache, _, rfl, m.records_perform call⟩

end Coherent

/-! ## Passes -/

theorem goOn_ask {caller now : Nat} {q : Cache.Request}
    {next : Cache.Reply q → Cache.Service.Prog Unit} {a : Cache.Reply q} {s' : SequentialStore}
    (h : s.cacheReply? caller now q = (some a, s')) :
    s.goOn caller now (.ask q next) = s'.goOn caller now (next a) := by
  rw [goOn, h]

theorem goOn_of_none {caller now : Nat} {p : Cache.Service.Prog Unit} (h : s.cache = none) :
    s.goOn caller now p = (p, s) := by
  cases p with
  | done a => rfl
  | ask q next => simp only [goOn, cacheReply?, h]

theorem cacheReply?_of_ne {caller now : Nat} {r : Cache.Running} (hr : s.cache = some r)
    (q : Cache.Request) (hq : ∀ call, q ≠ .backend call) : s.cacheReply? caller now q
      = ((r.reply? caller now q).1, { s with cache := some (r.reply? caller now q).2 }) := by
  simp only [cacheReply?, hr]

theorem cacheReply?_backend {caller now : Nat} {r : Cache.Running} (hr : s.cache = some r)
    {c : Component} {rest : List Component} (hc : s.backends = c :: rest) :
    s.cacheReply? caller now (.backend call)
      = (some (c.perform call).1, { s with backends := (c.perform call).2 :: rest }) := by
  rw [cacheReply?, hr, hc]

/-- Nothing comes between the stages of a pass, so it writes what is stored, and is over when the
program ends or has to wait. -/
theorem goOn_orderly {caller now : Nat} {p : Cache.Service.Prog Unit} (h : Orderly st p)
    (hs : Coherent l config st t t s) (hfits : st.Fits t) {r : Cache.Running}
    (hr : s.cache = some r) :
    Orderly .resting (s.goOn caller now p).1 ∧ Settled l config t (s.goOn caller now p).2 := by
  induction h generalizing s r with
  | done a => exact ⟨.done a, hs⟩
  | aside hq hnext ih =>
      rename_i q next
      have hmirrors := (hs.cache r hr).reply?_of_isAside caller now hq
      have hreply : s.cacheReply? caller now q = _ :=
        cacheReply?_of_ne hr q (by rintro call rfl; cases hq)
      cases ha : (r.reply? caller now q).1 with
      | none =>
          rw [ha] at hreply
          rw [goOn, hreply]
          exact ⟨.aside hq hnext, hs.withCache hr _ hmirrors⟩
      | some a =>
          rw [ha] at hreply
          rw [goOn_ask hreply]
          exact ih a (hs.withCache hr _ hmirrors) trivial rfl
  | evict hnone hsome ihnone ihsome =>
      obtain ⟨hmirrors, hbegun⟩ := (hs.cache r hr).beginEviction
      have hreply : s.cacheReply? caller now .beginEviction = (some r.cache.beginEviction.1,
          { s with cache := some { r with cache := r.cache.beginEviction.2 } }) :=
        cacheReply?_of_ne hr _ fun _ => Cache.Request.noConfusion
      have hs' := hs.withCache hr { r with cache := r.cache.beginEviction.2 } hmirrors
      rw [goOn_ask hreply]
      generalize r.cache.beginEviction.1 = pass? at hs' hbegun ⊢
      cases pass? with
      | none => exact ihnone hs' hbegun rfl
      | some p => exact ihsome p hs' hbegun rfl
  | flush hnone hsome ihnone ihsome =>
      obtain ⟨hmirrors, hbegun⟩ := (hs.cache r hr).beginFlush
      have hreply : s.cacheReply? caller now .beginFlush = (some r.cache.beginFlush.1,
          { s with cache := some { r with cache := r.cache.beginFlush.2 } }) :=
        cacheReply?_of_ne hr _ fun _ => Cache.Request.noConfusion
      have hs' := hs.withCache hr { r with cache := r.cache.beginFlush.2 } hmirrors
      rw [goOn_ask hreply]
      generalize r.cache.beginFlush.1 = pass? at hs' hbegun ⊢
      cases pass? with
      | none => exact ihnone hs' hbegun rfl
      | some p => exact ihsome p hs' hbegun rfl
  | save hok hfail ihok ihfail =>
      rename_i p next
      obtain ⟨m, hm, -, hs'⟩ := hs.perform (.saveBatch p.entries)
      rw [Cache.apply_saveBatch_of_stored hfits] at hs'
      rw [goOn_ask (cacheReply?_backend hr hm)]
      exact ihok (hs'.withStage fun c hc => ⟨hc.sound, hc.isOpen, hc.stored, hc.batches⟩) trivial hr
  | finish hend hclean hmarked ihclean ihmarked =>
      rename_i p written st' next
      obtain ⟨hdeleted, hmirrors⟩ := (hs.cache r hr).finishBatch
      have hreply : s.cacheReply? caller now (.finishBatch p.batch) = (some [],
          { s with cache := some { r with cache := (r.cache.finishBatch p.batch).2 } }) := by
        rw [← hdeleted]
        exact cacheReply?_of_ne hr _ fun _ => Cache.Request.noConfusion
      rw [goOn_ask hreply]
      refine ihclean (hs.withCache hr { r with cache := _ } (hmirrors st')) ?_ rfl
      cases hend <;> trivial
  | delete hend hok hfail ihok ihfail => exact hfits.elim
  | drop hnext ih =>
      rename_i p next
      have hreply : s.cacheReply? caller now (.dropWritten p.candidates)
          = (some (r.cache.dropWritten p.candidates).1,
            { s with cache := some { r with cache := (r.cache.dropWritten p.candidates).2 } }) :=
        cacheReply?_of_ne hr _ fun _ => Cache.Request.noConfusion
      rw [goOn_ask hreply]
      exact ih _ (hs.withCache hr { r with cache := _ } (hs.cache r hr).dropWritten) trivial rfl

/-! ## Operations -/

namespace Coherent

theorem ensures_backend (call : Call) :
    Ensures (Coherent l config st t stored) (Store.ask (.backend 0 call)) fun outcome s =>
      (∃ m : Memory, m.records = stored ∧ outcome = .ok (m.perform call).1) ∧
        Coherent l config st t (stored.apply call) s := by
  intro s h
  obtain ⟨m, hm, hrecords, hs⟩ := h.perform call
  have hfirst : s.backends[0]? = some (.memory m) := by rw [hm]; rfl
  simp only [Store.ask, Program.run, reply, hfirst]
  rw [hm]
  exact ⟨⟨m, hrecords, rfl⟩, hs⟩

/-- What an operation may ask that only looks. -/
inductive Looks : Unit → (q : Request) → (Reply q → Unit) → Prop where
  | isOpen : Looks () .isOpen fun _ => ()
  | cache {call : Call} (h : call.isLook = true) : Looks () (.cache call) fun _ => ()
  | backend {i : Nat} {call : Call} (h : call.isLook = true) :
      Looks () (.backend i call) fun _ => ()
  | notify {notice : Notice} : Looks () (.notify notice) fun _ => ()

theorem reply_of_looks (h : Settled l config t s) {q : Request} {next : Reply q → Unit}
    (hq : Looks () q next) : Settled l config t (reply q s).2 := by
  cases hq with
  | isOpen => exact h
  | cache hlook =>
      simp only [reply]
      split
      next r hr => exact h.withCache hr _ (Cache.Running.mirrors_look (h.cache r hr) hlook)
      next => exact h
  | @backend i call hlook =>
      obtain ⟨m, hm, hrecords, hs⟩ := h.perform call
      rw [Call.apply_of_isLook hlook] at hs
      simp only [reply, hm]
      cases i with
      | zero => exact hs
      | succ i => exact h
  | notify => exact ⟨h.isOpen, h.layout, h.cache, h.backend⟩

/-- An operation that only looks, and offers nothing, keeps a store coherent. -/
theorem ensures_looks {step : StoreStep} (hshutdown : step ≠ .shutdown)
    (hsearch : step.isSearch = false)
    (hlook : ∀ call, step.call? = some call → call.isLook = true) :
    Ensures (Settled l config t) (step.operation l) fun _ => Settled l config t := by
  have hstays : Stays Looks () (step.operation l) :=
    .operation hshutdown .isOpen (fun call h _ => .cache (hlook call h))
      (fun call h _ _ => .backend (hlook call h)) (fun h => by rw [hsearch] at h; cases h)
      fun _ _ => .notify
  exact .of_stays hstays fun q next s hq h => h.reply_of_looks hq

/-- An entry that is stored may be offered to the cache. -/
theorem ensures_readThrough {e : Entry} (he : t e.id = some e.2) :
    Ensures (Settled l config t) (readThrough l e) fun _ => Settled l config t := by
  refine .readThrough (fun s h => h.layout) (fun s h _ => h) fun s r h hr => h.withCache hr _ ?_
  rw [(r.offer_eq e.1 e.2).2]
  exact (h.cache r hr).offer_stored he

/-- What is read for certain is told. -/
theorem ensures_told {α : Type} {p : Prog (Result α)} {value : α → Value} {a : α}
    (h : Ensures (Settled l config t) p fun result s => result = .ok a ∧ Settled l config t s) :
    Ensures (Settled l config t) (p.bind fun result => .done (.ofResult value result)) fun told s =>
      (∀ v, some (value a) = some v → told = v) ∧ Settled l config t s := by
  refine h.bind fun result => .given ?_
  rintro rfl
  refine .done fun s hs => ⟨?_, hs⟩
  rintro v ⟨⟩
  rfl

/-- What is found in the backend, and whose tables they are. -/
theorem ensures_searchBackends {α : Type} {found? : call.Answer → Option α}
    (hlook : call.isLook = true) :
    Ensures (Settled l config t) (searchBackends call found? [0]) fun result s =>
      (∃ m : Memory, m.records = t ∧ result = .ok (found? (m.perform call).1)) ∧
        Settled l config t s := by
  have hread : Ensures (Settled l config t) (Store.ask (.backend 0 call)) _ :=
    ensures_backend call
  rw [Call.apply_of_isLook hlook] at hread
  refine hread.bind fun outcome => .given ?_
  rintro ⟨m, hm, rfl⟩
  dsimp only
  cases hfound : found? (m.perform call).1 with
  | some a => exact .done fun s h => ⟨⟨m, hm, by rw [hfound]⟩, h⟩
  | none => exact .done fun s h => ⟨⟨m, hm, by rw [hfound]⟩, h⟩

section

variable (hl : l.backends.length = 1)

include hl

/-- A write changes what is stored, and what is mirrored with it. -/
theorem ensures_write {call : Call} (hcall : call.isOrdinary = true)
    (accepted : call.Answer → Bool) :
    Ensures (Settled l config t) (write l call accepted) fun _ =>
      Settled l config (t.apply call) := by
  have htell : Ensures (Settled l config t) (tellCache l call) fun _ =>
      Coherent l config .resting (t.apply call) t :=
    .tellCache (fun s h => h.layout) (fun s h hnone => h.withoutCache hnone _) fun s r h hr =>
      h.withCache hr _ (Cache.Running.mirrors_serve (h.cache r hr) hcall)
  have hindices : l.indices = [0] := by rw [Layout.indices, hl]; rfl
  refine .opened (fun s h => h.isOpen) (htell.bind fun _ => ?_)
  rw [fanOut, hindices]
  exact (ensures_backend call).bind fun outcome => .done fun s h => h.2

theorem ensures_done {call : Call} (hcall : call.isOrdinary = true) :
    Ensures (Settled l config t)
      ((write l call fun _ => true).bind fun result => .done (done result)) fun _ =>
        Settled l config (t.apply call) :=
  (ensures_write hl hcall _).bind fun _ => .done fun _ h => h

/-- An update tells the listeners besides. -/
theorem ensures_update {key : Key} {record : Record} {reason : String}
    (hcall : (Call.update record key reason).isOrdinary = true) :
    Ensures (Settled l config t) (update l record key reason) fun _ =>
      Settled l config (t.put (key, record)) := by
  refine (ensures_write hl hcall id).bind fun result => ?_
  cases result with
  | error e => exact .done fun s h => h
  | ok accepted =>
      have hnotify : Ensures (Settled l config (t.put (key, record)))
          (Store.ask (.notify (.change key record reason))) fun _ =>
            Settled l config (t.put (key, record)) :=
        .ask fun s h => ⟨h.isOpen, h.layout, h.cache, h.backend⟩
      exact hnotify.bind fun _ => .done fun s h => h

variable (ht : t.Tabled)

include ht

/-- A search gives what is wanted, if the cache does unless it has nothing, and the backend does.
What is offered to the cache is stored. -/
theorem ensures_search {α : Type} {found? : call.Answer → Option α}
    {admissible : α → Option Entry} {wanted : Option α → Prop} (hlook : call.isLook = true)
    (hblank : found? call.blank = none)
    (hcache : ∀ r : Cache.Running, r.cache.Mirrors config t .resting → ∃ answer,
      (r.serve call).1 = .ok answer ∧ (found? answer = none ∨ wanted (found? answer)))
    (hbackend : ∀ m : Memory, m.records = t → wanted (found? (m.perform call).1))
    (hentry : ∀ answer a e, found? answer = some a → admissible a = some e →
      call.entry? answer = some e) :
    Ensures (Settled l config t) (search l call found? admissible) fun result s =>
      (∃ a?, result = .ok a? ∧ wanted a?) ∧ Settled l config t s := by
  have hask : Ensures (Settled l config t) (askCache l call) fun answer s =>
      (found? answer = none ∨ wanted (found? answer)) ∧ Settled l config t s := by
    refine .askCache (fun s h => h.layout) (fun s h _ => Or.inl hblank) fun s r h hr => ?_
    obtain ⟨answer, hanswer, hfound⟩ := hcache r (h.cache r hr)
    exact ⟨answer, hanswer, hfound,
      h.withCache hr _ (Cache.Running.mirrors_look (h.cache r hr) hlook)⟩
  have hindices : l.indices = [0] := by rw [Layout.indices, hl]; rfl
  rw [search, hindices]
  refine .opened (fun s h => h.isOpen) (hask.bind fun answer => .given fun htold => ?_)
  cases hfound : found? answer with
  | some a =>
      rw [hfound] at htold
      exact .done fun s h => ⟨⟨some a, rfl, htold.resolve_left nofun⟩, h⟩
  | none =>
      refine (ensures_searchBackends hlook).bind fun result => .given ?_
      rintro ⟨m, hm, rfl⟩
      have hwanted := hbackend m hm
      cases hfound : found? (m.perform call).1 with
      | none => exact .done fun s h => ⟨⟨none, rfl, hfound ▸ hwanted⟩, h⟩
      | some a =>
          rw [hfound] at hwanted
          dsimp only
          cases hadmissible : admissible a with
          | none => exact .done fun s h => ⟨⟨some a, rfl, hwanted⟩, h⟩
          | some e =>
              have hstored := Memory.entry_perform (hm ▸ ht) (hentry _ a e hfound hadmissible)
              rw [hm] at hstored
              exact (ensures_readThrough hstored.2).bind fun _ =>
                .done fun s h => ⟨⟨some a, rfl, hwanted⟩, h⟩

/-- A search by an address gives what is stored there. -/
theorem ensures_get {found? : call.Answer → Option Record} {admissible : Record → Option Entry}
    {id : EntryId} (hlook : call.isLook = true) (hblank : found? call.blank = none)
    (hcache : ∀ r : Cache.Running, r.cache.Sound config → ∃ answer,
      (r.serve call).1 = .ok answer ∧ found? answer = r.cache.contents.slots.recordAt? id)
    (hbackend : ∀ m : Memory, found? (m.perform call).1 = m.records id)
    (hentry : ∀ answer a e, found? answer = some a → admissible a = some e →
      call.entry? answer = some e) :
    Ensures (Settled l config t) (search l call found? admissible) fun result s =>
      result = .ok (t id) ∧ Settled l config t s := by
  have hsearch : Ensures (Settled l config t) (search l call found? admissible)
      fun result s => (∃ a?, result = .ok a? ∧ a? = t id) ∧ Settled l config t s := by
    refine ensures_search hl ht hlook hblank (fun r h => ?_) (fun m hm => ?_) hentry
    · obtain ⟨answer, hanswer, hfound⟩ := hcache r h.sound
      refine ⟨answer, hanswer, ?_⟩
      rw [hfound]
      cases hrecord : r.cache.contents.slots.recordAt? id with
      | none => exact Or.inl rfl
      | some record => exact Or.inr (Cache.Running.stored_of_recordAt? h hrecord).symm
    · rw [hbackend, hm]
  refine hsearch.imp fun result s h => ?_
  obtain ⟨⟨_, rfl, rfl⟩, hs⟩ := h
  exact ⟨rfl, hs⟩

theorem ensures_load (kind : Kind) (key : Key) :
    Ensures (Settled l config t) (load l kind key) fun result s =>
      result = .ok (t ⟨kind, key⟩) ∧ Settled l config t s := by
  refine ensures_get hl ht rfl rfl
    (fun r h => ⟨_, (Cache.faithful_of_sound h).get kind key, rfl⟩) (fun m => rfl) ?_
  rintro _ a e rfl ⟨⟩
  rfl

theorem ensures_find (kind : Kind) (raw : Bytes) :
    Ensures (Settled l config t) (find l kind raw) fun result s =>
      result = .ok (t ⟨kind, .ofRaw kind raw⟩) ∧ Settled l config t s := by
  refine ensures_get hl ht rfl rfl
    (fun r h => ⟨_, (Cache.faithful_of_sound h).seek kind raw, rfl⟩) (fun m => rfl) ?_
  rintro _ a e rfl ⟨⟩
  rfl

theorem ensures_has (kind : Kind) (key : Key) :
    Ensures (Settled l config t) (has l kind key) fun result s =>
      result = .ok (t ⟨kind, key⟩).isSome ∧ Settled l config t s := by
  have hsearch : Ensures (Settled l config t)
      (search l (.has kind key) (fun a => whenTrue (id a)) fun _ => none) fun result s =>
        (∃ a?, result = .ok a? ∧ a?.isSome = (t ⟨kind, key⟩).isSome) ∧ Settled l config t s := by
    refine ensures_search hl ht rfl rfl (fun r h => ?_) (fun m hm => ?_) nofun
    · refine ⟨_, (Cache.faithful_of_sound h.sound).has kind key, ?_⟩
      cases hrecord : r.cache.contents.slots.recordAt? ⟨kind, key⟩ with
      | none => exact Or.inl rfl
      | some record =>
          rw [Cache.Running.stored_of_recordAt? h hrecord]
          exact Or.inr rfl
    · have hsome : ((m.table kind)[key]?).isSome = (m.table kind).contains key :=
        Std.TreeMap.isSome_getElem?_eq_contains
      rw [← hm, Memory.records, hsome]
      exact isSome_whenTrue _
  refine hsearch.bind fun result => .given ?_
  rintro ⟨a?, rfl, ha⟩
  exact .done fun s h => ⟨congrArg Except.ok ha, h⟩

/-- A search for a neighbour keeps a store coherent. -/
theorem ensures_neighbor {found? : call.Answer → Option Entry} (hlook : call.isLook = true)
    (hblank : found? call.blank = none)
    (hcache : ∀ r : Cache.Running, ∃ answer, (r.serve call).1 = .ok answer)
    (hentry : ∀ answer, call.entry? answer = found? answer) :
    Ensures (Settled l config t) (search l call found? some) fun _ => Settled l config t := by
  have hsearch : Ensures (Settled l config t) (search l call found? some)
      fun result s => (∃ a?, result = .ok a? ∧ True) ∧ Settled l config t s := by
    refine ensures_search hl ht hlook hblank (fun r _ => ?_) (fun _ _ => trivial) ?_
    · obtain ⟨answer, hanswer⟩ := hcache r
      exact ⟨answer, hanswer, Or.inr trivial⟩
    · rintro answer a e hfound ⟨⟩
      rw [hentry, hfound]
  exact hsearch.imp fun _ _ h => h.2

/-- Whatever an operation does, reads by addresses give what is stored, and the cache goes on
mirroring it. -/
theorem ensures_operation {step : StoreStep} (hstep : step.isOrdinary = true) :
    Ensures (Settled l config t) (step.operation l) fun value s =>
      (∀ v, step.reading? t = some v → value = v) ∧
        Settled l config (step.leaves t) s := by
  -- of most operations nothing is said about the value
  have hmute : ∀ {step : StoreStep} {value : Value}, step.reading? t = none →
      ∀ v, step.reading? t = some v → value = v := by
    intro step value hreading v hv
    rw [hreading] at hv
    cases hv
  have hordinary : ∀ call, step.call? = some call → call.isOrdinary = true := by
    intro call hcall
    rwa [StoreStep.isOrdinary, hcall] at hstep
  cases step with
  | load kind key => exact ensures_told (ensures_load hl ht kind key)
  | find kind raw => exact ensures_told (ensures_find hl ht kind raw)
  | has kind key => exact ensures_told (ensures_has hl ht kind key)
  | first | latest | next | previous =>
      exact (ensures_neighbor hl ht rfl rfl (fun r => ⟨_, rfl⟩) fun _ => rfl).bind fun _ =>
        .done fun s h => ⟨hmute rfl, h⟩
  | save | saveBatch =>
      refine (ensures_write hl (hordinary _ rfl) id).bind fun _ => .done fun s h => ?_
      exact ⟨hmute rfl, h⟩
  | update =>
      refine (ensures_update hl (hordinary _ rfl)).bind fun _ => .done fun s h => ?_
      exact ⟨hmute rfl, h⟩
  | delete | deleteBatch =>
      refine (ensures_done hl (hordinary _ rfl)).bind fun _ => .done fun s h => ?_
      exact ⟨hmute rfl, h⟩
  | shutdown | clearTable | clearMetadata => cases hstep
  | isClosed | init | mayHave | count | keysStartingWith | loadAllKeys | keysMissingFrom
  | publish =>
      refine .imp (ensures_looks nofun rfl ?_) fun _ _ h => ⟨hmute rfl, h⟩
      rintro call ⟨⟩ <;> rfl

end

end Coherent

end SequentialStore

end Store

end RecordStore
