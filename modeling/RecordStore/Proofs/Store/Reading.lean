import RecordStore.Proofs.Store.Views

/-!
# What a load finds after a write

A client brings a record to an address, or deletes what is there (`ConcurrentStore.Brings`).  It
tells the cache first, and the backend afterwards.  From then on the view holds what was brought, as
long as nobody else writes to the address, and nobody offers there what was read before
(`ConcurrentStore.Event.LeavesAlone`).  So a load that comes after the write has ended gives back
what was brought (`ConcurrentStore.load_of_brings`).

The condition on offers is needed.  A search that has read the backend before a write may offer
what it has read after it, and the cache admits it (`ConcurrentStore.not_load_of_lateOffer`).
-/

namespace RecordStore

open Cache (View)

namespace Store

open Bench (StoreStep Value)
open Cache (WithCallers)

variable {id : EntryId} {o : Option Record} {isOpen : Bool} {v v' : View}

/-! ## Writes and what they have brought -/

/-- What a write has brought about when it has told the cache. -/
def Write.Fits (id : EntryId) (o : Option Record) (isOpen : Bool) (v : View) : Write → Prop
  | storing => isOpen = false ∨ v.Told id o
  | stored => isOpen = false ∨ v.Holds id o
  | opening | telling | refused => False

theorem Write.Fits.imp {st : Write} (h : st.Fits id o isOpen v) {isOpen' : Bool}
    (hopen : isOpen = false → isOpen' = false) (htold : v.Told id o → v'.Told id o)
    (hholds : v.Holds id o → v'.Holds id o) : st.Fits id o isOpen' v' := by
  cases st with
  | storing => exact Or.imp hopen htold h
  | stored => exact Or.imp hopen hholds h
  | opening | telling | refused => exact h.elim

theorem apply_of_leaves {step : StoreStep} {call : Call} (h : step.leaves? = some (id, o))
    (hcall : step.call? = some call) (t : Records) : t.apply call id = o := by
  cases step with
  | save record key | update record key reason =>
      cases h
      cases hcall
      exact Records.put_self t key record
  | delete kind key =>
      cases h
      cases hcall
      exact if_pos rfl
  | _ => cases h

theorem ne_shutdown_of_leaves {step : StoreStep} {call : Call}
    (h : step.leaves? = some (id, o)) (hcall : step.call? = some call) : call ≠ .shutdown := by
  cases step with
  | save | update | delete =>
      cases hcall
      simp
  | _ => cases h

/-! ## Searches and what they have found -/

/-- What a search has found that began after the write has ended. -/
def Search.Fits (call : Call) (id : EntryId) (o : Option Record) (isOpen : Bool) (v : View) :
    Search → Prop
  | opening => True
  | probing => v.Holds id o
  | missed => v.Holds id o ∧ (call.covers id = true → v.Settled id o)
  | found e | ended (some e) => call.covers e.id = true ∧ (e.id = id → o = some e.2)
  | ended none => call = .get id.kind id.key → o = none
  | refused => isOpen = false
  | failed => False

theorem Search.Fits.imp {call : Call} {st : Search} (h : st.Fits call id o isOpen v)
    {isOpen' : Bool} (hopen : isOpen = false → isOpen' = false)
    (hholds : v.Holds id o → v'.Holds id o) (hsettled : v.Settled id o → v'.Settled id o) :
    st.Fits call id o isOpen' v' := by
  cases st with
  | opening => trivial
  | probing => exact hholds h
  | missed => exact ⟨hholds h.1, fun hcovers => hsettled (h.2 hcovers)⟩
  | found e => exact h
  | ended e? => cases e? <;> exact h
  | refused => exact hopen h
  | failed => exact h

/-- How many replies a search needs at most until it has ended. -/
def Search.rank : Search → Nat
  | opening => 4
  | probing => 3
  | missed => 2
  | found _ => 1
  | ended _ | refused | failed => 0

theorem Search.rank_le (st : Search) : st.rank ≤ 4 := by
  cases st <;> simp [Search.rank]

theorem Search.Asks.rank_lt {call : Call} {st : Search} {q : Request} {state : Reply q → Search}
    (h : Search.Asks call st q state) (a : Reply q) : (state a).rank < st.rank := by
  cases h with
  | enter => cases a <;> simp [Search.rank]
  | probe =>
      simp only [Search.ofProbe]
      split <;> simp [Search.rank]
  | read i =>
      cases a with
      | error e => simp [Search.ofRead, Search.rank]
      | ok answer =>
          simp only [Search.ofRead]
          split <;> simp [Search.rank]
  | offer e => simp [Search.rank]

theorem Search.Asks.ne_shutdown {call : Call} {st : Search} {q : Request}
    {state : Reply q → Search} (h : Search.Asks call st q state) (hne : call ≠ .shutdown) :
    q ≠ .cache .shutdown := by
  cases h with
  | probe => exact fun hq => hne (Request.cache.inj hq)
  | enter | read | offer => simp

namespace ConcurrentStore

variable {B : Backend} {g : StoreSystem B} {s : ConcurrentStore B} {n m early : Nat}

/-- A reply to a search that began after the write has ended. -/
theorem fits_reply (h : Shows g s v) {call : Call} (hcall : call ≠ .shutdown)
    (hholds : s.isOpen = false ∨ v.Holds id o) {st : Search} {q : Request}
    {state : Reply q → Search} (hasks : Search.Asks call st q state) {a : Reply q}
    (ha : (s.reply? g q).1 = some a) (hfits : st.Fits call id o s.isOpen v) :
    (state a).Fits call id o s.isOpen v := by
  cases hasks with
  | enter =>
      obtain rfl : s.isOpen = a := Option.some.inj ha
      cases hopen : s.isOpen with
      | false => exact rfl
      | true => exact hholds.resolve_left (by simp [hopen])
  | probe =>
      rw [reply?_cache g s hcall] at ha
      obtain rfl : (s.cache.running.perform call).1 = a := Option.some.inj ha
      simp only [Search.ofProbe]
      split
      next e he =>
        obtain ⟨hcovers, d, hd, rfl⟩ := Cache.Running.entry_of_found? h.cache he
        rw [← h.contents] at hd
        exact ⟨hcovers, hfits.told.slot hd⟩
      next hnone =>
        refine ⟨hfits, fun hcovers => View.Holds.settled hfits fun d hd hid => ?_⟩
        rw [h.contents] at hd
        have huncovered := Cache.Running.not_covers_of_found? h.cache hnone hd
        rw [hid, hcovers] at huncovered
        cases huncovered
  | read i =>
      obtain rfl : Except.ok (B.perform s.backend call).1 = a := Option.some.inj ha
      simp only [Search.ofRead]
      split
      next e he =>
        obtain ⟨hcovers, hstored⟩ := B.entry_eq s.backend call e he
        refine ⟨hcovers, fun hid => ?_⟩
        rw [← (hfits.2 (hid ▸ hcovers)).stored, h.records, ← hid, hstored]
      next hnone =>
        intro hget
        subst hget
        have hanswer := B.get_eq s.backend id.kind id.key
        have hsettled := hfits.2 (beq_self_eq_true id)
        rw [← hsettled.stored, h.records]
        simp only [Call.entry?, Option.map_eq_none_iff] at hnone
        exact hanswer.symm.trans hnone
  | offer e => exact hfits

/-! ## From the write on -/

/-- Whether an event begins no other write to an address, and offers nothing else there for a
client that came early. -/
def Event.LeavesAlone (config : Cache.Config) (id : EntryId) (o : Option Record) (early : Nat)
    (s : ConcurrentStore B) : Event → Prop
  | .begin step => step.writes id = false
  | .go n => n < early → ∀ e ∈ s.offered? n, e.id = id → config.takes e.2 = true → o = some e.2
  | _ => True

instance Event.instDecidableLeavesAlone (config : Cache.Config) (id : EntryId) (o : Option Record)
    (early : Nat) (s : ConcurrentStore B) : (e : Event) → Decidable
    (e.LeavesAlone config id o early s)
  | .begin step => inferInstanceAs (Decidable (step.writes id = false))
  | .go n => inferInstanceAs (Decidable (n < early → ∀ e ∈ s.offered? n, e.id = id →
      config.takes e.2 = true → o = some e.2))
  | .work _ _ | .take _ _ | .answer _ => isTrue trivial

/-- A client is about to tell the cache of a write, and no other write to the address is under
way.  An entry that is to be deleted is in no batch that is being written. -/
structure Brings (g : StoreSystem B) (s : ConcurrentStore B) (n : Nat) (id : EntryId)
    (o : Option Record) : Prop where
  client : ∃ c ∈ s.clients[n]?, c.step.leaves? = some (id, o) ∧ c.callsCache = true
  takes : ∀ r ∈ o, g.config.takes r = true
  alone : ∀ c ∈ s.clients.eraseIdx n, c.step.writes id = true → c.hasEnded = true
  unwritten : o = none → ∀ b ∈ s.cache.running.cache.contents.batches, id ∉ b.ids

/-- What a client tells that does not write to an address spares it, but for what it offers. -/
theorem Regular.spares (h : Regular g s v)
    (hended : ∀ c, s.clients[n]? = some c → c.step.writes id = true → c.hasEnded = true)
    (hoffer : ∀ e ∈ s.offered? n, e.id = id → g.config.takes e.2 = true → o = some e.2)
    {e : Cache.Event Empty} (he : Event.tells s (.go n) e) : e.Spares g.config id o := by
  obtain ⟨⟨step, program⟩, q, hc, hasked, htells⟩ := he
  cases program with
  | done a => cases hasked
  | ask q' next =>
      obtain rfl : q' = q := Option.some.inj hasked
      have hwrites : step.writes id = false := by
        cases hwrites : step.writes id with
        | false => rfl
        | true => cases hended _ hc hwrites
      obtain ⟨b, -, state, hasks, -⟩ := (h.clients n _ hc).asks
      refine hasks.spares hwrites (fun key record hq => ?_) htells
      subst hq
      refine hoffer (key, record) ?_
      simp [ConcurrentStore.offered?, hc, Client.offered?, Client.asked?]

/-- Clients that write to an address have ended, and no other such client comes. -/
theorem hasEnded_step {P : Nat → Prop} {e : Event}
    (h : ∀ m c, s.clients[m]? = some c → P m → c.step.writes id = true → c.hasEnded = true)
    (hbegin : ∀ step, e = .begin step → step.writes id = false) :
    ∀ m c, (g.step s e).clients[m]? = some c → P m → c.step.writes id = true →
      c.hasEnded = true := by
  refine clients_step e h (fun step he _ hwrites => ?_)
    fun n step q next a _ hc _ _ hn hwrites => ?_
  · rw [hbegin step he] at hwrites
    cases hwrites
  · cases h n _ hc hn hwrites

/-- A client that has told the cache of its write. -/
def HasTold (id : EntryId) (o : Option Record) (isOpen : Bool) (v : View) (c : Client) : Prop :=
  c.step.leaves? = some (id, o) ∧ ∃ call st, c.step.call? = some call ∧ st.Fits id o isOpen v ∧
    c.program.Obeys (Write.Asks call) (fun st _ => st.isOver = true) st

namespace HasTold

variable {c : Client}

theorem imp (h : HasTold id o isOpen v c) {isOpen' : Bool}
    (hopen : isOpen = false → isOpen' = false) (htold : v.Told id o → v'.Told id o)
    (hholds : v.Holds id o → v'.Holds id o) : HasTold id o isOpen' v' c := by
  obtain ⟨hleaves, call, st, hcall, hfits, hobeys⟩ := h
  exact ⟨hleaves, call, st, hcall, hfits.imp hopen htold hholds, hobeys⟩

/-- What it tells besides is what it brings. -/
theorem spares (h : HasTold id o isOpen v c) {q : Request} (hq : c.asked? = some q)
    {config : Cache.Config} {e : Cache.Event Empty} (he : q.tells e) : e.Spares config id o := by
  obtain ⟨hleaves, call, st, hcall, hfits, hobeys⟩ := h
  obtain ⟨step, program⟩ := c
  cases program with
  | done a => cases hq
  | ask q' next =>
      obtain rfl : q' = q := Option.some.inj hq
      obtain ⟨state, hasks, -⟩ := hobeys
      cases hasks with
      | enter | tell => exact hfits.elim
      | store i =>
          obtain rfl := he
          exact fun t => Or.inr (apply_of_leaves hleaves hcall t)
      | notify => exact he.elim

/-- When it has ended, the view holds what was brought. -/
theorem holds (h : HasTold id o isOpen v c) (hended : c.hasEnded = true) :
    isOpen = false ∨ v.Holds id o := by
  obtain ⟨-, call, st, -, hfits, hobeys⟩ := h
  obtain ⟨step, program⟩ := c
  cases program with
  | ask q next => cases hended
  | done a =>
      have hover : st.isOver = true := hobeys
      cases st with
      | stored => exact hfits
      | refused => exact hfits.elim
      | opening | telling | storing => cases hover

/-- It goes on. -/
theorem reply {step : StoreStep} {q : Request} {next : Reply q → Prog Value}
    (h : HasTold id o s.isOpen v ⟨step, .ask q next⟩) {a : Reply q}
    (ha : (s.reply? g q).1 = some a) (hrecords : v'.stored = B.records (s.reply? g q).2.backend)
    (htold : v.Told id o → v'.Told id o) (hholds : v.Holds id o → v'.Holds id o) :
    HasTold id o (s.reply? g q).2.isOpen v' ⟨step, next a⟩ := by
  obtain ⟨hleaves, call, st, hcall, hfits, state, hasks, hnext⟩ := h
  refine ⟨hleaves, call, state a, hcall, ?_, hnext a⟩
  cases hasks with
  | enter | tell => exact hfits.elim
  | notify => exact Or.imp (isOpen_reply g _) hholds hfits
  | store i =>
      refine Or.imp (isOpen_reply g _) (fun hv => (htold hv).holds fun ho => ?_) hfits
      have hperform : v'.stored = (B.records s.backend).apply call :=
        hrecords.trans (B.records_perform s.backend call)
      rw [hperform, apply_of_leaves hleaves hcall, ho]

end HasTold

/-- The write has told the cache, and no other write to the address is under way. -/
structure Writing (g : StoreSystem B) (n : Nat) (id : EntryId) (o : Option Record)
    (s : ConcurrentStore B) (v : View) : Prop where
  regular : Regular g s v
  came : n < s.clients.length
  writer : ∀ m c, s.clients[m]? = some c → m = n → HasTold id o s.isOpen v c
  others : ∀ m c, s.clients[m]? = some c → m ≠ n → c.step.writes id = true → c.hasEnded = true

theorem Writing.step (h : Writing g n id o s v) {e : Event}
    (he : e.LeavesAlone g.config id o s.clients.length s) :
    ∃ v', Writing g n id o (g.step s e) v' := by
  obtain ⟨v', hregular, hcourse⟩ := h.regular.step e
  have hspares : ∀ e', e.tells s e' → e'.Spares g.config id o := by
    cases e with
    | go m =>
        rintro e' ⟨c, q, hc, hq, htells⟩
        by_cases hm : m = n
        · exact (h.writer m c hc hm).spares hq htells
        · refine h.regular.spares (fun c hc => h.others m c hc hm) (he ?_) ⟨c, q, hc, hq, htells⟩
          exact (List.getElem?_eq_some_iff.1 hc).1
    | begin | work | take | answer => exact fun _ => False.elim
  have hcourse := hcourse.imp hspares
  have hs := h.regular.shows.sound
  refine ⟨v', hregular, Nat.lt_of_lt_of_le h.came (length_step g s e), ?_,
    hasEnded_step h.others fun step hstep => by subst hstep; exact he⟩
  refine clients_step e (fun m c hc hm => ?_) (fun step hstep hm => ?_)
    fun m step q next a _ hc ha hs' hm => ?_
  · exact (h.writer m c hc hm).imp (isOpen_step g e) (hcourse.told hs) (hcourse.holds hs)
  · exact absurd hm (Nat.ne_of_gt h.came)
  · rw [hs']
    refine (h.writer m _ hc hm).reply ha ?_ (hcourse.told hs) (hcourse.holds hs)
    rw [hregular.shows.records, hs']

/-- The cache is told of a write, or the store is closed. -/
theorem Shows.tell (h : Shows g s v) {step : StoreStep} {call : Call}
    (hleaves : step.leaves? = some (id, o)) (hcall : step.call? = some call)
    (htakes : ∀ r ∈ o, g.config.takes r = true)
    (hunwritten : o = none → ∀ b ∈ s.cache.running.cache.contents.batches, id ∉ b.ids) :
    ∃ v', Shows g
        { s with cache := run g.callerSystem.step s.cache (WithCallers.eventsOf call) } v' ∧
      (s.isOpen = false ∨ v'.Told id o) := by
  have hshows := h
  obtain ⟨d, k, calls, hwatched, rfl⟩ := h.watched
  have hoffer : ∀ key record, record.idAt key = id → o = some record →
      ∃ v', Shows g { s with cache := run g.callerSystem.step s.cache [.offer key record] } v' ∧
        (s.isOpen = false ∨ v'.Told id o) := by
    rintro key record rfl rfl
    have hwatched' := (hwatched.step_direct (e := .offer key record) rfl calls).1
    have hcallers : ∀ c ∈ (s.cache.offer key record).callers,
        c.errand = .shutdown ∧ s.isOpen = false ∨ c.Requests := by
      refine List.forall_mem_append.2 ⟨h.callers, fun c hc => ?_⟩
      rw [s.cache.eq_of_mem_requester hc]
      exact Or.inr Cache.Caller.requests_requestPass
    rcases hwatched.step_offer key record calls with ⟨hclosed, hsame⟩ | ⟨-, hm⟩
    · exact ⟨_, ⟨⟨d, k, calls, hwatched', rfl⟩, hsame ▸ h.sound, h.stored, hcallers⟩,
        Or.inl (h.isOpen_of_closed hclosed)⟩
    · exact ⟨_, ⟨⟨d, k, calls, hwatched', rfl⟩, hm.sound h.sound, h.stored, hcallers⟩,
        Or.inr (.of_offer h.sound (htakes record rfl) hm)⟩
  cases step with
  | save record key | update record key reason =>
      cases hleaves
      cases hcall
      exact hoffer key record rfl rfl
  | delete kind key =>
      cases hleaves
      cases hcall
      have hwatched' := (hwatched.step_direct (e := .call (.delete kind key)) rfl calls).1
      have hm : Cache.Move g.callerSystem.jobSystem (s.cache.view d k calls)
        (.delete ⟨kind, key⟩) _ :=
        .delete ⟨kind, key⟩
      exact ⟨_, ⟨⟨d, k, calls, hwatched', rfl⟩, hm.sound h.sound, h.stored, h.callers⟩,
        Or.inr (.remove h.sound (hunwritten rfl))⟩
  | _ => cases hleaves

/-- The client tells the cache. -/
theorem Brings.writing (h : Brings g s n id o) (hregular : Regular g s v) :
    ∃ v', Writing g n id o (g.step s (.go n)) v' := by
  obtain ⟨⟨step, program⟩, hc, hleaves, hcalls⟩ := h.client
  obtain ⟨call, st, hcall, hobeys⟩ := (hregular.clients n _ hc).writes _ hleaves
  cases program with
  | done a => cases hcalls
  | ask q next =>
      obtain ⟨state, hasks, hnext⟩ := hobeys
      cases hasks with
      | enter | store | notify => cases hcalls
      | tell =>
          have hne := ne_shutdown_of_leaves hleaves hcall
          have hgo : g.step s (.go n) = { s with
              cache := run g.callerSystem.step s.cache (WithCallers.eventsOf call)
              clients := s.clients.set n ⟨step, next (s.cache.running.perform call).1⟩ } := by
            have hc : s.clients[n]? = some ⟨step, .ask (.cache call) next⟩ := hc
            simp only [StoreSystem.step, go, hc, reply?_cache g s hne]
          obtain ⟨v', hshows, htold⟩ := hregular.shows.tell hleaves hcall h.takes h.unwritten
          obtain ⟨_, hregular', -⟩ := hregular.step (.go n)
          have hended := hasEnded_step (g := g) (e := .go n) (P := (· ≠ n))
            (fun m c hc hm => h.alone c (List.mem_eraseIdx_iff_getElem?.2 ⟨m, hm, hc⟩)) (by simp)
          have hclients := hregular'.clients
          rw [hgo] at hended hclients ⊢
          refine ⟨v', ⟨hshows.congr fun hopen => hopen, hclients⟩, ?_, ?_, hended⟩
          · rw [List.length_set]
            exact (List.getElem?_eq_some_iff.1 hc).1
          · rintro m c hc' rfl
            rcases getElem?_set_cases hc' with ⟨-, rfl⟩ | ⟨hne, -⟩
            · exact ⟨hleaves, call, .storing, hcall, htold, hnext _⟩
            · exact absurd rfl hne

theorem Writing.along_run (h : ∃ v, Writing g n id o s v) {events : List Event}
    (halong : Along g.step (fun u e => e.LeavesAlone g.config id o u.clients.length u) s events) :
    ∃ v, Writing g n id o (run g.step s events) v := by
  refine run_induction (Q := fun u => ∃ v, Writing g n id o u v) halong h ?_
  rintro u e ⟨v, h⟩ he
  exact h.step he

/-! ## After the write -/

/-- A search that came after the write. -/
def Reads (id : EntryId) (o : Option Record) (isOpen : Bool) (v : View) (c : Client) : Prop :=
  ∃ call st, call ≠ .shutdown ∧ c.step.call? = some call ∧ st.Fits call id o isOpen v ∧
    c.program.Obeys (Search.Asks call)
      (fun st value => ∀ kind key, c.step = .load kind key → st.Tells value) st

namespace Reads

variable {c : Client}

theorem imp (h : Reads id o isOpen v c) {isOpen' : Bool} (hopen : isOpen = false → isOpen' = false)
    (hholds : v.Holds id o → v'.Holds id o) (hsettled : v.Settled id o → v'.Settled id o) :
    Reads id o isOpen' v' c := by
  obtain ⟨call, st, hne, hcall, hfits, hobeys⟩ := h
  exact ⟨call, st, hne, hcall, hfits.imp hopen hholds hsettled, hobeys⟩

theorem operation (g : StoreSystem B) {step : StoreStep} (hstep : step.isSearch = true) :
    Reads id o isOpen v ⟨step, step.operation g.layout⟩ := by
  obtain ⟨call, hne, hcall, hobeys⟩ := obeys_isSearch g.cacheName g.backendName g.listeners hstep
  exact ⟨call, .opening, hne, hcall, trivial, hobeys⟩

theorem reply (hshows : Shows g s v) (hholds : s.isOpen = false ∨ v.Holds id o)
    {step : StoreStep} {q : Request} {next : Reply q → Prog Value}
    (h : Reads id o s.isOpen v ⟨step, .ask q next⟩) {a : Reply q}
    (ha : (s.reply? g q).1 = some a) : Reads id o s.isOpen v ⟨step, next a⟩ := by
  obtain ⟨call, st, hne, hcall, hfits, state, hasks, hnext⟩ := h
  exact ⟨call, _, hne, hcall, fits_reply hshows hne hholds hasks ha hfits, hnext a⟩

/-- What it offers at the address is what was brought. -/
theorem offer (h : Reads id o isOpen v c) {e : Entry} (he : c.offered? = some e)
    (hid : e.id = id) : o = some e.2 := by
  obtain ⟨call, st, -, -, hfits, hobeys⟩ := h
  obtain ⟨step, program⟩ := c
  cases program with
  | done a => cases he
  | ask q next =>
      obtain ⟨state, hasks, -⟩ := hobeys
      cases hasks with
      | enter | probe | read => cases he
      | offer x =>
          cases he
          exact hfits.2 hid

/-- A load that has ended gives back what was brought. -/
theorem value (h : Reads id o isOpen v c) (hstep : c.step = .load id.kind id.key) {value : Value}
    (hvalue : c.value? = some value) :
    value = .record o ∨ value = .storeError .closed ∧ isOpen = false := by
  obtain ⟨call, st, -, hcall, hfits, hobeys⟩ := h
  obtain ⟨step, program⟩ := c
  subst hstep
  cases hcall
  cases program with
  | ask q next => cases hvalue
  | done a =>
      cases hvalue
      have htells : st.Tells value := hobeys _ _ rfl
      cases htells with
      | ended e? =>
          refine Or.inl (congrArg Value.record ?_)
          cases e? with
          | some e => exact (hfits.2 (beq_iff_eq.1 hfits.1)).symm
          | none => exact (hfits rfl).symm
      | refused => exact Or.inr ⟨rfl, hfits⟩
      | failed => exact hfits.elim

end Reads

/-- The write has ended, no other write to the address is under way, and the clients with a search
that came since have found what was brought. -/
structure Written (g : StoreSystem B) (early : Nat) (id : EntryId) (o : Option Record)
    (s : ConcurrentStore B) (v : View) : Prop where
  regular : Regular g s v
  holds : s.isOpen = false ∨ v.Holds id o
  ended : ∀ (m : Nat) c, s.clients[m]? = some c → c.step.writes id = true → c.hasEnded = true
  late : ∀ m c, s.clients[m]? = some c → early ≤ m → c.step.isSearch = true →
    Reads id o s.isOpen v c

theorem Writing.written (h : Writing g n id o s v) (hended : (s.value? n).isSome = true) :
    Written g s.clients.length id o s v := by
  have hn : ∀ c, s.clients[n]? = some c → c.hasEnded = true := by
    intro c hc
    rw [ConcurrentStore.value?, hc] at hended
    exact hended
  have hc := List.getElem?_eq_getElem h.came
  refine ⟨h.regular, (h.writer n _ hc rfl).holds (hn _ hc), fun m c hc hwrites => ?_,
    fun m c hc hm => ?_⟩
  · by_cases hmn : m = n
    · exact hn c (hmn ▸ hc)
    · exact h.others m c hc hmn hwrites
  · exact absurd (List.getElem?_eq_some_iff.1 hc).1 (Nat.not_lt_of_le hm)

theorem Written.step (h : Written g early id o s v) {e : Event}
    (he : e.LeavesAlone g.config id o early s) : ∃ v', Written g early id o (g.step s e) v' := by
  obtain ⟨v', hregular, hcourse⟩ := h.regular.step e
  have hspares : ∀ e', e.tells s e' → e'.Spares g.config id o := by
    cases e with
    | go m =>
        intro e' htells
        refine h.regular.spares (h.ended m) (fun x hx hid htakes => ?_) htells
        by_cases hm : m < early
        · exact he hm x hx hid htakes
        · obtain ⟨c, hc, hoffered⟩ := Option.bind_eq_some_iff.1 hx
          have hsearch := (h.regular.clients m c hc).isSearch_of_offered hoffered
          exact (h.late m c hc (Nat.le_of_not_lt hm) hsearch).offer hoffered hid
    | begin | work | take | answer => exact fun _ => False.elim
  have hcourse := hcourse.imp hspares
  have hs := h.regular.shows.sound
  have hopen := isOpen_step g e (s := s)
  refine ⟨v', hregular, h.holds.imp hopen (hcourse.holds hs), fun m c hc => ?_, ?_⟩
  · refine hasEnded_step (P := fun _ => True) (fun m c hc _ => h.ended m c hc)
      (fun step hstep => ?_) m c hc trivial
    subst hstep
    exact he
  · refine clients_step e (fun m c hc hm hsearch => ?_)
      (fun step _ _ hsearch => .operation g hsearch)
      fun m step q next a _ hc ha _ hm hsearch => ?_
    · exact (h.late m c hc hm hsearch).imp hopen (hcourse.holds hs) (hcourse.settled hs)
    · have hreads := (h.late m _ hc hm hsearch).reply h.regular.shows h.holds ha
      exact hreads.imp hopen (hcourse.holds hs) (hcourse.settled hs)

theorem Written.along_run (h : ∃ v, Written g early id o s v) {events : List Event}
    (halong : Along g.step (fun u e => e.LeavesAlone g.config id o early u) s events) :
    ∃ v, Written g early id o (run g.step s events) v := by
  refine run_induction (Q := fun u => ∃ v, Written g early id o u v) halong h ?_
  rintro u e ⟨v, h⟩ he
  exact h.step he

/-! ## Loads -/

/-- A client comes for the same all the time. -/
theorem operation?_run (g : StoreSystem B) {s : ConcurrentStore B} {step : StoreStep}
    (h : s.operation? m = some step) (events : List Event) :
    (run g.step s events).operation? m = some step :=
  run_keeps (Q := fun s => s.operation? m = some step)
    (fun s e hs => Client.step_of_prefix (steps_step g s e) hs) h events

/-- A client that has ended does not go on. -/
theorem run_goes_of_done (g : StoreSystem B) {step : StoreStep} {value : Value}
    (hc : s.clients[m]? = some ⟨step, .done value⟩) (k : Nat) :
    run g.step s (List.replicate k (.go m)) = s := by
  induction k with
  | zero => rfl
  | succ k ih =>
      have hstays : g.step s (.go m) = s := by simp only [StoreSystem.step, go, hc]
      rw [List.replicate_succ, run_cons, hstays, ih]

/-- A search has ended after as many replies as it needs at most. -/
theorem value_of_goes (g : StoreSystem B) {call : Call} (hne : call ≠ .shutdown)
    {s : ConcurrentStore B}
    {step : StoreStep} {program : Prog Value} (hc : s.clients[m]? = some ⟨step, program⟩)
    {ends : Search → Value → Prop} {st : Search}
    (hobeys : program.Obeys (Search.Asks call) ends st) {k : Nat} (hk : st.rank ≤ k) :
    ((run g.step s (List.replicate k (.go m))).value? m).isSome = true := by
  induction k generalizing s program st with
  | zero =>
      cases program with
      | done value =>
          rw [run_goes_of_done g hc, ConcurrentStore.value?, hc]
          rfl
      | ask q next =>
          obtain ⟨state, hasks, -⟩ := hobeys
          obtain ⟨a, -⟩ := exists_reply g s (hasks.ne_shutdown hne)
          exact absurd (hasks.rank_lt a) (Nat.not_lt_of_le (Nat.le_trans hk (Nat.zero_le _)))
  | succ k ih =>
      cases program with
      | done value =>
          rw [run_goes_of_done g hc, ConcurrentStore.value?, hc]
          rfl
      | ask q next =>
          obtain ⟨state, hasks, hnext⟩ := hobeys
          obtain ⟨a, ha⟩ := exists_reply g s (hasks.ne_shutdown hne)
          have hgo : g.step s (.go m) = _ := go_of_reply g hc ha
          have hset := List.getElem?_set_self (a := Client.mk step (next a))
            (List.getElem?_eq_some_iff.1 hc).1
          rw [List.replicate_succ, run_cons, hgo]
          exact ih hset (hnext a) (Nat.le_of_lt_succ (Nat.lt_of_lt_of_le (hasks.rank_lt a) hk))

/-- A client that did not come early may go on. -/
theorem along_goes (g : StoreSystem B) (config : Cache.Config) (hm : early ≤ m)
    (s : ConcurrentStore B) (k : Nat) :
    Along g.step (fun u e => e.LeavesAlone config id o early u) s (List.replicate k (.go m)) := by
  induction k generalizing s with
  | zero => trivial
  | succ k ih => exact ⟨fun hlt => absurd hlt (Nat.not_lt_of_le hm), ih _⟩

/-- A client brings something to an address.  After it has told the cache, nobody else writes
there, and clients that came before its write ended offer nothing else there.  Then a load of the
address that came later gives back what was brought when it has gone on four times, unless the
store is closed. -/
theorem load_of_brings (g : StoreSystem B) {s t : ConcurrentStore B} {during after : List Event}
    (hs : g.Reaches s) (hbrings : Brings g s n id o)
    (hduring : Along g.step (fun u e => e.LeavesAlone g.config id o u.clients.length u)
      (g.step s (.go n)) during)
    (ht : run g.step (g.step s (.go n)) during = t) (hended : (t.value? n).isSome = true)
    (hafter : Along g.step (fun u e => e.LeavesAlone g.config id o t.clients.length u) t after)
    (hm : t.clients.length ≤ m)
    (hload : (run g.step t after).operation? m = some (.load id.kind id.key)) :
    ∃ value, (run g.step t (after ++ List.replicate 4 (.go m))).value? m = some value ∧
      (value = .record o ∨ value = .storeError .closed ∧
        (run g.step t (after ++ List.replicate 4 (.go m))).isOpen = false) := by
  subst ht
  obtain ⟨events, rfl⟩ := hs
  obtain ⟨v₀, hstart⟩ := Regular.start g
  obtain ⟨v₁, hregular⟩ := hstart.along_run events
  obtain ⟨v₂, hwriting⟩ := Writing.along_run (hbrings.writing hregular) hduring
  obtain ⟨v₃, hbefore⟩ := Written.along_run ⟨v₂, hwriting.written hended⟩ hafter
  obtain ⟨v₄, hfinal⟩ := Written.along_run ⟨v₃, hbefore⟩ (along_goes g g.config hm _ 4)
  -- the load has begun, and ends
  obtain ⟨⟨step, program⟩, hc, hstep⟩ := Option.map_eq_some_iff.1 hload
  obtain ⟨call, st, hne, -, -, hobeys⟩ := hbefore.late m _ hc hm (by rw [hstep]; rfl)
  have hvalue := value_of_goes g hne hc hobeys st.rank_le
  obtain ⟨value, hvalue⟩ := Option.isSome_iff_exists.1 hvalue
  rw [run_append]
  refine ⟨value, hvalue, ?_⟩
  -- what it gives back is what the searches of a written store have found
  obtain ⟨c, hc, hcvalue⟩ := Option.bind_eq_some_iff.1 hvalue
  obtain ⟨c', hc', hstep'⟩ := Option.map_eq_some_iff.1
    (operation?_run g hload (List.replicate 4 (.go m)))
  obtain rfl := Option.some.inj (hc.symm.trans hc')
  exact (hfinal.late m c hc hm (by rw [hstep']; rfl)).value hstep' hcvalue

/-- A store before tables in memory with one transaction, and with a cache meant for one entry. -/
def StoreSystem.single : StoreSystem Memory.backend where
  config := { byteBudget := 0 }
  initial := (Memory.backend.perform ⟨{}, fun _ _ hr => by cases hr⟩
    (.save (.ofBytes .transaction [1]) (.hash [1]))).2
  cacheName := "cache"
  backendName := "memory"
  listeners := .group []

/-- A load has had the cache admit the transaction, and the worker is about to write it.  Then a
client comes with another one, and is about to tell the cache. -/
def updating : ConcurrentStore Memory.backend :=
    run StoreSystem.single.step StoreSystem.single.start
  [.begin .init, .go 0, .go 0, .go 0, .work .worker 0, .begin (.load .transaction (.hash [1])),
    .go 1, .go 1, .go 1, .go 1, .work .worker 0, .work .worker 0, .work .worker 0, .work .worker 0,
    .begin (.update (.ofBytes .transaction [2]) (.hash [1]) "solid"), .go 2]

/-- The backend carries out what the worker waits for after it was told of the update. -/
def writtenMeanwhile : List Event :=
  [.go 2, .answer .worker, .work .worker 0, .work .worker 0, .work .worker 0, .go 2]

def updated : ConcurrentStore Memory.backend :=
  run StoreSystem.single.step (StoreSystem.single.step updating (.go 2)) writtenMeanwhile

theorem load_of_writtenMeanwhile :
    (run StoreSystem.single.step updated
      (.begin (.load .transaction (.hash [1])) :: List.replicate 4 (.go 3))).value? 3
        = some (.record (some (.ofBytes .transaction [2]))) := by
  have hbrings : Brings StoreSystem.single updating 2 ⟨.transaction, .hash [1]⟩
      (some (.ofBytes .transaction [2])) :=
    ⟨by decide +kernel, by decide +kernel, by decide +kernel, by decide +kernel⟩
  have hduring : Along StoreSystem.single.step
      (fun u e => e.LeavesAlone StoreSystem.single.config ⟨.transaction, .hash [1]⟩
        (some (.ofBytes .transaction [2])) u.clients.length u)
      (StoreSystem.single.step updating (.go 2)) writtenMeanwhile := by decide +kernel
  have hafter : Along StoreSystem.single.step
      (fun u e => e.LeavesAlone StoreSystem.single.config ⟨.transaction, .hash [1]⟩
        (some (.ofBytes .transaction [2])) updated.clients.length u)
      updated [.begin (.load .transaction (.hash [1]))] := by decide +kernel
  have hlength : updated.clients.length = 3 := by decide +kernel
  have hload : (run StoreSystem.single.step updated
      [.begin (.load .transaction (.hash [1]))]).operation? 3
      = some (.load .transaction (.hash [1])) := by
    show (updated.clients ++ [_])[3]?.map Client.step = _
    rw [← hlength, List.getElem?_concat_length]
    rfl
  have hreaches : StoreSystem.single.Reaches updating := ⟨_, rfl⟩
  have hupdated : run StoreSystem.single.step (StoreSystem.single.step updating (.go 2))
      writtenMeanwhile = updated :=
    rfl
  obtain ⟨value, hvalue, hloaded⟩ := load_of_brings StoreSystem.single hreaches hbrings hduring
    hupdated (by decide +kernel) hafter (Nat.le_of_eq hlength) hload
  rcases hloaded with rfl | ⟨-, hclosed⟩
  · exact hvalue
  · have hopen : (run StoreSystem.single.step updated
        ([.begin (.load .transaction (.hash [1]))] ++ List.replicate 4 (.go 3))).isOpen = true := by
      decide +kernel
    rw [hopen] at hclosed
    cases hclosed

/-- A load has read the transaction from the backend when a client comes with another one, and is
about to tell the cache. -/
def readBefore : ConcurrentStore Memory.backend :=
    run StoreSystem.single.step StoreSystem.single.start
  [.begin (.load .transaction (.hash [1])), .go 0, .go 0, .go 0,
    .begin (.update (.ofBytes .transaction [2]) (.hash [1]) "solid"), .go 1]

/-- Without the condition on offers a load may give back what was stored before a write.  The first
load offers what it has read when the update has ended, and then the second load comes. -/
theorem not_load_of_lateOffer :
    StoreSystem.single.Reaches readBefore ∧
      Brings StoreSystem.single readBefore 1 ⟨.transaction, .hash [1]⟩
        (some (.ofBytes .transaction [2])) ∧
      (run StoreSystem.single.step readBefore [.go 1, .go 1, .go 1]).value? 1 = some (.bool true) ∧
      (run StoreSystem.single.step (run StoreSystem.single.step readBefore [.go 1, .go 1, .go 1])
        (.go 0 :: .begin (.load .transaction (.hash [1])) :: List.replicate 4 (.go 2))).value? 2
          = some (.record (some (.ofBytes .transaction [1]))) :=
  ⟨⟨_, rfl⟩, ⟨by decide +kernel, by decide +kernel, by decide +kernel, by decide +kernel⟩,
    by decide +kernel, by decide +kernel⟩

-- The condition on batches is needed as well.  Here the worker is about to write the transaction
-- when it is deleted, and the load comes before the worker deletes it again.
example : (run StoreSystem.single.step StoreSystem.single.start
    ([.begin .init, .go 0, .go 0, .go 0, .work .worker 0, .begin (.load .transaction (.hash [1])),
      .go 1, .go 1, .go 1, .go 1, .work (.caller 0) 0, .work (.caller 0) 0, .work .worker 0,
      .work .worker 0, .work .worker 0, .work .worker 0, .begin (.delete .transaction (.hash [1])),
        .go 2, .go 2, .go 2,
      .answer .worker, .begin (.load .transaction (.hash [1]))] ++ List.replicate 4
        (.go 3))).value? 3
    = some (.record (some (.ofBytes .transaction [1]))) := by decide +kernel

end ConcurrentStore

end Store

end RecordStore
