import RecordStore.Proofs.Cache.Agreement
import RecordStore.Proofs.Store.Concurrent

/-!
# What a concurrent store shows of its cache

The callers at the cache of a concurrent store are shutdowns, which come only when the store is
closed, and those that request a pass for a record that they have offered.  So at every time the
store shows a view (`ConcurrentStore.Shows`), and a request of a client takes the view on a course
of what the request tells it (`ConcurrentStore.Shows.reply`).  At all other events programs of the
cache go on, or a client comes (`ConcurrentStore.Shows.step`).

A client goes on by a reply, or not at all, or it begins to wait for the shutdown of the cache
(`ConcurrentStore.Went`).
-/

namespace RecordStore

open Cache (View)

namespace Cache.WithCallers

variable {call : Call}

theorem isCached_of_eventsOf {e : Event} (he : e ∈ eventsOf call) : e.isCached = true := by
  cases call with
  | saveBatch entries =>
      obtain ⟨x, -, rfl⟩ := List.mem_map.1 he
      rfl
  | deleteBatch ids =>
      obtain ⟨id, -, rfl⟩ := List.mem_map.1 he
      rfl
  | shutdown => cases he
  | _ =>
      rw [List.mem_singleton.1 he]
      rfl

/-- Events that are about the cache alone have no part in the backend, and callers only come by them
to request a pass. -/
theorem step_of_isCached (g : CallerSystem) {e : Event} (he : e.isCached = true) (s : WithCallers) :
    (g.step s e).stored = s.stored ∧
      ∀ c ∈ (g.step s e).callers, c ∈ s.callers ∨ c.Requests := by
  cases e with
  | offer key record =>
      refine ⟨rfl, fun c hc => ?_⟩
      rcases List.mem_append.1 hc with hold | hnew
      · exact Or.inl hold
      · rw [s.eq_of_mem_requester hnew]
        exact Or.inr Caller.requests_requestPass
  | call call =>
      simp only [CallerSystem.step]
      split <;> exact ⟨rfl, fun c hc => Or.inl hc⟩
  | _ => cases he

theorem run_of_isCached (g : CallerSystem) {events : List Event}
    (hevents : ∀ e ∈ events, e.isCached = true)
    (s : WithCallers) : (run g.step s events).stored = s.stored ∧
      ∀ c ∈ (run g.step s events).callers, c ∈ s.callers ∨ c.Requests := by
  refine run_of_forall (Q := fun s' : WithCallers => s'.stored = s.stored ∧
    ∀ c ∈ s'.callers, c ∈ s.callers ∨ c.Requests) (fun e he s' h => ?_) ⟨rfl, fun c => Or.inl⟩
  obtain ⟨hstored, hcallers⟩ := step_of_isCached g (hevents e he) s'
  exact ⟨hstored.trans h.1, fun c hc => (hcallers c hc).elim (h.2 c) Or.inr⟩

/-- The events of a call do to the cache what the call does. -/
theorem running_eventsOf (g : CallerSystem) (s : WithCallers) (hcall : call ≠ .shutdown) :
    (run g.step s (eventsOf call)).running = (s.running.perform call).2 := by
  cases call with
  | saveBatch entries => exact g.running_offers entries s
  | deleteBatch ids => exact g.running_deletes ids s
  | shutdown => exact absurd rfl hcall
  | _ => rfl

/-- A call that does not change an address tells the cache nothing about it. -/
theorem spares_of_not_changes {config : Config} {id : EntryId} {o : Option Record}
    (hcall : call.changes id = false) {x : Event} (hx : x ∈ eventsOf call)
    {e : Cache.Event Empty} (he : x.move? = some e) : e.Spares config id o := by
  have hoffer : ∀ {y : Entry}, y.id ≠ id → (Event.offer y.1 y.2).move? = some e →
      e.Spares config id o := by
    intro y hne hsome
    cases hsome
    exact fun hid => absurd hid hne
  have hdelete : ∀ {i : EntryId}, i ≠ id → (Event.call (.delete i.kind i.key)).move? = some e →
      e.Spares config id o := by
    intro i hne hsome
    cases hsome
    exact hne
  cases call with
  | save record key | update record key =>
      rw [List.mem_singleton.1 hx] at he
      exact hoffer (y := (key, record)) (beq_eq_false_iff_ne.1 hcall) he
  | saveBatch entries =>
      obtain ⟨y, hy, rfl⟩ := List.mem_map.1 hx
      simp only [Call.changes, List.any_eq_false, beq_iff_eq] at hcall
      exact hoffer (hcall y hy) he
  | delete kind key =>
      rw [List.mem_singleton.1 hx] at he
      exact hdelete (beq_eq_false_iff_ne.1 hcall) he
  | deleteBatch ids =>
      obtain ⟨i, hi, rfl⟩ := List.mem_map.1 hx
      rw [Call.changes, List.contains_eq_mem, decide_eq_false_iff_not] at hcall
      exact hdelete (fun hid => hcall (hid ▸ hi)) he
  | clear kind =>
      rw [List.mem_singleton.1 hx] at he
      cases he
      exact beq_eq_false_iff_ne.1 hcall
  | shutdown => cases hx
  | _ =>
      rw [List.mem_singleton.1 hx] at he
      cases he

end Cache.WithCallers

namespace Store

open Bench (StoreStep Value)
open Cache (WithCallers Duty Closing)

/-- What a request tells the cache, or the backend behind it. -/
def Request.tells : Request → Cache.Event Empty → Prop
  | .cache call, e => ∃ x ∈ WithCallers.eventsOf call, x.move? = some e
  | .offer key record, e => e = .offer key record
  | .backend _ call, e => e = .own call
  | _, _ => False

/-- What an operation asks spares an address that it does not write, but for what it offers. -/
theorem Asks.spares {step : StoreStep} {b : Bool} {q : Request} {state : Reply q → Bool}
    (hasks : Asks step b q state) {config : Cache.Config} {id : EntryId} {o : Option Record}
    (hwrites : step.writes id = false)
    (hoffer : ∀ key record, q = .offer key record → record.idAt key = id →
      config.takes record = true → o = some record)
    {e : Cache.Event Empty} (he : q.tells e) : e.Spares config id o := by
  have hchanges : ∀ call, step.call? = some call → call.changes id = false := by
    intro call hcall
    rw [StoreStep.writes, hcall] at hwrites
    exact hwrites
  cases hasks with
  | isOpen | close | notify => exact he.elim
  | cache hcall =>
      obtain ⟨x, hx, hmove⟩ := he
      exact WithCallers.spares_of_not_changes (hchanges _ hcall) hx hmove
  | backend hcall =>
      obtain rfl := he
      exact fun t => Or.inl (Records.apply_of_not_changes (hchanges _ hcall))
  | offer =>
      obtain rfl := he
      exact hoffer _ _ rfl

namespace ConcurrentStore

variable {B : Backend} {g : StoreSystem B} {s s' : ConcurrentStore B} {v v' : View}

/-- The view of the cache and the backend of a concurrent store. -/
structure Shows (g : StoreSystem B) (s : ConcurrentStore B) (v : View) : Prop where
  watched : ∃ d k calls, WithCallers.Watched g.callerSystem s.cache d k ∧ s.cache.view d k calls = v
  sound : v.Sound
  stored : s.cache.stored = B.records s.backend
  /-- Callers shut the cache down, and come only when the store is closed, or they request a
  pass. -/ callers : ∀ c ∈ s.cache.callers, c.errand = .shutdown ∧ s.isOpen = false ∨ c.Requests

namespace Shows

theorem start (g : StoreSystem B) : ∃ v, g.start.Shows g v := by
  obtain ⟨calls, ha⟩ := WithCallers.accounts_start g.callerSystem
  exact ⟨_, ⟨_, _, calls, .start g.callerSystem, rfl⟩, ha.sound, rfl, fun _ hc =>
    (List.not_mem_nil hc).elim⟩

variable (h : Shows g s v)
include h

theorem contents : v.contents = s.cache.running.cache.contents := by
  obtain ⟨d, k, calls, -, rfl⟩ := h.watched
  rfl

theorem records : v.stored = B.records s.backend := by
  obtain ⟨d, k, calls, -, rfl⟩ := h.watched
  exact h.stored

theorem serial : v.Serial := by
  obtain ⟨d, k, calls, hwatched, rfl⟩ := h.watched
  exact hwatched.running.serial _ _ _

theorem cache : s.cache.running.cache.Sound g.config := by
  obtain ⟨d, k, calls, hwatched, -⟩ := h.watched
  exact hwatched.running.sound

theorem isOpen_of_closed (hclosed : s.cache.running.cache.closed = true) : s.isOpen = false := by
  obtain ⟨d, k, calls, hwatched, -⟩ := h.watched
  rw [hwatched.running.closed, hwatched.under, Option.isSome_iff_exists] at hclosed
  obtain ⟨n, hn⟩ := hclosed
  obtain ⟨program, hprogram, -⟩ := hwatched.closer n hn
  rcases h.callers _ (List.mem_of_getElem? hprogram) with hshutdown | hrequests
  · exact hshutdown.2
  · cases hrequests.errand

/-- The store may be closed, and clients may come and go on. -/
theorem congr {isOpen : Bool} {clients : List Client} (hopen : s.isOpen = false → isOpen = false) :
    Shows g { s with isOpen, clients } v :=
  ⟨h.watched, h.sound, h.stored, fun c hc => (h.callers c hc).imp_left fun hc => ⟨hc.1, hopen hc.2⟩⟩

/-- A program of the cache goes on, or a shutdown comes. -/
theorem program {e : WithCallers.Event} (he : e.isProgram = true)
    (hbegin : ∀ errand, e = .begin errand → errand = .shutdown ∧ s.isOpen = false)
    {backend : B.State} (hstored : (g.callerSystem.step s.cache e).stored = B.records backend) :
    ∃ v', Shows g { s with cache := g.callerSystem.step s.cache e, backend } v' ∧
      v.Proceeds g.callerSystem v' := by
  obtain ⟨d, k, calls, hwatched, rfl⟩ := h.watched
  have hreserved : s.cache.Reserved e :=
    hwatched.reserved_of_shutdown (fun c hc => (h.callers c hc).imp_left And.left)
      fun call hcall => by
      rw [hcall] at he
      cases he
  obtain ⟨d', k', calls', hwatched', hp⟩ := hwatched.step_program hreserved he calls
  refine ⟨_, ⟨⟨d', k', calls', hwatched', rfl⟩, hp.sound h.sound, hstored, ?_⟩, hp⟩
  exact WithCallers.callers_step h.callers (fun a hc => hc.imp_right fun hc => hc.next a)
    (Or.inr Cache.Caller.requests_requestPass) fun errand herrand => Or.inl (hbegin errand herrand)

/-- The cache or the backend is told something. -/
theorem direct (events : List WithCallers.Event) (hevents : ∀ e ∈ events, e.isProgram = false)
    {backend : B.State} (hstored : (run g.callerSystem.step s.cache events).stored
      = B.records backend)
    (hcallers : ∀ c ∈ (run g.callerSystem.step s.cache events).callers,
      c ∈ s.cache.callers ∨ c.Requests) :
    ∃ v', Shows g { s with cache := run g.callerSystem.step s.cache events, backend } v' ∧
      View.Course g.callerSystem (fun e' => ∃ e ∈ events, e.move? = some e') v v' := by
  obtain ⟨d, k, calls, hwatched, rfl⟩ := h.watched
  obtain ⟨hwatched', calls', hcourse⟩ := hwatched.run_direct hevents calls
  refine ⟨_, ⟨⟨d, k, calls', hwatched', rfl⟩, hcourse.sound h.sound,
    hstored, fun c hc => ?_⟩, hcourse⟩
  exact (hcallers c hc).elim (h.callers c) Or.inr

/-- The cache is told something. -/
theorem cached (events : List WithCallers.Event) (hevents : ∀ e ∈ events, e.isCached = true) :
    ∃ v', Shows g { s with cache := run g.callerSystem.step s.cache events } v' ∧
      View.Course g.callerSystem (fun e' => ∃ e ∈ events, e.move? = some e') v v' := by
  obtain ⟨hstored, hcallers⟩ := WithCallers.run_of_isCached g.callerSystem hevents s.cache
  exact h.direct events (fun e he => WithCallers.Event.isProgram_of_isCached (hevents e he))
    (hstored.trans h.stored) hcallers

/-- The cache is being shut down. -/
theorem shutdownCache (hclosed : s.isOpen = false) :
    ∃ v', Shows g (s.shutdownCache g).2 v' ∧ v.Proceeds g.callerSystem v' := by
  simp only [ConcurrentStore.shutdownCache]
  split
  · exact h.program rfl (fun errand herrand => by cases herrand; exact ⟨rfl, hclosed⟩) h.stored
  · exact ⟨v, h, .refl v⟩
  · exact ⟨v, h, .refl v⟩

end Shows

theorem reply?_cache (g : StoreSystem B) (s : ConcurrentStore B) {call : Call}
    (hcall : call ≠ .shutdown) : s.reply? g (.cache call) = (some (s.cache.running.perform call).1,
      { s with cache := run g.callerSystem.step s.cache (WithCallers.eventsOf call) }) := by
  cases call <;> first | rfl | exact absurd rfl hcall

/-- What a client asks takes the view on a course of what is told. -/
theorem Shows.reply (h : Shows g s v) {q : Request} (hq : q = .cache .shutdown → s.isOpen = false) :
    ∃ v', Shows g (s.reply? g q).2 v' ∧ View.Course g.callerSystem q.tells v v' := by
  cases q with
  | isOpen | notify => exact ⟨v, h, .refl v⟩
  | close => exact ⟨v, h.congr fun _ => rfl, .refl v⟩
  | cache call =>
      by_cases hcall : call = .shutdown
      · subst hcall
        obtain ⟨v', h', hp⟩ := h.shutdownCache (hq rfl)
        exact ⟨v', h', .single h.serial (.proceeds hp)⟩
      · rw [reply?_cache g s hcall]
        exact h.cached _ fun e => WithCallers.isCached_of_eventsOf
  | offer key record =>
      obtain ⟨v', h', hcourse⟩ := h.cached [.offer key record] fun e he => by
        rw [List.mem_singleton.1 he]
        rfl
      refine ⟨v', h', hcourse.imp fun e' he' => ?_⟩
      obtain ⟨e, he, hmove⟩ := he'
      rw [List.mem_singleton.1 he] at hmove
      exact (Option.some.inj hmove).symm
  | backend i call =>
      have hstored : s.cache.stored.apply call = B.records (B.perform s.backend call).2 := by
        rw [B.records_perform, h.stored]
      obtain ⟨v', h', hcourse⟩ := h.direct [.own call]
        (fun e he => by rw [List.mem_singleton.1 he]; rfl) hstored fun c hc => Or.inl hc
      refine ⟨v', h', hcourse.imp fun e' he' => ?_⟩
      obtain ⟨e, he, hmove⟩ := he'
      rw [List.mem_singleton.1 he] at hmove
      exact (Option.some.inj hmove).symm

/-- The view after an event that lets no client go on. -/
theorem Shows.step (h : Shows g s v) {e : Event} (he : ∀ n, e ≠ .go n) :
    ∃ v', Shows g (g.step s e) v' ∧ v.Proceeds g.callerSystem v' := by
  cases e with
  | begin step => exact ⟨v, h.congr fun hopen => hopen, .refl v⟩
  | go n => exact absurd rfl (he n)
  | work party now =>
      exact h.program (e := .go party now) rfl (by simp)
        ((WithCallers.stored_of_go _ _ _ _).trans h.stored)
  | take e now =>
      exact h.program (e := .take e now) rfl (by simp)
        ((WithCallers.stored_of_take _ _ _ _).trans h.stored)
  | answer party =>
      refine h.program (e := .answer party .done) rfl (by simp) ?_
      rw [WithCallers.stored_of_answer, h.stored]
      cases s.cache.waitsFor? party with
      | none => rfl
      | some call => exact (B.records_perform s.backend call).symm

/-- Only the shutdown of the cache has a client wait. -/
theorem exists_reply (g : StoreSystem B) (s : ConcurrentStore B) {q : Request}
    (hq : q ≠ .cache .shutdown) : ∃ a, (s.reply? g q).1 = some a := by
  cases q with
  | cache call =>
      rw [reply?_cache g s (by rintro rfl; exact hq rfl)]
      exact ⟨_, rfl⟩
  | _ => exact ⟨_, rfl⟩

/-! ## A client goes on -/

theorem clients_reply (g : StoreSystem B) (s : ConcurrentStore B) (q : Request) :
    (s.reply? g q).2.clients = s.clients := by
  cases q with
  | cache call =>
      by_cases hcall : call = .shutdown
      · subst hcall
        simp only [reply?, ConcurrentStore.shutdownCache]
        split <;> rfl
      · rw [reply?_cache g s hcall]
  | _ => rfl

/-- A store that was closed stays closed. -/
theorem isOpen_reply (g : StoreSystem B) {s : ConcurrentStore B} (q : Request)
    (h : s.isOpen = false) : (s.reply? g q).2.isOpen = false := by
  cases q with
  | close => rfl
  | cache call =>
      by_cases hcall : call = .shutdown
      · subst hcall
        simp only [reply?, ConcurrentStore.shutdownCache]
        split <;> exact h
      · rw [reply?_cache g s hcall]
        exact h
  | _ => exact h

/-- How a client goes on. -/
inductive Went (g : StoreSystem B) (s : ConcurrentStore B) (n : Nat) :
    ConcurrentStore B → Prop where
  | stays : Went g s n s
  | waits {step : StoreStep} {q : Request} {next : Reply q → Prog Value}
      (hc : s.clients[n]? = some ⟨step, .ask q next⟩) (ha : (s.reply? g q).1 = none) :
      Went g s n (s.reply? g q).2
  | replied {step : StoreStep} {q : Request} {next : Reply q → Prog Value} {a : Reply q}
      (hc : s.clients[n]? = some ⟨step, .ask q next⟩) (ha : (s.reply? g q).1 = some a) :
      Went g s n { (s.reply? g q).2 with clients := s.clients.set n ⟨step, next a⟩ }

/-- A client that gets a reply. -/
theorem go_of_reply (g : StoreSystem B) {n : Nat} {step : StoreStep} {q : Request}
    {next : Reply q → Prog Value} (hc : s.clients[n]? = some ⟨step, .ask q next⟩) {a : Reply q}
    (ha : (s.reply? g q).1 = some a) : s.go g n
      = { (s.reply? g q).2 with clients := s.clients.set n ⟨step, next a⟩ } := by
  have hr : s.reply? g q = (some a, (s.reply? g q).2) := by rw [← ha]
  simp only [go, hc]
  rw [hr]
  simp only [clients_reply]

theorem went (g : StoreSystem B) (s : ConcurrentStore B) (n : Nat) : Went g s n (s.go g n) := by
  have hstays : (∀ step q (next : Reply q → Prog Value),
      s.clients[n]? ≠ some ⟨step, .ask q next⟩) → s.go g n = s := by
    intro hnone
    simp only [go]
  by_cases hask : ∃ step q, ∃ next : Reply q → Prog Value,
      s.clients[n]? = some ⟨step, .ask q next⟩
  · obtain ⟨step, q, next, hc⟩ := hask
    cases ha : (s.reply? g q).1 with
    | some a =>
        rw [go_of_reply g hc ha]
        exact .replied hc ha
    | none =>
        have hr : s.reply? g q = (none, (s.reply? g q).2) := by rw [← ha]
        have hgo : s.go g n = (s.reply? g q).2 := by
          simp only [go, hc]
          rw [hr]
        rw [hgo]
        exact .waits hc ha
  · rw [hstays fun step q next hc => hask ⟨step, q, next, hc⟩]
    exact .stays

namespace Went

variable {n : Nat} (hw : Went g s n s')
include hw

/-- The other clients are as they were. -/
theorem clients {P : Nat → Client → Prop} (hold : ∀ m c, s.clients[m]? = some c → P m c)
    (hnew : ∀ step q (next : Reply q → Prog Value) a,
      s.clients[n]? = some ⟨step, .ask q next⟩ → (s.reply? g q).1 = some a →
      s' = { (s.reply? g q).2 with clients := s.clients.set n ⟨step, next a⟩ } →
      P n ⟨step, next a⟩) :
    ∀ m c, s'.clients[m]? = some c → P m c := by
  intro m c hc
  cases hw with
  | stays => exact hold m c hc
  | waits =>
      rw [clients_reply] at hc
      exact hold m c hc
  | @replied step q next a hn ha =>
      have hc : (s.clients.set n ⟨step, next a⟩)[m]? = some c := hc
      rcases getElem?_set_cases hc with ⟨rfl, rfl⟩ | ⟨-, hc⟩
      · exact hnew step q next a hn ha rfl
      · exact hold m c hc

theorem steps : s'.clients.map Client.step = s.clients.map Client.step := by
  cases hw with
  | stays => rfl
  | waits => rw [clients_reply]
  | replied hc => exact Client.map_step_set hc _

theorem isOpen (h : s.isOpen = false) : s'.isOpen = false := by
  cases hw with
  | stays => exact h
  | waits | replied => exact isOpen_reply g _ h

/-- What the client asks takes the view on a course of what is told. -/
theorem shows (h : Shows g s v)
    (hasks : ∀ c, s.clients[n]? = some c → c.asked? = some (.cache .shutdown) → s.isOpen = false) :
    ∃ v', Shows g s' v' ∧ View.Course g.callerSystem
      (fun e => ∃ c q, s.clients[n]? = some c ∧ c.asked? = some q ∧ q.tells e) v v' := by
  cases hw with
  | stays => exact ⟨v, h, .refl v⟩
  | waits hc =>
      obtain ⟨v', h', hcourse⟩ := h.reply fun hq => hasks _ hc (congrArg some hq)
      exact ⟨v', h', hcourse.imp fun e he => ⟨_, _, hc, rfl, he⟩⟩
  | replied hc =>
      obtain ⟨v', h', hcourse⟩ := h.reply fun hq => hasks _ hc (congrArg some hq)
      exact ⟨v', h'.congr fun hopen => hopen, hcourse.imp fun e he => ⟨_, _, hc, rfl, he⟩⟩

end Went

/-- What holds of all clients, of one that comes, and of one that goes on, holds after every
event. -/
theorem clients_step (e : Event) {P : Nat → Client → Prop}
    (hold : ∀ m c, s.clients[m]? = some c → P m c)
    (hbegin : ∀ step, e = .begin step → P s.clients.length ⟨step, step.operation g.layout⟩)
    (hgo : ∀ n step q (next : Reply q → Prog Value) a, e = .go n →
      s.clients[n]? = some ⟨step, .ask q next⟩ → (s.reply? g q).1 = some a →
      g.step s e = { (s.reply? g q).2 with clients := s.clients.set n ⟨step, next a⟩ } →
      P n ⟨step, next a⟩) :
    ∀ m c, (g.step s e).clients[m]? = some c → P m c := by
  cases e with
  | begin step =>
      intro m c hc
      have hc : (s.clients ++ [⟨step, step.operation g.layout⟩])[m]? = some c := hc
      rcases Nat.lt_trichotomy m s.clients.length with hm | rfl | hm
      · rw [List.getElem?_append_left hm] at hc
        exact hold m c hc
      · rw [List.getElem?_concat_length] at hc
        cases hc
        exact hbegin step rfl
      · rw [List.getElem?_eq_none (by rw [List.length_append]; exact hm)] at hc
        cases hc
  | go n => exact (went g s n).clients hold fun step q next a => hgo n step q next a rfl
  | work | take | answer => exact hold

/-- Clients stay, also when they have ended, and keep to what they came for. -/
theorem steps_step (g : StoreSystem B) (s : ConcurrentStore B) (e : Event) :
    s.clients.map Client.step <+: (g.step s e).clients.map Client.step := by
  cases e with
  | begin step => exact (List.prefix_append _ _).map _
  | go n => exact (went g s n).steps ▸ List.prefix_refl _
  | work | take | answer => exact List.prefix_refl _

theorem length_step (g : StoreSystem B) (s : ConcurrentStore B) (e : Event) :
    s.clients.length ≤ (g.step s e).clients.length := by
  simpa only [List.length_map] using (steps_step g s e).length_le

theorem isOpen_step (g : StoreSystem B) {s : ConcurrentStore B} (e : Event) (h : s.isOpen = false) :
    (g.step s e).isOpen = false := by
  cases e with
  | go n => exact (went g s n).isOpen h
  | begin | work | take | answer => exact h

/-! ## Clients that keep to their routines -/

/-- A client that asks what its operation may ask, and shuts the cache down only when the store is
closed.  One that stores or deletes one entry goes through a write. -/
structure KeepsTo (isOpen : Bool) (c : Client) : Prop where
  asks : ∃ b, (b = true → isOpen = false) ∧ c.program.Obeys (Asks c.step) (fun _ _ => True) b
  writes : ∀ left, c.step.leaves? = some left → ∃ call st, c.step.call? = some call ∧
    c.program.Obeys (Write.Asks call) (fun st _ => st.isOver = true) st

namespace KeepsTo

variable {isOpen : Bool}

theorem operation (g : StoreSystem B) (step : StoreStep) :
    KeepsTo isOpen ⟨step, step.operation g.layout⟩ where
  asks := ⟨false, fun h => absurd h Bool.false_ne_true, obeys_operation g.layout step⟩
  writes left hleft := by
    obtain ⟨call, hcall, hobeys⟩ := obeys_leaves g.cacheName g.backendName g.listeners hleft
    exact ⟨call, _, hcall, hobeys⟩

theorem congr {c : Client} (h : KeepsTo isOpen c) {isOpen' : Bool}
    (hopen : isOpen = false → isOpen' = false) : KeepsTo isOpen' c where
  asks := by
    obtain ⟨b, hb, hobeys⟩ := h.asks
    exact ⟨b, fun htrue => hopen (hb htrue), hobeys⟩
  writes := h.writes

/-- A client shuts the cache down only when the store is closed. -/
theorem isOpen_of_shutdown {c : Client} (h : KeepsTo isOpen c)
    (hasked : c.asked? = some (.cache .shutdown)) : isOpen = false := by
  obtain ⟨b, hb, hobeys⟩ := h.asks
  obtain ⟨step, program⟩ := c
  cases program with
  | done a => cases hasked
  | ask q next =>
      obtain rfl := Option.some.inj hasked
      obtain ⟨state, hasks, -⟩ := hobeys
      cases hasks with
      | cache hcall hclosed => exact hb (hclosed rfl)

/-- Only searches offer anything. -/
theorem isSearch_of_offered {c : Client} (h : KeepsTo isOpen c) {e : Entry}
    (he : c.offered? = some e) : c.step.isSearch = true := by
  obtain ⟨b, -, hobeys⟩ := h.asks
  obtain ⟨step, program⟩ := c
  cases program with
  | done a => cases he
  | ask q next =>
      obtain ⟨state, hasks, -⟩ := hobeys
      cases hasks with
      | offer hsearch => exact hsearch
      | isOpen | close | cache | backend | notify => cases he

/-- A client that has got a reply. -/
theorem reply {step : StoreStep} {q : Request} {next : Reply q → Prog Value}
    (h : KeepsTo s.isOpen ⟨step, .ask q next⟩) (a : Reply q) :
    KeepsTo (s.reply? g q).2.isOpen ⟨step, next a⟩ where
  asks := by
    obtain ⟨b, hb, state, hasks, hnext⟩ := h.asks
    refine ⟨state a, fun htrue => ?_, hnext a⟩
    cases hasks with
    | close => rfl
    | _ => exact isOpen_reply g _ (hb htrue)
  writes left hleft := by
    obtain ⟨call, st, hcall, state, -, hnext⟩ := h.writes left hleft
    exact ⟨call, _, hcall, hnext a⟩

end KeepsTo

/-- A store that shows a view, and whose clients keep to their routines. -/
structure Regular (g : StoreSystem B) (s : ConcurrentStore B) (v : View) : Prop where
  shows : Shows g s v
  clients : ∀ (n : Nat) c, s.clients[n]? = some c → KeepsTo s.isOpen c

/-- What the client tells that goes on by an event, if one does. -/
def Event.tells (s : ConcurrentStore B) : Event → Cache.Event Empty → Prop
  | .go n, e => ∃ c q, s.clients[n]? = some c ∧ c.asked? = some q ∧ q.tells e
  | _, _ => False

namespace Regular

theorem start (g : StoreSystem B) : ∃ v, Regular g g.start v := by
  obtain ⟨v, h⟩ := Shows.start g
  exact ⟨v, h, fun n c hc => by cases hc⟩

/-- Whatever happens, a store is regular, and its view takes a course. -/
theorem step (h : Regular g s v) (e : Event) :
    ∃ v', Regular g (g.step s e) v' ∧ View.Course g.callerSystem (e.tells s) v v' := by
  have hclients : ∀ (n : Nat) c, (g.step s e).clients[n]? = some c →
      KeepsTo (g.step s e).isOpen c := by
    refine clients_step e (fun m c hc => (h.clients m c hc).congr (isOpen_step g e))
      (fun step _ => .operation g step) fun n step q next a _ hc _ hs' => ?_
    rw [hs']
    exact (h.clients n _ hc).reply a
  by_cases he : ∃ n, e = .go n
  · obtain ⟨n, rfl⟩ := he
    obtain ⟨v', h', hcourse⟩ :=
      (went g s n).shows h.shows fun c hc => (h.clients n c hc).isOpen_of_shutdown
    exact ⟨v', ⟨h', hclients⟩, hcourse⟩
  · obtain ⟨v', h', hp⟩ := h.shows.step (not_exists.1 he)
    exact ⟨v', ⟨h', hclients⟩, .single h.shows.serial (.proceeds hp)⟩

/-- Whatever happens in a run, the store stays regular. -/
theorem along_run (h : Regular g s v) (events : List Event) :
    ∃ v', Regular g (run g.step s events) v' := by
  refine run_keeps (Q := fun s => ∃ v, Regular g s v) (fun s e hs => ?_) ⟨v, h⟩ events
  obtain ⟨v, h⟩ := hs
  obtain ⟨v', h', -⟩ := h.step e
  exact ⟨v', h'⟩

end Regular

end ConcurrentStore

end Store

end RecordStore
