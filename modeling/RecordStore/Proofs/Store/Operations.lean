import RecordStore.Bench.Step
import RecordStore.Proofs.Cache.WithCallers
import RecordStore.Proofs.Store.Answers

/-!
# What operations of a store ask

An operation makes one call at most, on the cache and on the backends.  Between its requests
anything may happen, so what it asks is told by routines.

* Every operation asks only what `Asks` lists, and shuts the cache down only after the store was
  closed.
* A search over a cache and one backend goes through the phases of a `Search`: what it offers is
  what the backend has found, after the cache had nothing.
* A write over a cache and one backend goes through the phases of a `Write`: it tells the cache
  first, then the backend.
-/

namespace RecordStore

namespace Bench.StoreStep

/-- The call that an operation makes, if it makes one. -/
def call? : StoreStep → Option Call
  | isClosed | publish _ _ => none
  | init => some .init
  | shutdown => some .shutdown
  | load kind key => some (.get kind key)
  | find kind raw => some (.seek kind raw)
  | has kind key => some (.has kind key)
  | mayHave kind key => some (.mayHave kind key)
  | first kind => some (.first kind)
  | latest kind => some (.latest kind)
  | next kind key => some (.next kind key)
  | previous kind key => some (.previous kind key)
  | count kind => some (.count kind)
  | keysStartingWith kind start => some (.keysStartingWith kind start)
  | loadAllKeys kind => some (.loadAllKeys kind)
  | keysMissingFrom kind referenced => some (.keysMissingFrom kind referenced)
  | save record key => some (.save record key)
  | saveBatch entries => some (.saveBatch entries)
  | update record key reason => some (.update record key reason)
  | delete kind key => some (.delete kind key)
  | deleteBatch ids => some (.deleteBatch ids)
  | clearTable kind => some (.clear kind)
  | clearMetadata kind => some (.clearMetadata kind)

/-- Whether an operation offers to the cache what a backend has found. -/
def isSearch : StoreStep → Bool
  | load _ _ | find _ _ | first _ | latest _ | next _ _ | previous _ _ => true
  | _ => false

/-- What an operation tells the listeners when it is carried out. -/
def tells? : StoreStep → Option Notice
  | update record key reason => some (.change key record reason)
  | publish message args => some (.event message args)
  | shutdown => some .shutdown
  | _ => none

/-- Whether an operation may change what is stored under an address. -/
def writes (id : EntryId) (step : StoreStep) : Bool := step.call?.any (·.changes id)

/-- What an operation leaves behind that stores or deletes one entry. -/
def leaves? : StoreStep → Option (EntryId × Option Record)
  | save record key | update record key _ => some (record.idAt key, some record)
  | delete kind key => some (⟨kind, key⟩, none)
  | _ => none

end Bench.StoreStep

namespace Store

open Bench (StoreStep)

theorem bind_pure {α β : Type} (a : α) (f : α → Prog β) :
    Program.bind (pure a : Prog α) f = f a := rfl

theorem obeys_map {σ α β : Type} {asks : σ → (q : Request) → (Reply q → σ) → Prop}
    {ends : σ → α → Prop} {ends' : σ → β → Prop} {s : σ} {p : Prog α} {f : α → β}
    (h : p.Obeys asks ends s) (hends : ∀ s a, ends s a → ends' s (f a)) :
    (p.bind fun a => .done (f a)).Obeys asks ends' s :=
  Program.Obeys.bind h hends

/-! ## Programs that leave a routine where it is -/

section

variable {σ α β : Type} {asks : σ → (q : Request) → (Reply q → σ) → Prop} {s : σ}

/-- Whatever the program asks leaves a state as it is. -/
def Stays (asks : σ → (q : Request) → (Reply q → σ) → Prop) (s : σ) (p : Prog α) : Prop :=
  p.Obeys asks (fun s' _ => s' = s) s

namespace Stays

theorem done (a : α) : Stays asks s (.done a) := rfl

theorem bind {p : Prog α} {f : α → Prog β} (h : Stays asks s p) (hf : ∀ a, Stays asks s (f a)) :
    Stays asks s (p.bind f) :=
  Program.Obeys.bind h fun _ a hs => hs ▸ hf a

theorem ask {q : Request} (hq : asks s q fun _ => s) : Stays asks s (Store.ask q) :=
  ⟨fun _ => s, hq, fun _ => rfl⟩

theorem opened {p : Prog (Result α)} (hopen : asks s .isOpen fun _ => s) (h : Stays asks s p) :
    Stays asks s (opened p) := by
  refine (ask hopen).bind fun isOpen => ?_
  cases isOpen with
  | true => exact h
  | false => exact .done _

variable {l : Layout} {call : Call} {indices : List Nat}

theorem askCache (hcache : l.cache.isSome = true → asks s (.cache call) fun _ => s) :
    Stays asks s (askCache l call) := by
  simp only [Store.askCache]
  split
  next => exact .done _
  next hsome =>
    rw [Bool.not_eq_true, Option.isNone_eq_false_iff] at hsome
    refine (ask (hcache hsome)).bind fun outcome => ?_
    cases outcome <;> exact .done _

theorem searchBackends {found? : call.Answer → Option α}
    (hbackend : ∀ i ∈ indices, asks s (.backend i call) fun _ => s) :
    Stays asks s (searchBackends call found? indices) := by
  induction indices with
  | nil => exact .done _
  | cons i rest ih =>
      rw [List.forall_mem_cons] at hbackend
      refine (ask hbackend.1).bind fun outcome => ?_
      cases outcome with
      | error e => exact .done _
      | ok answer =>
          simp only
          split
          · exact .done _
          · exact ih hbackend.2

theorem search {found? : call.Answer → Option α} {admissible : α → Option Entry}
    (hopen : asks s .isOpen fun _ => s)
    (hcache : l.cache.isSome = true → asks s (.cache call) fun _ => s)
    (hbackend : ∀ i ∈ l.indices, asks s (.backend i call) fun _ => s)
    (hoffer : l.cache.isSome = true → ∀ a e, admissible a = some e →
      asks s (.offer e.1 e.2) fun _ => s) :
    Stays asks s (search l call found? admissible) := by
  refine (askCache hcache).bind (fun answer => ?_) |>.opened hopen
  split
  · exact .done _
  · refine (searchBackends hbackend).bind fun result => ?_
    split
    next a =>
      dsimp only
      split
      next e he =>
        have hthrough : Stays asks s (readThrough l e) := by
          simp only [readThrough]
          split
          next hsome => exact (ask (hoffer hsome a e he)).bind fun _ => .done _
          next => exact .done _
        exact hthrough.bind fun _ => .done _
      next => exact .done _
    next => exact .done _

theorem searchYes {answer : call.Answer → Bool} (hopen : asks s .isOpen fun _ => s)
    (hcache : l.cache.isSome = true → asks s (.cache call) fun _ => s)
    (hbackend : ∀ i ∈ l.indices, asks s (.backend i call) fun _ => s) :
    Stays asks s (searchYes l call answer) := by
  have hsearch : Stays asks s
      (Store.search l call (fun a => whenTrue (answer a)) fun _ => none) :=
    search hopen hcache hbackend fun _ _ _ he => by cases he
  refine hsearch.bind fun result => ?_
  cases result <;> exact .done _

theorem collectBackends {add : α → call.Answer → α}
    (hbackend : ∀ i ∈ indices, asks s (.backend i call) fun _ => s) (a : α) :
    Stays asks s (collectBackends call add a indices) := by
  induction indices generalizing a with
  | nil => exact .done _
  | cons i rest ih =>
      rw [List.forall_mem_cons] at hbackend
      refine (ask hbackend.1).bind fun outcome => ?_
      cases outcome with
      | error e => exact .done _
      | ok answer => exact ih hbackend.2 _

theorem collect {add : α → call.Answer → α} {a : α} (hopen : asks s .isOpen fun _ => s)
    (hcache : l.cache.isSome = true → asks s (.cache call) fun _ => s)
    (hbackend : ∀ i ∈ l.indices, asks s (.backend i call) fun _ => s) :
    Stays asks s (collect l call add a) :=
  .opened hopen ((askCache hcache).bind fun _ => collectBackends hbackend _)

theorem sendAll {accepted : call.Answer → Bool}
    (hbackend : ∀ i ∈ indices, asks s (.backend i call) fun _ => s) (t : Tally) :
    Stays asks s (sendAll call accepted t indices) := by
  induction indices generalizing t with
  | nil => exact .done _
  | cons i rest ih =>
      rw [List.forall_mem_cons] at hbackend
      exact (ask hbackend.1).bind fun _ => ih hbackend.2 _

theorem fanOut {accepted : call.Answer → Bool}
    (hbackend : ∀ i ∈ l.indices, asks s (.backend i call) fun _ => s) :
    Stays asks s (fanOut l call accepted) :=
  (sendAll hbackend _).bind fun _ => .done _

theorem write {accepted : call.Answer → Bool} (hopen : asks s .isOpen fun _ => s)
    (hcache : l.cache.isSome = true → asks s (.cache call) fun _ => s)
    (hbackend : ∀ i ∈ l.indices, asks s (.backend i call) fun _ => s) :
    Stays asks s (write l call accepted) := by
  have htell : Stays asks s (tellCache l call) := by
    simp only [tellCache]
    split
    next hsome => exact (ask (hcache hsome)).bind fun _ => .done _
    next => exact .done _
  exact .opened hopen (htell.bind fun _ => fanOut hbackend)

theorem initBackends {numbered : List (Nat × String)}
    (hbackend : ∀ b ∈ numbered, asks s (.backend b.1 .init) fun _ => s) :
    Stays asks s (initBackends numbered) := by
  induction numbered with
  | nil => exact .done _
  | cons b rest ih =>
      rw [List.forall_mem_cons] at hbackend
      refine (ask hbackend.1).bind fun outcome => ?_
      cases outcome with
      | error e => exact .done _
      | ok a => exact ih hbackend.2

theorem init (hopen : asks s .isOpen fun _ => s)
    (hcache : l.cache.isSome = true → asks s (.cache .init) fun _ => s)
    (hbackend : ∀ i ∈ l.indices, asks s (.backend i .init) fun _ => s) :
    Stays asks s (Store.init l) := by
  have hbackends : Stays asks s (Store.initBackends l.numbered) :=
    initBackends fun b hb => hbackend b.1 (List.of_mem_zip hb).1
  refine .opened hopen ?_
  split
  next => exact hbackends
  next name hname =>
    refine (ask (hcache (by rw [hname]; rfl))).bind fun outcome => ?_
    cases outcome with
    | error e => exact .done _
    | ok a => exact hbackends

theorem shutdownBackends (hbackend : ∀ i, asks s (.backend i .shutdown) fun _ => s)
    (failure : Option Error) (numbered : List (Nat × String)) :
    Stays asks s (shutdownBackends failure numbered) := by
  induction numbered generalizing failure with
  | nil => exact .done _
  | cons b rest ih => exact (ask (hbackend b.1)).bind fun _ => ih _

/-- All operations but the shutdown ask only components that are there. -/
theorem operation {step : StoreStep} (hstep : step ≠ .shutdown) (hopen : asks s .isOpen fun _ => s)
    (hcache : ∀ call, step.call? = some call → l.cache.isSome = true →
      asks s (.cache call) fun _ => s)
    (hbackend : ∀ call, step.call? = some call → ∀ i ∈ l.indices,
      asks s (.backend i call) fun _ => s)
    (hoffer : step.isSearch = true → l.cache.isSome = true → ∀ key record,
      asks s (.offer key record) fun _ => s)
    (hnotify : ∀ notice, step.tells? = some notice → asks s (.notify notice) fun _ => s) :
    Stays asks s (step.operation l) := by
  have hresult : ∀ {α : Type} {p : Prog α} {value : α → Bench.Value}, Stays asks s p →
      Stays asks s (p.bind fun a => .done (value a)) := fun h => h.bind fun _ => .done _
  cases step with
  | isClosed => exact hresult (.ask hopen)
  | init => exact hresult (.init hopen (hcache _ rfl) (hbackend _ rfl))
  | shutdown => exact absurd rfl hstep
  | load | find | first | latest | next | previous =>
      exact hresult (.search hopen (hcache _ rfl) (hbackend _ rfl) fun hsome _ _ _ =>
        hoffer rfl hsome _ _)
  | has | mayHave => exact hresult (.searchYes hopen (hcache _ rfl) (hbackend _ rfl))
  | count => exact hresult (.collect hopen (hcache _ rfl) (hbackend _ rfl))
  | keysStartingWith | loadAllKeys =>
      exact hresult ((Stays.collect hopen (hcache _ rfl) (hbackend _ rfl)).bind fun _ => .done _)
  | keysMissingFrom =>
      exact hresult (.opened hopen ((searchBackends (hbackend _ rfl)).bind fun _ => .done _))
  | save | saveBatch => exact hresult (.write hopen (hcache _ rfl) (hbackend _ rfl))
  | update record key reason =>
      refine hresult ((Stays.write hopen (hcache _ rfl) (hbackend _ rfl)).bind fun r => ?_)
      cases r with
      | error e => exact .done _
      | ok accepted => exact (ask (hnotify _ rfl)).bind fun _ => .done _
  | delete | deleteBatch =>
      exact hresult ((Stays.write hopen (hcache _ rfl) (hbackend _ rfl)).bind fun _ => .done _)
  | clearTable | clearMetadata =>
      exact hresult ((Stays.opened hopen (fanOut (hbackend _ rfl))).bind fun _ => .done _)
  | publish message args =>
      exact hresult (.opened hopen ((ask (hnotify _ rfl)).bind fun _ => .done _))

end Stays

end

/-! ## All operations -/

/-- What an operation asks, before the store was closed by it or after. -/
inductive Asks (step : StoreStep) : Bool → (q : Request) → (Reply q → Bool) → Prop where
  | isOpen {b : Bool} : Asks step b .isOpen fun _ => b
  | close {b : Bool} : Asks step b .close fun _ => true
  | cache {b : Bool} {call : Call} (hcall : step.call? = some call)
      (hclosed : call = .shutdown → b = true) : Asks step b (.cache call) fun _ => b
  | backend {b : Bool} {i : Nat} {call : Call} (hcall : step.call? = some call) :
      Asks step b (.backend i call) fun _ => b
  | offer {b : Bool} {key : Key} {record : Record} (hsearch : step.isSearch = true) :
      Asks step b (.offer key record) fun _ => b
  | notify {b : Bool} {notice : Notice} : Asks step b (.notify notice) fun _ => b

theorem obeys_shutdown (l : Layout) :
    (Store.shutdown l).Obeys (Asks .shutdown) (fun _ _ => True) false := by
  -- the backends and the listeners, after the cache
  have hrest : ∀ (failure : Option Error) (result : Option Error → Prog (Result Unit)),
      (∀ failure, Stays (Asks .shutdown) true (result failure)) →
      Stays (Asks .shutdown) true ((Store.shutdownBackends failure l.numbered).bind fun failure =>
        (Store.ask (.notify .shutdown)).bind fun _ => result failure) := by
    intro failure result hresult
    refine (Stays.shutdownBackends (fun i => .backend rfl) _ _).bind fun failure => ?_
    exact (Stays.ask .notify).bind fun _ => hresult failure
  have hends : ∀ {p : Prog (Result Unit)}, Stays (Asks .shutdown) true p →
      p.Obeys (Asks .shutdown) (fun _ _ => True) true := fun h => h.imp fun _ _ _ => trivial
  refine ⟨fun _ => true, .close, fun wasOpen => ?_⟩
  cases wasOpen with
  | false => trivial
  | true =>
      simp only [Program.bind, if_true]
      refine hends ?_
      split
      · refine hrest none _ fun failure => ?_
        cases failure <;> exact .done _
      · refine (Stays.ask (.cache rfl fun _ => rfl)).bind fun outcome => hrest _ _ fun failure => ?_
        cases failure <;> exact .done _

/-- Every operation asks what it may ask. -/
theorem obeys_operation (l : Layout) (step : StoreStep) :
    (step.operation l).Obeys (Asks step) (fun _ _ => True) false := by
  by_cases hstep : step = .shutdown
  · rw [hstep]
    exact obeys_map (obeys_shutdown l) fun _ _ _ => trivial
  · have hcall : ∀ call, step.call? = some call → call ≠ .shutdown := by
      rintro call hcall rfl
      cases step <;> first | exact hstep rfl | cases hcall
    have hstays : Stays (Asks step) false (step.operation l) :=
      .operation hstep .isOpen (fun call h _ => .cache h fun h' => absurd h' (hcall call h))
        (fun _ h _ _ => .backend h) (fun h _ _ _ => .offer h) fun _ _ => .notify
    exact hstays.imp fun _ _ _ => trivial

/-! ## Searches -/

/-- How far a search is, over a cache and one backend. -/
inductive Search where
  | opening
  /-- The cache is to be asked. -/
  | probing
  /-- The cache had nothing. -/
  | missed
  /-- The backend has found an entry, which is to be offered. -/
  | found (e : Entry)
  | ended (e? : Option Entry)
  /-- The store was closed. -/
  | refused
  /-- The backend failed. -/
  | failed

namespace Search

def ofProbe (call : Call) (outcome : call.Outcome) : Search :=
  match call.found? outcome with
  | some e => ended (some e)
  | none => missed

def ofRead (call : Call) : call.Outcome → Search
  | .error _ => failed
  | .ok answer =>
      match call.entry? answer with
      | some e => found e
      | none => ended none

inductive Asks (call : Call) : Search → (q : Request) → (Reply q → Search) → Prop where
  | enter : Asks call opening .isOpen fun isOpen => if isOpen then probing else refused
  | probe : Asks call probing (.cache call) (ofProbe call)
  | read (i : Nat) : Asks call missed (.backend i call) (ofRead call)
  | offer (e : Entry) : Asks call (found e) (.offer e.1 e.2) fun _ => ended (some e)

/-- What a search gives back, where a result is told from the entry that was found. -/
inductive Ends {α : Type} (admissible : α → Option Entry) : Search → Result (Option α) → Prop where
  | ended (a? : Option α) : Ends admissible (ended (a?.bind admissible)) (.ok a?)
  | refused : Ends admissible refused (.error .closed)
  | failed (e : Error) : Ends admissible failed (.error e)

end Search

/-- A cache before one backend. -/
def Layout.single (cacheName backendName : String) (listeners : Listener) : Layout where
  cache := some cacheName
  backends := [backendName]
  listeners

variable {cacheName backendName : String} {listeners : Listener}

/-- The answer that is taken from the cache is the one that the phase is told from. -/
theorem obeys_askCache {call : Call} (hblank : call.entry? call.blank = none) :
    (askCache (.single cacheName backendName listeners) call).Obeys (Search.Asks call)
      (fun st answer => st = Search.ofProbe call (.ok answer)) .probing := by
  refine ⟨_, .probe, fun outcome => ?_⟩
  cases outcome with
  | ok answer => exact rfl
  | error e =>
      show Search.ofProbe call (.error e) = Search.ofProbe call (.ok call.blank)
      simp only [Search.ofProbe, Call.found?, hblank]

theorem obeys_search {α : Type} (call : Call) (found? : call.Answer → Option α)
    (admissible : α → Option Entry)
    (hentry : ∀ answer, (found? answer).bind admissible = call.entry? answer)
    (hsome : ∀ a, (admissible a).isSome = true) (hblank : found? call.blank = none) :
    (search (.single cacheName backendName listeners) call found? admissible).Obeys
      (Search.Asks call) (Search.Ends admissible) .opening := by
  have hblank : call.entry? call.blank = none := by rw [← hentry, hblank, Option.bind_none]
  refine ⟨_, .enter, fun isOpen => ?_⟩
  cases isOpen with
  | false => exact .refused
  | true =>
      simp only [Program.bind, if_true]
      refine Program.Obeys.bind (obeys_askCache hblank) fun st answer hst => ?_
      subst hst
      have hfound := hentry answer
      cases hf : found? answer with
      | some a =>
          rw [hf, Option.bind_some] at hfound
          obtain ⟨e, he⟩ := Option.isSome_iff_exists.1 (hsome a)
          simp only [Search.ofProbe, Call.found?, ← hfound, he]
          rw [← he]
          exact .ended (some a)
      | none =>
          rw [hf, Option.bind_none] at hfound
          simp only [Search.ofProbe, Call.found?, ← hfound]
          refine ⟨_, .read 0, fun outcome => ?_⟩
          cases outcome with
          | error e => exact .failed _
          | ok answer =>
              have hfound := hentry answer
              cases hf : found? answer with
              | none =>
                  rw [hf, Option.bind_none] at hfound
                  simp only [Search.ofRead, ← hfound, Program.bind, hf]
                  exact .ended none
              | some a =>
                  obtain ⟨e, he⟩ := Option.isSome_iff_exists.1 (hsome a)
                  rw [hf, Option.bind_some, he] at hfound
                  simp only [Search.ofRead, ← hfound, Program.bind, bind_pure, hf, he]
                  refine ⟨_, .offer e, fun admitted => ?_⟩
                  rw [← he]
                  exact .ended (some a)

/-- What a load gives back. -/
inductive Search.Tells : Search → Bench.Value → Prop where
  | ended (e? : Option Entry) : Tells (ended e?) (.record (e?.map (·.2)))
  | refused : Tells refused (.storeError .closed)
  | failed (e : Error) : Tells failed (.storeError e)

theorem obeys_load (kind : Kind) (key : Key) :
    ((StoreStep.load kind key).operation (.single cacheName backendName listeners)).Obeys
      (Search.Asks (.get kind key)) Search.Tells .opening := by
  refine obeys_map (obeys_search (.get kind key) id (fun r => some (key, r))
    (fun answer => by cases answer <;> rfl) (fun _ => rfl) rfl) fun st result hends => ?_
  cases hends with
  | ended a? => cases a? <;> exact .ended _
  | refused => exact .refused
  | failed e => exact .failed e

theorem obeys_isSearch (cacheName backendName : String) (listeners : Listener) {step : StoreStep}
    (hstep : step.isSearch = true) :
    ∃ call, call ≠ .shutdown ∧ step.call? = some call ∧
      (step.operation (.single cacheName backendName listeners)).Obeys (Search.Asks call)
        (fun st value => ∀ kind key, step = .load kind key → st.Tells value) .opening := by
  cases step with
  | load kind key => exact ⟨.get kind key, by simp, rfl, (obeys_load kind key).imp
    fun _ _ h _ _ _ => h⟩
  | find kind raw =>
      exact ⟨.seek kind raw, by simp, rfl, obeys_map (obeys_search (.seek kind raw) id
        (fun r => some (.ofRaw kind raw, r)) (fun answer => by cases answer <;> rfl) (fun _ => rfl)
        rfl) (by simp)⟩
  | first kind =>
      exact ⟨.first kind, by simp, rfl, obeys_map (obeys_search (.first kind) id some
        (fun answer => by cases answer <;> rfl) (fun _ => rfl) rfl) (by simp)⟩
  | latest kind =>
      exact ⟨.latest kind, by simp, rfl, obeys_map (obeys_search (.latest kind) id some
        (fun answer => by cases answer <;> rfl) (fun _ => rfl) rfl) (by simp)⟩
  | next kind key =>
      exact ⟨.next kind key, by simp, rfl, obeys_map (obeys_search (.next kind key) id some
        (fun answer => by cases answer <;> rfl) (fun _ => rfl) rfl) (by simp)⟩
  | previous kind key =>
      exact ⟨.previous kind key, by simp, rfl, obeys_map (obeys_search (.previous kind key) id some
        (fun answer => by cases answer <;> rfl) (fun _ => rfl) rfl) (by simp)⟩
  | _ => cases hstep

/-! ## Writes -/

/-- How far a write is, over a cache and one backend. -/
inductive Write where
  | opening
  /-- The cache is to be told. -/
  | telling
  /-- The cache was told, and the backend is to be. -/
  | storing
  | stored
  /-- The store was closed. -/
  | refused
  deriving DecidableEq

namespace Write

inductive Asks (call : Call) : Write → (q : Request) → (Reply q → Write) → Prop where
  | enter : Asks call opening .isOpen fun isOpen => if isOpen then telling else refused
  | tell : Asks call telling (.cache call) fun _ => storing
  | store (i : Nat) : Asks call storing (.backend i call) fun _ => stored
  | notify (notice : Notice) : Asks call stored (.notify notice) fun _ => stored

inductive Ends : Write → Result Bool → Prop where
  | stored (r : Result Bool) : Ends stored r
  | refused : Ends refused (.error .closed)

def isOver : Write → Bool
  | stored | refused => true
  | _ => false

end Write

theorem obeys_write (call : Call) (accepted : call.Answer → Bool) :
    (write (.single cacheName backendName listeners) call accepted).Obeys (Write.Asks call)
      Write.Ends .opening := by
  refine ⟨_, .enter, fun isOpen => ?_⟩
  cases isOpen with
  | false => exact .refused
  | true => exact ⟨_, .tell, fun _ => ⟨_, .store 0, fun _ => .stored _⟩⟩

theorem obeys_leaves (cacheName backendName : String) (listeners : Listener) {step : StoreStep}
    {left : EntryId × Option Record} (hstep : step.leaves? = some left) :
    ∃ call, step.call? = some call ∧
      (step.operation (.single cacheName backendName listeners)).Obeys (Write.Asks call)
        (fun st _ => st.isOver = true) .opening := by
  have hover : ∀ {st : Write} {r : Result Bool}, Write.Ends st r → st.isOver = true := by
    intro st r hends
    cases hends <;> rfl
  cases step with
  | save record key =>
      exact ⟨_, rfl, obeys_map (obeys_write (.save record key) id) fun _ _ => hover⟩
  | delete kind key =>
      have hdelete : (Store.delete (.single cacheName backendName listeners) kind key).Obeys
          (Write.Asks (.delete kind key)) (fun st _ => st.isOver = true) .opening :=
        obeys_map (obeys_write _ _) fun _ _ => hover
      exact ⟨_, rfl, obeys_map hdelete fun _ _ h => h⟩
  | update record key reason =>
      have hupdate : (Store.update (.single cacheName backendName listeners) record key
          reason).Obeys (Write.Asks (.update record key reason)) (fun st _ => st.isOver = true)
          .opening := by
        refine (obeys_write (.update record key reason) id).bind fun st r hends => ?_
        cases r with
        | error e => exact hover hends
        | ok accepted =>
            cases hends
            exact ⟨_, .notify _, fun _ => rfl⟩
      exact ⟨_, rfl, obeys_map hupdate fun _ _ h => h⟩
  | _ => cases hstep

end Store

end RecordStore
