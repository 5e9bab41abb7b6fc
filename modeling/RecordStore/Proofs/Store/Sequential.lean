import RecordStore.Proofs.Store.Operations

/-!
# Stores with one client

A sequential store has all its components to itself (`SequentialStore`).  Its one client has the
operations of the store carried out one after the other, so every request is answered at once.

What an operation does is told by what it ensures (`SequentialStore.Ensures`), and put together from
what its parts ensure.  Every operation ensures that a sound store stays so
(`SequentialStore.sound_operate`).

A sequential store is not shut down.  For its components that would take more than one step.
-/

namespace RecordStore

namespace Bench.Component

/-- What a component gives back for a call, and the component after it. -/
def perform (call : Call) : Component → call.Outcome × Component
  | memory m => (.ok (m.perform call).1, memory (m.perform call).2)
  | null => (.ok call.discard, null)
  | cache r backend => ((r.serve call).1, cache (r.serve call).2 backend)

/-- The entries of a kind that a component holds. -/
def entries (kind : Kind) : Component → List Entry
  | memory m => (m.table kind).entries
  | null => []
  | cache r _ => (r.cache.contents.slots.ofKind kind).map Cache.Slot.entry

/-- Every record is in the table of its kind. -/
def Tabled : Component → Prop
  | memory m => m.records.Tabled
  | null | cache _ _ => True

variable {c : Component} {kind : Kind} {e : Entry}

theorem kind_of_mem (h : c.Tabled) (he : e ∈ c.entries kind) : e.2.kind = kind := by
  cases c with
  | memory m => exact (Memory.records_of_mem h he).1
  | null => cases he
  | cache r backend =>
      obtain ⟨slot, hslot, rfl⟩ := List.mem_map.1 he
      exact beq_iff_eq.1 (List.mem_filter.1 hslot).2

theorem tabled_perform (h : c.Tabled) (call : Call) : (c.perform call).2.Tabled := by
  cases c with
  | memory m =>
      show (m.perform call).2.records.Tabled
      rw [Memory.records_perform]
      exact Records.Tabled.apply h call
  | null | cache => trivial

end Bench.Component

namespace Store

open Bench (Component StoreStep Value)

/-- A store with all its components. -/
structure SequentialStore where
  /-- The cache, if the store has one. -/
  cache : Option Cache.Running
  backends : List Component
  isOpen : Bool := true
  /-- What the listeners were told, the latest last. -/
  told : List Notice := []

namespace SequentialStore

def layout (s : SequentialStore) : Layout where
  cache := s.cache.map fun _ => Component.cacheName
  backends := s.backends.map Component.name
  listeners := .group []

/-- What happens at a request of the client.  A component that is not there holds nothing and
takes nothing. -/
def reply : (q : Request) → SequentialStore → Reply q × SequentialStore
  | .isOpen, s => (s.isOpen, s)
  | .close, s => (s.isOpen, { s with isOpen := false })
  | .cache call, s =>
      match s.cache with
      | some r => ((r.serve call).1, { s with cache := some (r.serve call).2 })
      | none => (.ok call.blank, s)
  | .offer key record, s =>
      match s.cache with
      | some r => ((r.offer key record).1, { s with cache := some (r.offer key record).2 })
      | none => (false, s)
  | .backend index call, s =>
      match s.backends[index]? with
      | some c =>
          ((c.perform call).1, { s with backends := s.backends.set index (c.perform call).2 })
      | none => (.ok call.blank, s)
  | .notify n, s => ((), { s with told := s.told ++ [n] })

/-- What an operation gives back, and the store after it. -/
def operate (s : SequentialStore) (step : StoreStep) : Value × SequentialStore :=
    (step.operation s.layout).run reply s

/-! ## Soundness -/

/-- What is so in every store: the cache is sound, and the backends have every record in the table
of its kind. -/
structure Sound (s : SequentialStore) : Prop where
  cache : ∀ r, s.cache = some r → ∃ config, r.cache.Sound config
  tabled : ∀ c ∈ s.backends, c.Tabled

variable {s : SequentialStore}

/-- A store that opens, with an empty cache. -/
theorem sound_ofConfig (config : Cache.Config) {backends : List Component}
    (h : ∀ c ∈ backends, c.Tabled) : Sound { cache := some (.ofConfig config), backends } where
  cache := by
    rintro r ⟨⟩
    exact ⟨config, Cache.sound_ofConfig config⟩
  tabled := h

theorem sound_reply (h : s.Sound) (q : Request) : (reply q s).2.Sound := by
  cases q with
  | isOpen | close | notify => exact ⟨h.cache, h.tabled⟩
  | cache call =>
      simp only [reply]
      split
      next r hr =>
        obtain ⟨config, hsound⟩ := h.cache r hr
        refine ⟨?_, h.tabled⟩
        rintro r' ⟨⟩
        exact ⟨config, Cache.Running.serve_sound hsound call⟩
      next => exact h
  | offer key record =>
      simp only [reply]
      split
      next r hr =>
        obtain ⟨config, hsound⟩ := h.cache r hr
        refine ⟨?_, h.tabled⟩
        rintro r' ⟨⟩
        exact ⟨config, Cache.Running.offer_sound hsound key record⟩
      next => exact h
  | backend index call =>
      simp only [reply]
      split
      next c hc =>
        refine ⟨h.cache, fun c' hc' => ?_⟩
        rcases List.mem_or_eq_of_mem_set hc' with hold | rfl
        · exact h.tabled c' hold
        · exact Component.tabled_perform (h.tabled c (List.mem_of_getElem? hc)) call
      next => exact h

theorem sound_run {α : Type} (h : s.Sound) (p : Prog α) : (p.run reply s).2.Sound := by
  induction p generalizing s with
  | done a => exact h
  | ask q next ih => exact ih _ (sound_reply h q)

theorem sound_operate (h : s.Sound) (step : StoreStep) : (s.operate step).2.Sound := sound_run h _

/-! ## What programs ensure -/

/-- From stores of a kind a program leads to a result and a store that fit each other. -/
def Ensures {α : Type} (before : SequentialStore → Prop) (p : Prog α)
    (after : α → SequentialStore → Prop) : Prop :=
  ∀ s, before s → after (p.run reply s).1 (p.run reply s).2

namespace Ensures

variable {α β : Type} {before : SequentialStore → Prop} {p : Prog α}
    {after : α → SequentialStore → Prop}

theorem done {a : α} (h : ∀ s, before s → after a s) : Ensures before (.done a) after := h

theorem ask {q : Request} {after : Reply q → SequentialStore → Prop}
    (h : ∀ s, before s → after (reply q s).1 (reply q s).2) :
    Ensures before (Store.ask q) after := h

theorem bind {f : α → Prog β} {after' : β → SequentialStore → Prop} (h : Ensures before p after)
    (hf : ∀ a, Ensures (after a) (f a) after') : Ensures before (p.bind f) after' := by
  intro s hs
  rw [Program.run_bind]
  exact hf _ _ (h s hs)

/-- What does not depend on the store is known from the start. -/
theorem given {fact : Prop} (h : fact → Ensures before p after) :
    Ensures (fun s => fact ∧ before s) p after :=
  fun s hs => h hs.1 s hs.2

theorem imp {after' : α → SequentialStore → Prop} (h : Ensures before p after)
    (himp : ∀ a s, after a s → after' a s) : Ensures before p after' :=
  fun s hs => himp _ _ (h s hs)

/-- What every request keeps that a program may ask is kept by the program. -/
theorem of_stays {asks : Unit → (q : Request) → (Reply q → Unit) → Prop} (h : Stays asks () p)
    (hasks : ∀ q next s, asks () q next → before s → before (reply q s).2) :
    Ensures before p fun _ s => before s := by
  intro s hs
  induction p generalizing s with
  | done a => exact hs
  | ask q next ih =>
      obtain ⟨state, hq, hnext⟩ := h
      exact ih _ (hnext _) _ (hasks q state s hq hs)

/-- An operation of an open store. -/
theorem opened {p : Prog (Result α)} {after : Result α → SequentialStore → Prop}
    (hopen : ∀ s, before s → s.isOpen = true) (h : Ensures before p after) :
    Ensures before (Store.opened p) after := by
  have hask : Ensures before (Store.ask .isOpen) fun isOpen s => isOpen = true ∧ before s :=
    ask fun s hs => ⟨hopen s hs, hs⟩
  refine hask.bind fun isOpen => ?_
  rintro s ⟨rfl, hs⟩
  exact h s hs

/-! ### Programs that ask the cache -/

section

variable {l : Layout} {call : Call} {e : Entry} {told : call.Answer → Prop}
    {after : SequentialStore → Prop}
  (hlayout : ∀ s, before s → l.cache.isSome = s.cache.isSome)

include hlayout

theorem cache_eq_none {s : SequentialStore} (hs : before s) (hnone : l.cache = none) :
    s.cache = none := by
  have hsome := hlayout s hs
  rwa [hnone, Option.isSome_none, eq_comm, Option.isSome_eq_false_iff,
    Option.isNone_iff_eq_none] at hsome

theorem askCache (hblank : ∀ s, before s → s.cache = none → told call.blank)
    (hcache : ∀ s r, before s → s.cache = some r → ∃ answer, (r.serve call).1 = .ok answer ∧
      told answer ∧ before { s with cache := some (r.serve call).2 }) :
    Ensures before (Store.askCache l call) fun answer s => told answer ∧ before s := by
  rw [Store.askCache]
  split
  next hnone =>
    rw [Option.isNone_iff_eq_none] at hnone
    exact .done fun s hs => ⟨hblank s hs (cache_eq_none hlayout hs hnone), hs⟩
  next =>
    have hask : Ensures before (Store.ask (.cache call)) fun outcome s =>
        ∃ answer, outcome = .ok answer ∧ told answer ∧ before s := by
      intro s hs
      cases hr : s.cache with
      | none =>
          simp only [Store.ask, Program.run, reply, hr]
          exact ⟨_, rfl, hblank s hs hr, hs⟩
      | some r =>
          simp only [Store.ask, Program.run, reply, hr]
          exact hcache s r hs hr
    refine hask.bind fun outcome => ?_
    rintro s ⟨answer, rfl, htold, hs⟩
    exact ⟨htold, hs⟩

/-- A request that is made if there is a cache. -/
theorem ifCached {q : Request} (hnone : ∀ s, before s → s.cache = none → after s)
    (hask : ∀ s r, before s → s.cache = some r → after (reply q s).2) :
    Ensures before (if l.cache.isSome then (Store.ask q).bind fun _ => .done () else .done ())
      fun _ s => after s := by
  split
  next hsome =>
    have hasked : Ensures before (Store.ask q) fun _ s => after s := by
      intro s hs
      rw [hlayout s hs] at hsome
      obtain ⟨r, hr⟩ := Option.isSome_iff_exists.1 hsome
      exact hask s r hs hr
    exact hasked.bind fun _ => .done fun _ => id
  next hsome =>
    rw [Option.not_isSome_iff_eq_none] at hsome
    exact .done fun s hs => hnone s hs (cache_eq_none hlayout hs hsome)

theorem tellCache (hnone : ∀ s, before s → s.cache = none → after s)
    (hcache : ∀ s r, before s → s.cache = some r →
      after { s with cache := some (r.serve call).2 }) :
    Ensures before (Store.tellCache l call) fun _ s => after s := by
  refine ifCached hlayout hnone fun s r hs hr => ?_
  simp only [reply, hr]
  exact hcache s r hs hr

theorem readThrough (hnone : ∀ s, before s → s.cache = none → after s)
    (hcache : ∀ s r, before s → s.cache = some r →
      after { s with cache := some (r.offer e.1 e.2).2 }) :
    Ensures before (Store.readThrough l e) fun _ s => after s := by
  refine ifCached hlayout hnone fun s r hs hr => ?_
  simp only [reply, hr]
  exact hcache s r hs hr

end

end Ensures

end SequentialStore

end Store

end RecordStore
