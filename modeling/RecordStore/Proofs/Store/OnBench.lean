import RecordStore.Bench.Run
import RecordStore.Proofs.Bench.Quiet
import RecordStore.Proofs.Store.Coherence

/-!
# Sequential stores on a bench

The store of a calm bench does what a sequential store does with the same components.

* Every request of the store gets its reply at once, and it is that of the sequential store
  (`Setup.advance_storeStep`).  So an operation that a bench at rest starts has the value of the
  sequential store before anybody else goes on, and leaves the components as that store has them
  (`Setup.start_operation`).
* A program of the cache that writes to the first backend goes on, ends and waits where it does in
  the sequential store (`Setup.advance_onCache`).

What is true of sequential stores is true of benches by that.  The components of the store have to
be there, and to be different from each other (`Setup.Fits`).
-/

namespace RecordStore

namespace Bench

open Store (SequentialStore)

/-- The running cache that a component is, if it is one. -/
def Component.running? : Component → Option Cache.Running
  | cache r _ => some r
  | memory _ | null => none

namespace Setup

/-- The store of a setup in a world, with its components.  The world does not remember what the
listeners were told. -/
def sequential (g : Setup) (w : World) (told : List Notice) : SequentialStore where
  cache := g.store.cache.bind fun n => (w.node n).component.running?
  backends := g.store.backends.map fun n => (w.node n).component
  isOpen := w.storeIsOpen
  told

/-- Whether the components of the store are there, and different from each other. -/
structure Fits (g : Setup) : Prop where
  nodup : g.store.backends.Nodup
  backend : ∀ n ∈ g.store.backends, ∃ part, g.part? n = some part
  cache : ∀ n, g.store.cache = some n →
    n ∉ g.store.backends ∧ ∃ backend config, g.part? n = some (.cache backend config)

variable {g : Setup} {w : World} {n : Nat} {told : List Notice}

/-! ## Components of the store -/

theorem exists_cache (hfits : g.Fits) (hcalm : g.Calm w) (hn : g.store.cache = some n)
    (told : List Notice) :
    ∃ backend config r, g.part? n = some (.cache backend config) ∧
      (w.node n).component = .cache r backend ∧ (g.sequential w told).cache = some r := by
  obtain ⟨-, backend, config, hpart⟩ := hfits.cache n hn
  obtain ⟨r, hc⟩ := (hcalm.stands n _ hpart).eq_cache
  refine ⟨backend, config, r, hpart, hc, ?_⟩
  rw [sequential, hn, Option.bind_some, hc]
  rfl

theorem sequential_setComponent_cache (hfits : g.Fits) (hcalm : g.Calm w)
    (hcache : g.store.cache = some n) (r : Cache.Running) (b : Nat) :
    g.sequential (w.setComponent n (.cache r b)) told =
      { g.sequential w told with cache := some r } := by
  obtain ⟨hother, backend, config, hpart⟩ := hfits.cache n hcache
  have hn := hcalm.lt_length hpart
  have hbackends :
      (g.store.backends.map fun m => ((w.setComponent n (.cache r b)).node m).component)
        = g.store.backends.map fun m => (w.node m).component := by
    refine List.map_congr_left fun m hm => ?_
    have hne : m ≠ n := by
      rintro rfl
      exact hother hm
    rw [World.node_setComponent hn, if_neg hne]
  rw [sequential, hbackends, hcache, Option.bind_some, World.node_setComponent hn, if_pos rfl]
  rfl

theorem sequential_setComponent_backend (hfits : g.Fits) (hcalm : g.Calm w) {i : Nat}
    (hi : g.store.backends[i]? = some n) (c : Component) :
    g.sequential (w.setComponent n c) told
      = { g.sequential w told with backends := (g.sequential w told).backends.set i c } := by
  have hmem : n ∈ g.store.backends := List.mem_of_getElem? hi
  obtain ⟨part, hpart⟩ := hfits.backend n hmem
  have hn := hcalm.lt_length hpart
  have hcache : (g.store.cache.bind fun m => ((w.setComponent n c).node m).component.running?)
      = g.store.cache.bind fun m => (w.node m).component.running? := by
    cases hm : g.store.cache with
    | none => rfl
    | some m =>
        have hne : m ≠ n := by
          rintro rfl
          exact (hfits.cache m hm).1 hmem
        rw [Option.bind_some, Option.bind_some, World.node_setComponent hn, if_neg hne]
  have hbackends : (g.store.backends.map fun m => ((w.setComponent n c).node m).component)
      = (g.store.backends.map fun m => (w.node m).component).set i c := by
    obtain ⟨hlt, rfl⟩ := List.getElem?_eq_some_iff.1 hi
    refine List.ext_getElem (by simp only [List.length_set, List.length_map]) fun j hj hj' => ?_
    rw [List.length_map] at hj
    rw [List.getElem_map, World.node_setComponent hn, List.getElem_set, List.getElem_map]
    by_cases hij : i = j
    · subst hij
      rw [if_pos rfl, if_pos rfl]
    · rw [if_neg hij, if_neg fun heq => hij (hfits.nodup.getElem_inj_iff.1 heq).symm]
  rw [sequential, hcache, hbackends]
  rfl

/-- A bench and its sequential store have components of the same names. -/
theorem layout_sequential (hfits : g.Fits) (hcalm : g.Calm w) (told : List Notice) :
    (g.sequential w told).layout.cache = g.layout.cache ∧
      (g.sequential w told).layout.backends = g.layout.backends := by
  have hname : ∀ {n part}, g.part? n = some part → g.nameOf n = (w.node n).component.name := by
    intro n part hpart
    obtain ⟨p, hp, rfl⟩ := Option.map_eq_some_iff.1 hpart
    rw [nameOf, hp]
    exact (hcalm.stands n _ hpart).name_eq
  constructor
  · cases hn : g.store.cache with
    | none => rw [SequentialStore.layout, sequential, layout, hn]; rfl
    | some n =>
        obtain ⟨backend, config, r, hpart, hc, hr⟩ := exists_cache hfits hcalm hn told
        rw [SequentialStore.layout, layout, hr, hn, Option.map_some, Option.map_some,
          hname hpart, hc]
        rfl
  · rw [SequentialStore.layout, layout, sequential, List.map_map]
    refine List.map_congr_left fun n hn => ?_
    obtain ⟨part, hpart⟩ := hfits.backend n hn
    exact (hname hpart).symm

/-! ## Requests of the store -/

/-- What an operation asks that does not shut down: only components that are there. -/
inductive Finds (g : Setup) : Unit → (q : Store.Request) → (Store.Reply q → Unit) → Prop where
  | isOpen : g.Finds () .isOpen fun _ => ()
  | cache {call : Call} (hcache : g.store.cache.isSome = true) (hcall : call ≠ .shutdown) :
      g.Finds () (.cache call) fun _ => ()
  | offer {key : Key} {record : Record} (hcache : g.store.cache.isSome = true) :
      g.Finds () (.offer key record) fun _ => ()
  | backend {i : Nat} {call : Call} (hi : i < g.store.backends.length)
      (hcall : call ≠ .shutdown) : g.Finds () (.backend i call) fun _ => ()
  | notify {notice : Notice} : g.Finds () (.notify notice) fun _ => ()

/-- A request of the store gets the reply of the sequential store at once. -/
theorem advance_storeStep (hfits : g.Fits) (hcalm : g.Calm w) {q : Store.Request}
    {next : Store.Reply q → Unit} (hq : g.Finds () q next) (caller : Nat) (told : List Notice) :
    ∃ w', (g.storeStep q).advance World.environment caller w
        = (.done (SequentialStore.reply q (g.sequential w told)).1, w') ∧
      g.Calm w' ∧ g.sequential w' (SequentialStore.reply q (g.sequential w told)).2.told
        = (SequentialStore.reply q (g.sequential w told)).2 := by
  cases hq with
  | isOpen => exact ⟨w, rfl, hcalm, rfl⟩
  | notify => exact ⟨w.write _, rfl, hcalm.write _, rfl⟩
  | cache hcache hcall =>
      obtain ⟨n, hn⟩ := Option.isSome_iff_exists.1 hcache
      obtain ⟨b, config, r, hpart, hc, hr⟩ := exists_cache hfits hcalm hn told
      obtain ⟨lines, hadvance, hcalm'⟩ := hcalm.advance_probed hpart (fun _ => hcall) caller
      rw [hc] at hadvance hcalm'
      simp only [storeStep, hn, Option.getD_some, SequentialStore.reply, hr]
      exact ⟨_, hadvance, hcalm', sequential_setComponent_cache hfits (hcalm.write lines) hn _ b⟩
  | @offer key record hcache =>
      obtain ⟨n, hn⟩ := Option.isSome_iff_exists.1 hcache
      obtain ⟨b, config, r, hpart, hc, hr⟩ := exists_cache hfits hcalm hn told
      have hwritten := hcalm.write [toString n ++ ".add " ++ (record.idAt key).text]
      simp only [storeStep, hn, Option.getD_some, SequentialStore.reply, hr]
      exact ⟨_, World.advance_offered (hcalm.quiet n) hc _ key record,
        hwritten.setComponent hpart (c := .cache _ b) rfl,
        sequential_setComponent_cache hfits hwritten hn _ b⟩
  | @backend i call hi hcall =>
      obtain ⟨n, hn⟩ : ∃ n, g.store.backends[i]? = some n := ⟨_, List.getElem?_eq_getElem hi⟩
      obtain ⟨part, hpart⟩ := hfits.backend n (List.mem_of_getElem? hn)
      obtain ⟨lines, hadvance, hcalm'⟩ := hcalm.advance_probed hpart (fun _ => hcall) caller
      have hc : (g.sequential w told).backends[i]? = some (w.node n).component := by
        rw [sequential, List.getElem?_map, hn]
        rfl
      have hnumber : g.store.backends.getD i 0 = n := by
        rw [List.getD_eq_getElem?_getD, hn]
        rfl
      simp only [storeStep, hnumber, SequentialStore.reply, hc]
      exact ⟨_, hadvance, hcalm', sequential_setComponent_backend hfits (hcalm.write lines) hn _⟩

theorem advance_onStore (hfits : g.Fits) (hcalm : g.Calm w) {α : Type} {p : Store.Prog α}
    (hp : Store.Stays g.Finds () p) (caller : Nat) (told : List Notice) :
    ∃ w', (g.onStore p).advance World.environment caller w
        = (.done (p.run SequentialStore.reply (g.sequential w told)).1, w') ∧
      g.Calm w' ∧ g.sequential w' (p.run SequentialStore.reply (g.sequential w told)).2.told
        = (p.run SequentialStore.reply (g.sequential w told)).2 := by
  induction p generalizing w told with
  | done a => exact ⟨w, rfl, hcalm, rfl⟩
  | ask q next ih =>
      obtain ⟨state, hq, hnext⟩ := hp
      obtain ⟨w', hadvance, hcalm', hsequential⟩ := advance_storeStep hfits hcalm hq caller told
      obtain ⟨w'', hrest, hafter⟩ :=
        ih _ hcalm' (hnext _) (SequentialStore.reply q (g.sequential w told)).2.told
      rw [hsequential] at hrest hafter
      exact ⟨w'', (Program.advance_bind _ hadvance).trans hrest, hafter⟩

/-! ## Operations -/

/-- Operations do not depend on who listens. -/
theorem operation_congr {l l' : Store.Layout} (hcache : l.cache = l'.cache)
    (hbackends : l.backends = l'.backends) (step : StoreStep) :
    step.operation l = step.operation l' := by
  obtain ⟨cache, backends, listeners⟩ := l
  obtain ⟨cache', backends', listeners'⟩ := l'
  cases hcache
  cases hbackends
  cases step <;> rfl

theorem stays_operation (g : Setup) {step : StoreStep} (hstep : step ≠ .shutdown) :
    Store.Stays g.Finds () (step.operation g.layout) := by
  have hcall : ∀ call, step.call? = some call → call ≠ .shutdown := by
    rintro call hcall rfl
    cases step <;> first | exact hstep rfl | cases hcall
  have hsome : g.layout.cache.isSome = true → g.store.cache.isSome = true := by
    rw [layout, Option.isSome_map]
    exact id
  have hindex : ∀ i ∈ g.layout.indices, i < g.store.backends.length := by
    intro i hi
    rwa [Store.Layout.indices, List.mem_range, layout, List.length_map] at hi
  exact .operation hstep .isOpen (fun call h hcache => .cache (hsome hcache) (hcall call h))
    (fun call h i hi => .backend (hindex i hi) (hcall call h))
    (fun _ hcache _ _ => .offer (hsome hcache)) fun _ _ => .notify

/-- An operation that a bench at rest starts has the value of the sequential store before
anybody else goes on, and leaves what that store leaves. -/
theorem start_operation (hfits : g.Fits) {s : Processes} (hcalm : g.Calm s.state)
    (hrest : s.line = []) {step : StoreStep} (hstep : step ≠ .shutdown) (number : Nat)
    (told : List Notice) :
    ∃ s' : Processes, (start g number (.store step) s).RunsInto World.environment s' ∧
      s'.results = s.results ++ [(number, ((g.sequential s.state told).operate step).1)] ∧
      g.Calm s'.state ∧ g.sequential s'.state ((g.sequential s.state told).operate step).2.told
        = ((g.sequential s.state told).operate step).2 := by
  obtain ⟨w', hadvance, hafter⟩ :=
    advance_onStore hfits hcalm (g.stays_operation hstep) number told
  obtain ⟨hcache, hbackends⟩ := layout_sequential hfits hcalm told
  have hline : (start g number (.store step) s).line
      = [.once number (g.onStore (step.operation g.layout))] := by
    show s.line ++ _ = _
    rw [hrest, List.nil_append]
  obtain ⟨line, parked, hinto⟩ :=
    Schedule.runsInto_of_advance hline (Program.advance_bind _ hadvance)
  rw [SequentialStore.operate, operation_congr hcache hbackends]
  exact ⟨_, hinto, rfl, hafter⟩

/-- A cache before tables in memory, and a store over both. -/
def single (name : String) (config : Cache.Config) : Setup where
  parts := [(.memory name, {}), (.cache 0 config, {})]
  store := { cache := some 1, backends := [0] }

theorem fits_single (name : String) (config : Cache.Config) : (single name config).Fits where
  nodup := List.nodup_singleton 0
  backend := by
    intro n hn
    rw [List.mem_singleton.1 hn]
    exact ⟨_, rfl⟩
  cache := by
    rintro n ⟨⟩
    exact ⟨fun h => absurd (List.mem_singleton.1 h) (by decide), 0, config, rfl⟩

theorem calm_single (name : String) (config : Cache.Config) :
    (single name config).Calm (single name config).world := by
  refine calm_world fun p hp => ?_
  rcases List.mem_pair.1 hp with rfl | rfl <;> exact ⟨rfl, rfl, rfl, rfl⟩

/-! ## Programs of the cache -/

section

variable {b : Nat} {config : Cache.Config} (hfits : g.Fits) (hcache : g.store.cache = some n)
  (hhead : g.store.backends.head? = some b)
  (hplain : ∀ part, g.part? b = some part → part.isCache = false)

include hfits hcache hhead hplain

/-- A request of a program of the cache gets the reply of the sequential store, or none. -/
theorem advance_cacheStep (hcalm : g.Calm w) (caller : Nat) (told : List Notice)
    (q : Cache.Request) :
    ∃ w', (cacheStep n (g.probed b) q).advance World.environment caller w
        = (((g.sequential w told).cacheReply? caller w.now q).1.elim (cacheStep n (g.probed b) q)
          .done, w') ∧
      g.Calm w' ∧ w'.now = w.now ∧
        g.sequential w' told = ((g.sequential w told).cacheReply? caller w.now q).2 := by
  obtain ⟨b', config, r, hpart, hc, hr⟩ := exists_cache hfits hcalm hcache told
  by_cases hq : ∃ call, q = .backend call
  · obtain ⟨call, rfl⟩ := hq
    obtain ⟨rest, hrest⟩ := List.head?_eq_some_iff.1 hhead
    have hb : g.store.backends[0]? = some b := by rw [hrest]; rfl
    obtain ⟨part, hbpart⟩ := hfits.backend b (List.mem_of_getElem? hb)
    have hcall : part.isCache = true → call ≠ .shutdown := by
      rw [hplain part hbpart]
      exact Bool.noConfusion
    obtain ⟨lines, hadvance, hcalm'⟩ := hcalm.advance_probed hbpart hcall caller
    have hbackends : (g.sequential w told).backends
        = (w.node b).component :: rest.map fun m => (w.node m).component := by
      rw [sequential, hrest, List.map_cons]
    have hsequential : g.sequential _ told = _ :=
      sequential_setComponent_backend hfits (hcalm.write lines) hb
        ((w.node b).component.perform call).2
    rw [SequentialStore.cacheReply?_backend hr hbackends]
    refine ⟨_, hadvance, hcalm', rfl, hsequential.trans ?_⟩
    show ({ g.sequential w told with backends := (g.sequential w told).backends.set 0 _ } :
      SequentialStore) = _
    rw [hbackends]
    rfl
  · have hne : ∀ call, q ≠ .backend call := not_exists.1 hq
    have hstep : cacheStep n (g.probed b) q = ask (.cache n q) := by
      cases q <;> first | rfl | exact absurd rfl (hne _)
    have hreply := World.reply_cache hc caller q
    obtain ⟨tickers, htickers⟩ := World.keepTicker_eq
      (w.setComponent n (.cache (r.reply? caller w.now q).2 b')) n q (r.reply? caller w.now q).1
    rw [htickers] at hreply
    have hcalm' := hcalm.setComponent hpart (c := .cache (r.reply? caller w.now q).2 b') rfl
    rw [SequentialStore.cacheReply?_of_ne hr q hne, hstep]
    refine ⟨{ w.setComponent n (.cache (r.reply? caller w.now q).2 b') with tickers }, ?_,
      ⟨hcalm'.quiet, hcalm'.length, hcalm'.stands⟩, rfl,
      sequential_setComponent_cache hfits hcalm hcache _ b'⟩
    cases ha : (r.reply? caller w.now q).1 with
    | none =>
        rw [ha] at hreply
        exact Program.advance_of_waits hreply
    | some a =>
        rw [ha] at hreply
        exact Program.advance_ask hreply

/-- A program of the cache goes as far as in the sequential store, if the cache is before the first
backend. -/
theorem advance_onCache (hpart : g.part? n = some (.cache b config)) (hlt : b < n)
    (hcalm : g.Calm w) (p : Cache.Service.Prog Unit) (caller : Nat) (told : List Notice) :
    ∃ w', (onCache n (g.accesses.getD n .none).backend p).advance World.environment caller w
        = (onCache n (g.accesses.getD n .none).backend
          ((g.sequential w told).goOn caller w.now p).1, w') ∧
      g.Calm w' ∧ g.sequential w' told = ((g.sequential w told).goOn caller w.now p).2 := by
  have hbackend : (g.accesses.getD n .none).backend = g.probed b := by
    obtain ⟨earlier, hearlier, haccess⟩ := access_eq hpart
    rw [haccess]
    show Bench.probed b (earlier.getD b .none).handler = _
    rw [hearlier b hlt]
    rfl
  rw [hbackend]
  induction p generalizing w with
  | done a => exact ⟨w, rfl, hcalm, rfl⟩
  | ask q next ih =>
      obtain ⟨w', hadvance, hcalm', hnow, hsequential⟩ :=
        advance_cacheStep hfits hcache hhead hplain hcalm caller told q
      rw [SequentialStore.goOn]
      cases hreply : (g.sequential w told).cacheReply? caller w.now q with
      | mk a? s' =>
          rw [hreply] at hadvance hsequential
          cases a? with
          | some a =>
              obtain ⟨w'', hrest, hafter⟩ := ih a hcalm'
              rw [hnow, hsequential] at hrest hafter
              exact ⟨w'', (Program.advance_bind _ hadvance).trans hrest, hafter⟩
          | none =>
              have hwaits : ∀ a, cacheStep n (g.probed b) q ≠ .done a := by
                intro a ha
                cases q <;> cases ha
              exact ⟨w', Program.advance_bind_of_waits _ hadvance hwaits, hcalm', hsequential⟩

end

end Setup

end Bench

end RecordStore
