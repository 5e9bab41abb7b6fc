import RecordStore.Proofs.Store.OnBench
import RecordStore.Proofs.Store.Searches

/-!
# Looking up by raw bytes

A store looks a record up under a key (`Store.load`), or under the key that a table uses for given
bytes (`Store.find`).  The two are written apart, in the store and in each component, and each
builds the key where it needs it.  In an environment whose components give the same for either call
they are the same (`Store.run_find`).

The components of a calm bench do (`Component.perform_seek`).  A component may stand behind the
store more than once, as its cache and as several of its backends, so the world as a whole is
followed here (`Setup.advance_operation`).  Only the log tells which of the two was asked
(`Setup.find_eq_load`).
-/

namespace RecordStore

namespace Store

section

variable {σ : Type} {reply : (q : Request) → σ → Reply q × σ} {kind : Kind} {raw : Bytes}
  (hcache : ∀ s, reply (.cache (.seek kind raw)) s = reply (.cache (.get kind (.ofRaw kind raw))) s)
  (hbackend : ∀ i s,
    reply (.backend i (.seek kind raw)) s = reply (.backend i (.get kind (.ofRaw kind raw))) s)

include hcache in
theorem run_askCache_seek (l : Layout) (s : σ) :
    (askCache l (.seek kind raw)).run reply s
      = (askCache l (.get kind (.ofRaw kind raw))).run reply s := by
  rw [askCache, askCache]
  split
  next => rfl
  next =>
    simp only [Bind.bind, ask, Program.bind, Program.run, hcache]
    cases (reply (.cache (.get kind (.ofRaw kind raw))) s).1 <;> rfl

include hbackend in
theorem run_searchBackends_seek (indices : List Nat) (s : σ) :
    (searchBackends (.seek kind raw) id indices).run reply s
      = (searchBackends (.get kind (.ofRaw kind raw)) id indices).run reply s := by
  induction indices generalizing s with
  | nil => rfl
  | cons i rest ih =>
      simp only [searchBackends, Bind.bind, ask, Program.bind, Program.run, hbackend]
      cases (reply (.backend i (.get kind (.ofRaw kind raw))) s).1 with
      | error e => rfl
      | ok found =>
          cases found with
          | some record => rfl
          | none => exact ih _

theorem run_opened_congr {α : Type} {p p' : Prog (Result α)}
    (h : ∀ s, p.run reply s = p'.run reply s) (s : σ) :
    (opened p).run reply s = (opened p').run reply s := by
  cases hopen : (reply .isOpen s).1 with
  | true => rw [run_opened reply hopen, run_opened reply hopen, h]
  | false =>
      show Program.run reply (if (reply .isOpen s).1 = true then p else _) _
        = Program.run reply (if (reply .isOpen s).1 = true then p' else _) _
      rw [hopen]
      rfl

include hcache hbackend in
/-- Where no component tells the two calls apart, the two operations are the same. -/
theorem run_find (l : Layout) (s : σ) :
    (find l kind raw).run reply s = (load l kind (.ofRaw kind raw)).run reply s := by
  rw [find, load, search_eq, search_eq]
  refine run_opened_congr (fun s => ?_) s
  rw [Program.run_bind, Program.run_bind, run_askCache_seek hcache]
  cases ((askCache l (.get kind (.ofRaw kind raw))).run reply s).1 with
  | some record => rfl
  | none =>
      show ((searchBackends (.seek kind raw) id l.indices).bind _).run reply _
        = ((searchBackends (.get kind (.ofRaw kind raw)) id l.indices).bind _).run reply _
      rw [Program.run_bind, Program.run_bind, run_searchBackends_seek hbackend]

end

end Store

namespace Bench

/-- No component tells a key from the bytes that it is made of. -/
theorem Component.perform_seek (c : Component) (kind : Kind) (raw : Bytes) :
    c.perform (.seek kind raw) = c.perform (.get kind (.ofRaw kind raw)) := by
  cases c <;> rfl

namespace World

theorem figures_write (w : World) (lines : List String) : (w.write lines).figures = w.figures := rfl

theorem write_write (w : World) (lines more : List String) :
    (w.write lines).write more = w.write (lines ++ more) := by
  simp only [write, List.reverse_append, List.append_assoc]

/-- Calls a component, with no probe before it. -/
def carryOut (w : World) (n : Nat) (call : Call) : call.Outcome × World :=
  (((w.node n).component.perform call).1,
    w.setComponent n ((w.node n).component.perform call).2)

theorem carryOut_seek {n : Nat} {kind : Kind} {raw : Bytes} (w : World) :
    w.carryOut n (.seek kind raw) = w.carryOut n (.get kind (.ofRaw kind raw)) := by
  simp only [carryOut, Component.perform_seek]

/-- Offers a record to a component, with no probe before it.  What is no cache takes nothing. -/
def takeIn (w : World) (n : Nat) (key : Key) (record : Record) : Bool × World :=
  match (w.node n).component with
  | .cache r backend =>
      ((r.offer key record).1, w.setComponent n (.cache (r.offer key record).2 backend))
  | _ => (false, w)

theorem takeIn_write (w : World) (n : Nat) (key : Key) (record : Record) (lines : List String) :
    (w.write lines).takeIn n key record
      = ((w.takeIn n key record).1, (w.takeIn n key record).2.write lines) := by
  have hnode : (w.write lines).node n = w.node n := rfl
  rw [takeIn, takeIn, hnode]
  cases (w.node n).component <;> rfl

end World

namespace Setup

/-- Whether the components of the store are there.  One may be there in several places. -/
structure Stocked (g : Setup) : Prop where
  backend : ∀ n ∈ g.store.backends, ∃ part, g.part? n = some part
  cache : ∀ n, g.store.cache = some n → ∃ backend config, g.part? n = some (.cache backend config)

/-- What happens at a request of the store where probes let everything pass, but for the log. -/
def respond (g : Setup) : (q : Store.Request) → World → Store.Reply q × World
  | .isOpen, w => (w.storeIsOpen, w)
  | .close, w => (w.storeIsOpen, { w with storeIsOpen := false })
  | .cache call, w => w.carryOut (g.store.cache.getD 0) call
  | .offer key record, w => w.takeIn (g.store.cache.getD 0) key record
  | .backend i call, w => w.carryOut (g.store.backends.getD i 0) call
  | .notify _, w => ((), w)

variable {g : Setup} {w : World} {kind : Kind} {raw : Bytes}

/-! ## The log -/

theorem respond_write (g : Setup) (q : Store.Request) (w : World) (lines : List String) :
    g.respond q (w.write lines) = ((g.respond q w).1, (g.respond q w).2.write lines) := by
  cases q with
  | offer key record => exact w.takeIn_write _ key record lines
  | _ => rfl

/-- What was written before does not change what a program does. -/
theorem run_write {α : Type} (p : Store.Prog α) (w : World) (lines : List String) :
    p.run g.respond (w.write lines)
      = ((p.run g.respond w).1, (p.run g.respond w).2.write lines) := by
  induction p generalizing w with
  | done a => rfl
  | ask q next ih => rw [Program.run, Program.run, respond_write, ih]

/-! ## Requests of the store -/

theorem advance_request (hstocked : g.Stocked) (hcalm : g.Calm w) {q : Store.Request}
    {next : Store.Reply q → Unit} (hq : g.Finds () q next) (caller : Nat) :
    ∃ lines, (g.storeStep q).advance World.environment caller w
        = (.done (g.respond q w).1, (g.respond q w).2.write lines) ∧ g.Calm (g.respond q w).2 := by
  cases hq with
  | isOpen => exact ⟨[], rfl, hcalm⟩
  | notify => exact ⟨_, rfl, hcalm⟩
  | cache hcache hcall =>
      obtain ⟨n, hn⟩ := Option.isSome_iff_exists.1 hcache
      obtain ⟨b, config, hpart⟩ := hstocked.cache n hn
      obtain ⟨lines, hadvance, -⟩ := hcalm.advance_probed hpart (fun _ => hcall) caller
      simp only [storeStep, respond, hn, Option.getD_some]
      exact ⟨lines, hadvance, hcalm.setComponent hpart ((hcalm.stands n _ hpart).perform _)⟩
  | @offer key record hcache =>
      obtain ⟨n, hn⟩ := Option.isSome_iff_exists.1 hcache
      obtain ⟨b, config, hpart⟩ := hstocked.cache n hn
      obtain ⟨r, hc⟩ := (hcalm.stands n _ hpart).eq_cache
      simp only [storeStep, respond, hn, Option.getD_some, World.takeIn, hc]
      exact ⟨_, World.advance_offered (hcalm.quiet n) hc _ key record,
        hcalm.setComponent hpart (c := .cache _ b) rfl⟩
  | @backend i call hi hcall =>
      obtain ⟨n, hn⟩ : ∃ n, g.store.backends[i]? = some n := ⟨_, List.getElem?_eq_getElem hi⟩
      obtain ⟨part, hpart⟩ := hstocked.backend n (List.mem_of_getElem? hn)
      obtain ⟨lines, hadvance, -⟩ := hcalm.advance_probed hpart (fun _ => hcall) caller
      have hnumber : g.store.backends.getD i 0 = n := by
        rw [List.getD_eq_getElem?_getD, hn]
        rfl
      simp only [storeStep, respond, hnumber]
      exact ⟨lines, hadvance, hcalm.setComponent hpart ((hcalm.stands n _ hpart).perform call)⟩

theorem advance_program (hstocked : g.Stocked) (hcalm : g.Calm w) {α : Type} {p : Store.Prog α}
    (hp : Store.Stays g.Finds () p) (caller : Nat) :
    ∃ lines, (g.onStore p).advance World.environment caller w
      = (.done (p.run g.respond w).1, (p.run g.respond w).2.write lines) := by
  induction p generalizing w with
  | done a => exact ⟨[], rfl⟩
  | ask q next ih =>
      obtain ⟨state, hq, hnext⟩ := hp
      obtain ⟨lines, hadvance, hcalm'⟩ := advance_request hstocked hcalm hq caller
      obtain ⟨more, hrest⟩ := ih _ (hcalm'.write lines) (hnext _)
      rw [run_write, World.write_write] at hrest
      exact ⟨_, (Program.advance_bind _ hadvance).trans hrest⟩

/-- An operation of a store with quiet probes runs to its end at once. -/
theorem advance_operation (hstocked : g.Stocked) (hcalm : g.Calm w) {step : StoreStep}
    (hstep : step ≠ .shutdown) (caller : Nat) :
    ∃ lines, (g.onStore (step.operation g.layout)).advance World.environment caller w
      = (.done ((step.operation g.layout).run g.respond w).1,
        ((step.operation g.layout).run g.respond w).2.write lines) :=
  advance_program hstocked hcalm (g.stays_operation hstep) caller

/-! ## The two lookups -/

/-- The two operations, on the components themselves. -/
theorem run_find_operation (g : Setup) (kind : Kind) (raw : Bytes) (w : World) :
    ((StoreStep.find kind raw).operation g.layout).run g.respond w
      = ((StoreStep.load kind (.ofRaw kind raw)).operation g.layout).run g.respond w := by
  have hrun : (Store.find g.layout kind raw).run g.respond w
      = (Store.load g.layout kind (.ofRaw kind raw)).run g.respond w :=
    Store.run_find (fun w => w.carryOut_seek) (fun _ w => w.carryOut_seek) g.layout w
  have hfind : ((StoreStep.find kind raw).operation g.layout).run g.respond w = _ :=
    Program.run_bind g.respond (Store.find g.layout kind raw) _ w
  have hload : ((StoreStep.load kind (.ofRaw kind raw)).operation g.layout).run g.respond w = _ :=
    Program.run_bind g.respond (Store.load g.layout kind (.ofRaw kind raw)) _ w
  rw [hfind, hload, hrun]

/-- Looking up by raw bytes, and under the key that the table uses for them, ends with the same
value and leaves the same world, but for what was written into the log.  This holds for every state
of the components and of the store, which may have a component in several places. -/
theorem find_eq_load (hstocked : g.Stocked) (hcalm : g.Calm w) (kind : Kind) (raw : Bytes)
    (caller : Nat) :
    ∃ (value : Value) (w' : World) (found loaded : List String),
      (g.onStore ((StoreStep.find kind raw).operation g.layout)).advance World.environment caller w
        = (.done value, w'.write found) ∧
      (g.onStore ((StoreStep.load kind (.ofRaw kind raw)).operation g.layout)).advance
          World.environment caller w
        = (.done value, w'.write loaded) := by
  have hfinds : StoreStep.find kind raw ≠ .shutdown := StoreStep.noConfusion
  have hloads : StoreStep.load kind (.ofRaw kind raw) ≠ .shutdown := StoreStep.noConfusion
  obtain ⟨found, hfind⟩ := advance_operation hstocked hcalm hfinds caller
  obtain ⟨loaded, hload⟩ := advance_operation hstocked hcalm hloads caller
  rw [run_find_operation] at hfind
  exact ⟨_, _, found, loaded, hfind, hload⟩

/-- A cache before tables in memory, and a store that has the cache as its first backend too. -/
def twofold : Setup where
  parts := [(.memory "tables", {}), (.cache 0 { byteBudget := 0 }, {})]
  store := { cache := some 1, backends := [1, 0] }

/-- A bench whose tables have a milestone that its cache has not seen. -/
def unseen : World :=
  twofold.world.setComponent 0
    (.memory (({ name := "tables" } : Memory).put (.index 258, .ofBytes .milestone [7])))

/-- The cache is asked twice, then the milestone is found in the tables and admitted, either way. -/
theorem find_eq_load_twofold :
    twofold.Stocked ∧ twofold.Calm unseen ∧ ∃ (w' : World) (found loaded : List String),
      (twofold.onStore ((StoreStep.find .milestone [0, 0, 1, 2]).operation
          twofold.layout)).advance World.environment 9 unseen
        = (.done (.record (some (.ofBytes .milestone [7]))), w'.write found) ∧
      (twofold.onStore ((StoreStep.load .milestone (.index 258)).operation
          twofold.layout)).advance World.environment 9 unseen
        = (.done (.record (some (.ofBytes .milestone [7]))), w'.write loaded) ∧
      w'.figures = [[1, 1, 0, 0], [1, 0, 2, 1, 0, 0, 0]] := by
  have hstocked : twofold.Stocked := by
    constructor
    · intro n hn
      rcases List.mem_pair.1 hn with rfl | rfl <;> exact ⟨_, rfl⟩
    · rintro n ⟨⟩
      exact ⟨0, _, rfl⟩
  have hworld : twofold.Calm twofold.world := by
    refine calm_world fun p hp => ?_
    rcases List.mem_pair.1 hp with rfl | rfl <;> exact ⟨rfl, rfl, rfl, rfl⟩
  have hpart : twofold.part? 0 = some (.memory "tables") := rfl
  have hcalm : twofold.Calm unseen := hworld.setComponent hpart (c := .memory _) rfl
  obtain ⟨value, w', found, loaded, hfind, hload⟩ :=
    find_eq_load hstocked hcalm .milestone [0, 0, 1, 2] 9
  have hstep : StoreStep.load .milestone (.index 258) ≠ .shutdown := StoreStep.noConfusion
  obtain ⟨lines, hrun⟩ := advance_operation hstocked hcalm hstep 9
  obtain ⟨hdone, hleft⟩ := Prod.mk.inj (hload.symm.trans hrun)
  obtain rfl : value = .record (some (.ofBytes .milestone [7])) :=
    (Program.done.inj hdone).trans (by decide +kernel)
  have hfigures := congrArg World.figures hleft
  rw [World.figures_write, World.figures_write] at hfigures
  exact ⟨hstocked, hcalm, w', found, loaded, hfind, hload, hfigures.trans (by decide +kernel)⟩

end Setup

end Bench

end RecordStore
