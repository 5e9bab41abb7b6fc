import RecordStore.Proofs.Cache.Keeping
import RecordStore.Proofs.Store.Views

/-!
# Caches before caches

In a *stack of caches* every cache has the next one for its backend, and the last one has a table in
memory.  Every cache has a worker and callers of its own, and each of them may go on at any time.
When a party waits for its backend, the cache that is the backend deals with the call at once, like
with any other call.

A cache as a backend admits a batch entry by entry, and says that it accepted the batch if it
admitted one entry at least.  So it takes entries from the cache before it that it does not keep,
and these are lost (`CacheStack.not_has_of_mixed_batch`).  That is the only way: where all caches
that follow take a record, it does not leave a cache before one of them has it, or the table in
memory (`CacheStack.has_of_leaves`).  Here no cache has two passes at once, and nobody calls a
component behind the back of the caches before it, except to leave alone what they have
(`CacheStack.spares`).
-/

namespace RecordStore

open Cache (WithCallers Party Errand)

/-- Whether a call leaves an address alone, or brings a record there. -/
def Call.respects (id : EntryId) (r : Record) : Call → Bool
  | save record key | update record key _ => record.idAt key != id || record == r
  | saveBatch entries => entries.all fun e => e.id != id || e.2 == r
  | call => !call.changes id

/-- A table in memory, with caches before it. -/
inductive CacheStack where
  | table (m : Memory)
  | layer (g : WithCallers.CallerSystem) (s : WithCallers) (below : CacheStack)

/-- What can happen at a component of a stack. -/
inductive CacheStack.Event where
  /-- A call that is answered at once. -/
  | tell (call : Call)
  | begin (errand : Errand)
  | go (party : Party) (now : Nat)
  | take (e : Worker.Event Cache.Task) (now : Nat)
  /-- The next component deals with the call that a party waits for. -/
  | serve (party : Party)

/-- Whether an event leaves an address alone, or brings a record there. -/
def CacheStack.Event.respects (id : EntryId) (r : Record) : Event → Bool
  | tell call => call.respects id r
  | _ => true

namespace CacheStack

def name : CacheStack → String
  | table m => m.name
  | layer _ _ _ => Bench.Component.cacheName

/-- Empty caches before a table in memory. -/
def start (m : Memory) : List Cache.Config → CacheStack
  | [] => table m
  | config :: configs =>
      let g : WithCallers.CallerSystem := ⟨config, fun _ => none, (start m configs).name⟩
      layer g g.start (start m configs)

/-- The first component answers a call.  The events of a call do to a cache what the call does
(`Cache.WithCallers.running_eventsOf`). -/
def perform : CacheStack → (call : Call) → call.Outcome × CacheStack
  | table m, call => (.ok (m.perform call).1, table (m.perform call).2)
  | layer g s below, call =>
      ((s.running.perform call).1, layer g (run g.step s (WithCallers.eventsOf call)) below)

/-- Something happens at the first component. -/
def act : CacheStack → Event → CacheStack
  | t, .tell call => (t.perform call).2
  | layer g s below, .begin errand => layer g (g.step s (.begin errand)) below
  | layer g s below, .go party now => layer g (g.step s (.go party now)) below
  | layer g s below, .take e now => layer g (g.step s (.take e now)) below
  | layer g s below, .serve party =>
      layer g (s.hear party fun call => (below.perform call).1)
        ((s.waitsFor? party).elim below fun call => (below.perform call).2)
  | table m, _ => table m

/-- Something happens at a component, which is found behind a number of others. -/
def step : CacheStack → Nat → Event → CacheStack
  | t, 0, event => t.act event
  | layer g s below, n + 1, event => layer g s (below.step n event)
  | table m, _ + 1, _ => table m

/-- An event happens at the component of a number. -/
def move (t : CacheStack) (event : Nat × Event) : CacheStack := t.step event.1 event.2

/-- What a cache has under an address. -/
def cachedAt : CacheStack → Nat → EntryId → Option Record
  | layer _ s _, 0, id => s.cached id
  | layer _ _ below, n + 1, id => below.cachedAt n id
  | table _, _, _ => none

/-- What is behind a cache. -/
def behind : CacheStack → Nat → CacheStack
  | layer _ _ below, 0 => below
  | layer _ _ below, n + 1 => below.behind n
  | table m, _ => table m

/-- Whether no cache is set up to refuse a record. -/
def takes (r : Record) : CacheStack → Bool
  | table _ => true
  | layer g _ below => g.config.takes r && below.takes r

/-- A cache has a record under an address, or the table in memory has it. -/
def Has (id : EntryId) (r : Record) : CacheStack → Prop
  | table m => m.records id = some r
  | layer _ s below => s.cached id = some r ∨ below.Has id r

instance instDecidableHas (id : EntryId) (r : Record) : (t : CacheStack) → Decidable (t.Has id r)
  | table m => inferInstanceAs (Decidable (m.records id = some r))
  | layer _ s below =>
      have := instDecidableHas id r below
      inferInstanceAs (Decidable (s.cached id = some r ∨ below.Has id r))

/-- No cache has two passes at once. -/
def Serial : CacheStack → Prop
  | table _ => True
  | layer _ s below => s.Serial ∧ below.Serial

instance instDecidableSerial : (t : CacheStack) → Decidable t.Serial
  | table _ => isTrue trivial
  | layer _ s below =>
      have := instDecidableSerial below
      inferInstanceAs (Decidable (s.Serial ∧ below.Serial))

/-- Whether a component is told nothing else than what the caches before it have. -/
def spares (id : EntryId) : CacheStack → Nat → Event → Bool
  | layer _ s below, n + 1, event =>
      ((s.cached id).all fun r => event.respects id r) && below.spares id n event
  | _, _, _ => true

/-! ## Calls that respect a record -/

variable {t below : CacheStack} {g : WithCallers.CallerSystem} {s : WithCallers}
    {id : EntryId} {r : Record}
  {call : Call} {entries : List Entry} {event : Event} {n : Nat}

theorem respects_of_not_changes (h : call.changes id = false) : call.respects id r = true := by
  cases call with
  | save record key | update record key _ =>
      have hne : (record.idAt key == id) = false := h
      simp [Call.respects, bne, hne]
  | saveBatch entries =>
      refine List.all_eq_true.2 fun e he => ?_
      have hne : (e.id == id) = false := by
        simpa using List.any_eq_false.1 h e he
      simp [bne, hne]
  | _ => exact congrArg Bool.not h

/-- A table in memory that has a record still has it after a call that respects it. -/
theorem apply_of_respects {table : Records} (h : call.respects id r = true)
    (hr : table id = some r) : table.apply call id = some r := by
  have hput : ∀ e : Entry, (e.id != id || e.2 == r) = true → table.put e id = some r := by
    intro e he
    simp only [Records.put]
    split
    next hid =>
      rw [hid, bne_self_eq_false, Bool.false_or, beq_iff_eq] at he
      rw [he]
    next => exact hr
  cases call with
  | save record key | update record key _ => exact hput (key, record) h
  | saveBatch entries =>
      have hcases : table.apply (.saveBatch entries) id = table id ∨ ∃ e ∈ entries, e.id = id ∧
          table.apply (.saveBatch entries) id = some e.2 := Records.saveBatch_cases entries table
      rcases hcases with hsame | ⟨e, he, rfl, hsome⟩
      · exact hsame.trans hr
      · have hrespects := List.all_eq_true.1 h e he
        rw [bne_self_eq_false, Bool.false_or, beq_iff_eq] at hrespects
        rw [hsome, hrespects]
  | _ => exact (Records.apply_of_not_changes (by simpa [Call.respects] using h)).trans hr

theorem removes_of_not_changes (h : call.changes id = false) : call.removes id = false := by
  cases call with
  | delete | deleteBatch | clear => exact h
  | _ => rfl

/-- A call that respects a record does so at every cache. -/
theorem along_of_respects (h : call.respects id r = true) (s : WithCallers) :
    Along g.step (WithCallers.Respects id r) s (WithCallers.eventsOf call) := by
  have hentry : ∀ e : Entry, (e.id != id || e.2 == r) = true → e.id = id → e.2 = r := by
    intro e he hid
    rw [hid, bne_self_eq_false, Bool.false_or] at he
    exact beq_iff_eq.1 he
  have hcall : ∀ call : Call, call.removes id = false → ∀ s,
      WithCallers.Respects id r s (.call call) := by
    intro call hremoves s
    refine ⟨rfl, ?_, fun key record heq => by cases heq⟩
    rw [WithCallers.Event.removes, hremoves, Bool.and_false]
  cases call with
  | save record key | update record key _ =>
      have hone : ∀ e ∈ ([(key, record)] : List Entry), Entry.id e = id → e.2 = r := by
        intro e he
        rw [List.mem_singleton.1 he]
        exact hentry (key, record) h
      exact WithCallers.along_of_entries hone s
  | saveBatch entries =>
      exact WithCallers.along_of_entries (fun e he => hentry e (List.all_eq_true.1 h e he)) s
  | deleteBatch ids =>
      refine along_of_forall (fun x hx s => ?_) s
      obtain ⟨i, hi, rfl⟩ := List.mem_map.1 hx
      have hnot : id ∉ ids := by simpa [Call.respects, Call.changes] using h
      have hremoves : (Call.delete i.kind i.key).removes id = false :=
        beq_eq_false_iff_ne.2 fun hid => hnot ((show i = id from hid) ▸ hi)
      exact hcall _ hremoves s
  | shutdown => trivial
  | _ => exact ⟨hcall _ (removes_of_not_changes (by simpa [Call.respects] using h)) s, trivial⟩

/-! ## What a stack keeps -/

/-- At every cache everybody has a stage. -/
def Stands : CacheStack → Prop
  | table _ => True
  | layer g s below => s.Stands g ∧ below.Stands

/-- A record is kept by the first component, or it was handed on and is kept by the next. -/
def Keeps (id : EntryId) (r : Record) : CacheStack → Prop
  | table m => m.records id = some r
  | layer g s below => s.KeepsOver g id r (below.takes r = true → below.Keeps id r)

/-- What is cached under an address is kept, by all components behind a cache together. -/
def Minds (id : EntryId) : CacheStack → Prop
  | table _ => True
  | layer g s below => (∀ r, s.cached id = some r → (layer g s below).Keeps id r) ∧ below.Minds id

theorem Keeps.has (h : t.Keeps id r) (htakes : t.takes r = true) : t.Has id r := by
  induction t with
  | table m => exact h
  | layer g s below ih =>
      obtain ⟨-, hbelow⟩ := Bool.and_eq_true_iff.1 htakes
      by_cases hcached : s.cached id = some r
      · exact Or.inl hcached
      · exact Or.inr (ih (h.of_not_cached hcached hbelow) hbelow)

theorem stands_start (m : Memory) (configs : List Cache.Config) : (start m configs).Stands := by
  induction configs with
  | nil => trivial
  | cons config configs ih => exact ⟨WithCallers.stands_start _, ih⟩

theorem minds_start (m : Memory) (configs : List Cache.Config) (id : EntryId) :
    (start m configs).Minds id := by
  induction configs with
  | nil => trivial
  | cons config configs ih => exact ⟨fun r hr => (by cases hr), ih⟩

/-! ## Calls on the first component -/

theorem takes_perform (t : CacheStack) (call : Call) (r : Record) :
    (t.perform call).2.takes r = t.takes r := by
  cases t <;> rfl

section

variable (hserial : t.Serial) (hstands : t.Stands)
include hserial hstands

theorem Stands.perform (call : Call) : (t.perform call).2.Stands := by
  cases t with
  | table m => trivial
  | layer g s below =>
      exact ⟨(WithCallers.Stands.run_told hserial.1 hstands.1
        fun _ => WithCallers.isCached_of_eventsOf).2, hstands.2⟩

theorem Minds.perform (h : t.Minds id) (call : Call) : (t.perform call).2.Minds id := by
  cases t with
  | table m => trivial
  | layer g s below =>
      exact ⟨WithCallers.keepsOver_run_told hserial.1 hstands.1
        (fun _ => WithCallers.isCached_of_eventsOf) h.1, h.2⟩

theorem Keeps.perform (h : t.Keeps id r) (hrespects : call.respects id r = true) :
    (t.perform call).2.Keeps id r := by
  cases t with
  | table m =>
      show (m.perform call).2.records id = some r
      rw [Memory.records_perform]
      exact apply_of_respects hrespects h
  | layer g s below =>
      exact WithCallers.KeepsOver.run_told hserial.1 hstands.1 h (along_of_respects hrespects s)

/-- A batch that is refused changes nothing. -/
theorem Keeps.refused (h : t.Keeps id r)
    (hrefused : (t.perform (.saveBatch entries)).1 = .ok false) :
    (t.perform (.saveBatch entries)).2.Keeps id r := by
  cases t with
  | table m => cases hrefused
  | layer g s below =>
      exact WithCallers.KeepsOver.run_told hserial.1 hstands.1 h
        (WithCallers.along_of_refused (Except.ok.inj hrefused))

/-- A batch that is accepted brings what all components take. -/
theorem keeps_of_accepted (haccepted : (t.perform (.saveBatch entries)).1 = .ok true)
    (htakes : t.takes r = true) (hnodup : (entries.map Entry.id).Nodup) {e : Entry}
    (he : e ∈ entries) (hrecord : e.2 = r) : (t.perform (.saveBatch entries)).2.Keeps e.id r := by
  cases t with
  | table m =>
      show (m.perform (.saveBatch entries)).2.records e.id = some r
      rw [Memory.records_perform, ← hrecord]
      exact Records.saveBatch_of_mem hnodup he
  | layer g s below =>
      have hopen : s.running.cache.closed = false := by
        refine Bool.eq_false_iff.2 fun hclosed => ?_
        have hnone := Cache.fst_offerAll_of_closed hclosed entries
        rw [Except.ok.inj haccepted] at hnone
        cases hnone
      refine WithCallers.Stands.keepsOver_of_batch hserial.1 hstands.1 hopen
        (Bool.and_eq_true_iff.1 htakes).1 ⟨e, he, rfl⟩ (fun x hx hid => ?_) _
      rw [← hrecord, List.inj_on_of_nodup_map hnodup hx he hid]

end

/-! ## What events keep -/

/-- Everybody has a stage, and what is cached under an address is kept. -/
structure Sane (t : CacheStack) (id : EntryId) : Prop where
  stands : t.Stands
  minds : t.Minds id

section

variable (hserial : (layer g s below).Serial) (hstands : (layer g s below).Stands)
include hserial hstands

/-- The next component deals with a call that a party waits for. -/
theorem keepsOver_serve {party : Party} (hcall : s.waitsFor? party = some call)
    (h : (layer g s below).Keeps id r) :
    (s.hear party fun call => (below.perform call).1).KeepsOver g id r
      ((below.perform call).2.takes r = true → (below.perform call).2.Keeps id r) := by
  obtain ⟨accepted, hk, hbelow⟩ := h
  rw [takes_perform]
  have hgo : ∀ verdict : Verdict, (below.perform call).1 = verdict.outcome call →
      (s.hear party fun call => (below.perform call).1).Keeps g (verdict.carryOut accepted call)
        id r :=
    fun verdict hreply => hk.goesOn (WithCallers.goesOn_hear hcall hreply accepted) hserial.1
  rcases hstands.1.call_cases hcall with ⟨entries, rfl, hnodup⟩ | ⟨ids, rfl⟩
  · cases houtcome : (below.perform (.saveBatch entries)).1 with
    | error e => cases below <;> cases houtcome
    | ok accepts =>
        cases accepts with
        | true =>
            refine ⟨_, hgo .done houtcome, fun haccepted htakes => ?_⟩
            have hstored : accepted.apply (.saveBatch entries) id = some r := haccepted
            by_cases hmem : ∃ e ∈ entries, e.id = id
            · obtain ⟨e, he, rfl⟩ := hmem
              rw [Records.saveBatch_of_mem hnodup he] at hstored
              exact keeps_of_accepted hserial.2 hstands.2 houtcome htakes hnodup he
                (Option.some.inj hstored)
            · have hnot : ∀ e ∈ entries, e.id ≠ id := fun e he hid => hmem ⟨e, he, hid⟩
              rw [Records.saveBatch_of_not_mem hnot] at hstored
              refine (hbelow hstored htakes).perform hserial.2 hstands.2 ?_
              refine respects_of_not_changes (List.any_eq_false.2 fun e he => ?_)
              simpa using hnot e he
        | false =>
            refine ⟨_, hgo .refused houtcome, fun haccepted htakes => ?_⟩
            exact (hbelow haccepted htakes).refused hserial.2 hstands.2 houtcome
  · have houtcome : (below.perform (.deleteBatch ids)).1 = .ok () := by cases below <;> rfl
    refine ⟨_, hgo .done houtcome, fun haccepted htakes => ?_⟩
    have hstored : accepted.apply (.deleteBatch ids) id = some r := haccepted
    rw [Records.deleteBatch_apply] at hstored
    split at hstored
    next => cases hstored
    next hid =>
      refine (hbelow hstored htakes).perform hserial.2 hstands.2 ?_
      simpa [Call.respects, Call.changes] using hid

end

/-- What an event does to a stack. -/
inductive Acts : CacheStack → Event → CacheStack → Prop
  | tell (t : CacheStack) (call : Call) : Acts t (.tell call) (t.perform call).2
  | rest (t : CacheStack) (event : Event) : Acts t event t
  /-- A program goes on without the next component. -/
  | goesOn {g : WithCallers.CallerSystem} {s s' : WithCallers} {event : Event} (below : CacheStack)
      (hgo : ∀ accepted, WithCallers.GoesOn g s s' accepted accepted) :
      Acts (layer g s below) event (layer g s' below)
  | serve {g : WithCallers.CallerSystem} {s : WithCallers} {party : Party} {call : Call}
      (below : CacheStack) (hcall : s.waitsFor? party = some call) :
      Acts (layer g s below) (.serve party)
        (layer g (s.hear party fun call => (below.perform call).1) (below.perform call).2)

theorem acts (t : CacheStack) (event : Event) : Acts t event (t.act event) := by
  cases event with
  | tell call => exact .tell t call
  | begin | go | take =>
      cases t with
      | table m => exact .rest _ _
      | layer g s below => exact .goesOn below (WithCallers.goesOn_step rfl (by simp))
  | serve party =>
      cases t with
      | table m => exact .rest _ _
      | layer g s below =>
          cases hcall : s.waitsFor? party with
          | none =>
              simp only [act, hcall, WithCallers.hear_of_none hcall, Option.elim_none]
              exact .rest _ _
          | some call =>
              simp only [act, hcall, Option.elim_some]
              exact .serve below hcall

theorem Keeps.goesOn {s' : WithCallers} (h : (layer g s below).Keeps id r)
    (hserial : (layer g s below).Serial)
    (hgo : ∀ accepted, WithCallers.GoesOn g s s' accepted accepted) :
    (layer g s' below).Keeps id r := by
  obtain ⟨accepted, hk, hbelow⟩ := h
  exact ⟨accepted, hk.goesOn (hgo accepted) hserial.1, hbelow⟩

namespace Acts

variable {t' : CacheStack} (h : Acts t event t')
include h

theorem takes_eq (r : Record) : t'.takes r = t.takes r := by
  cases h with
  | tell _ call => exact takes_perform t call r
  | rest | goesOn => rfl
  | serve below hcall => rw [takes, takes, takes_perform]

/-- What is kept stays kept by an event that respects it. -/
theorem keeps (hserial : t.Serial) (hstands : t.Stands) (hrespects : event.respects id r = true)
    (hk : t.Keeps id r) : t'.Keeps id r := by
  cases h with
  | tell _ call => exact hk.perform hserial hstands hrespects
  | rest => exact hk
  | goesOn below hgo => exact hk.goesOn hserial hgo
  | serve below hcall => exact keepsOver_serve hserial hstands hcall hk

theorem sane (hserial : t.Serial) (hs : t.Sane id) : t'.Sane id := by
  cases h with
  | tell _ call => exact ⟨hs.stands.perform hserial call, hs.minds.perform hserial hs.stands call⟩
  | rest => exact hs
  | goesOn below hgo =>
      refine ⟨⟨hs.stands.1.goesOn (hgo fun _ => none), hs.stands.2⟩, fun r hr => ?_, hs.minds.2⟩
      have hcached := hs.stands.1.cached_of_goesOn (hgo fun _ => none) hr
      exact Keeps.goesOn (hs.minds.1 r hcached) hserial hgo
  | @serve g s party call below hcall =>
      refine ⟨⟨hs.stands.1.hear hcall _, hs.stands.2.perform hserial.2 call⟩, fun r hr => ?_,
        hs.minds.2.perform hserial.2 hs.stands.2 call⟩
      rw [WithCallers.cached_hear] at hr
      exact keepsOver_serve hserial hs.stands hcall (hs.minds.1 r hr)

end Acts

theorem step_zero (t : CacheStack) (event : Event) : t.step 0 event = t.act event := by
  cases t <;> rfl

theorem takes_step (t : CacheStack) (n : Nat) (event : Event) (r : Record) :
    (t.step n event).takes r = t.takes r := by
  induction n generalizing t with
  | zero =>
      rw [step_zero]
      exact (acts t event).takes_eq r
  | succ n ih =>
      cases t with
      | table m => rfl
      | layer g s below => rw [step, takes, ih, takes]

/-- What is kept stays kept, whatever happens at a component that respects it. -/
theorem Keeps.step (h : t.Keeps id r) (hserial : t.Serial) (hstands : t.Stands)
    (hrespects : event.respects id r = true) (n : Nat) : (t.step n event).Keeps id r := by
  induction n generalizing t with
  | zero =>
      rw [step_zero]
      exact (acts t event).keeps hserial hstands hrespects h
  | succ n ih =>
      cases t with
      | table m => exact h
      | layer g s below =>
          refine WithCallers.KeepsOver.imp h fun hbelow htakes => ?_
          rw [takes_step] at htakes
          exact ih (hbelow htakes) hserial.2 hstands.2

/-- What is cached stays kept, if components are told nothing else behind the back of caches. -/
theorem Sane.step (h : t.Sane id) (hserial : t.Serial) {n : Nat}
    (hspares : t.spares id n event = true) : (t.step n event).Sane id := by
  induction n generalizing t with
  | zero =>
      rw [step_zero]
      exact (acts t event).sane hserial h
  | succ n ih =>
      cases t with
      | table m => exact h
      | layer g s below =>
          obtain ⟨hrespects, hspares⟩ := Bool.and_eq_true_iff.1 hspares
          have hbelow := ih ⟨h.stands.2, h.minds.2⟩ hserial.2 hspares
          refine ⟨⟨h.stands.1, hbelow.stands⟩, fun r hr => ?_, hbelow.minds⟩
          refine WithCallers.KeepsOver.imp (h.minds.1 r hr) fun hkeeps htakes => ?_
          rw [takes_step] at htakes
          rw [show s.cached id = some r from hr, Option.all_some] at hrespects
          exact (hkeeps htakes).step hserial.2 h.stands.2 hrespects n

theorem Sane.along_run {events : List (Nat × Event)} (h : t.Sane id)
    (halong : Along move (fun t event => t.Serial ∧ t.spares id event.1 event.2 = true) t events) :
    (run move t events).Sane id :=
  run_induction (Q := (Sane · id)) halong h fun _ _ h hdeed => h.step hdeed.1 hdeed.2

/-! ## Records that leave a cache -/

/-- A record that leaves a cache when a party goes on is behind the cache. -/
theorem Sane.has_of_go (h : t.Sane id) (hserial : t.Serial) {party : Party} {now : Nat}
    (hcached : t.cachedAt n id = some r) (htakes : (t.behind n).takes r = true)
    (hgone : (t.step n (.go party now)).cachedAt n id ≠ some r) :
    ((t.step n (.go party now)).behind n).Has id r := by
  induction t generalizing n with
  | table m => cases n <;> cases hcached
  | layer g s below ih =>
      cases n with
      | zero =>
          have hkeeps : (layer g (g.step s (.go party now)) below).Keeps id r :=
            Keeps.goesOn (h.minds.1 r hcached) hserial (WithCallers.goesOn_step rfl (by simp))
          exact (hkeeps.of_not_cached hgone htakes).has htakes
      | succ n => exact ih ⟨h.stands.2, h.minds.2⟩ hserial.2 hcached htakes hgone

/-- Let no cache have two passes at once, and let components be told nothing else under an address
than what the caches before them have there.  If a party at a cache goes on and a record leaves the
cache by that, and all caches behind it take the record, then one of them has it at that moment, or
the table in memory. -/
theorem has_of_leaves (m : Memory) (configs : List Cache.Config) {events : List (Nat × Event)}
    {party : Party} {now : Nat}
    (halong : Along move (fun t event => t.Serial ∧ t.spares id event.1 event.2 = true)
      (start m configs) (events ++ [(n, .go party now)]))
    (hcached : (run move (start m configs) events).cachedAt n id = some r)
    (htakes : ((run move (start m configs) events).behind n).takes r = true)
    (hgone : (run move (start m configs) (events ++ [(n, .go party now)])).cachedAt n id ≠ some r) :
    ((run move (start m configs) (events ++ [(n, .go party now)])).behind n).Has id r := by
  obtain ⟨hdeeds, ⟨hserial, -⟩, -⟩ := along_append.1 halong
  have hsane : (run move (start m configs) events).Sane id :=
    Sane.along_run ⟨stands_start m configs, minds_start m configs id⟩ hdeeds
  rw [run_concat] at hgone ⊢
  exact hsane.has_of_go hserial hcached htakes hgone

/-- A cache for one entry, before one that takes no milestones. -/
def mixed : CacheStack := start {} [{ byteBudget := 0 }, { excludedKinds := [.milestone] }]

/-- The first cache is given a transaction and a milestone, and has both evicted at once, up to the
request that drops them. -/
def mixedBatch : List (Nat × Event) :=
  [(0, .tell (.save (.ofBytes .transaction [1]) (.hash [1]))),
    (0, .tell (.save (.ofBytes .milestone [2]) (.index 7))), (0, .begin .evict),
    (0, .go (.caller 2) 0), (0, .go (.caller 2) 0), (0, .go (.caller 2) 0),
    (0, .serve (.caller 2)), (0, .go (.caller 2) 0)]

/-- The transaction is cached by the second cache when it leaves the first. -/
theorem has_of_mixed_batch :
    ((run move mixed (mixedBatch ++ [(0, .go (.caller 2) 0)])).behind 0).Has
      ⟨.transaction, .hash [1]⟩ (.ofBytes .transaction [1]) :=
  has_of_leaves {} _ (by decide +kernel) (by decide +kernel) (by decide +kernel)
    (by decide +kernel)

/-- The milestone leaves the first cache with the transaction, and nobody has it. -/
theorem not_has_of_mixed_batch : ¬∀ (m : Memory) (configs : List Cache.Config)
    (events : List (Nat × Event)) (n : Nat) (party : Party) (now : Nat) (id : EntryId) (r : Record),
    Along move (fun t event => t.Serial ∧ t.spares id event.1 event.2 = true) (start m configs)
      (events ++ [(n, .go party now)]) →
    (run move (start m configs) events).cachedAt n id = some r →
    (run move (start m configs) (events ++ [(n, .go party now)])).cachedAt n id ≠ some r →
    ((run move (start m configs) (events ++ [(n, .go party now)])).behind n).Has id r := by
  intro hclaim
  have hhas := hclaim {} [{ byteBudget := 0 }, { excludedKinds := [.milestone] }] mixedBatch 0
    (.caller 2) 0 ⟨.milestone, .index 7⟩ (.ofBytes .milestone [2]) (by decide +kernel)
    (by decide +kernel) (by decide +kernel)
  revert hhas
  decide +kernel

end CacheStack

end RecordStore
