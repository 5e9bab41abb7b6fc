import RecordStore.Proofs.Cache.Stages

/-!
# What a cache keeps over another component

What is behind a cache may be a cache itself, so nothing is said of what it stores.  What counts is
what it was told to store and accepted.  With this in the place of the records of a backend, a
record is kept as long as no two passes on the cache overlap (`WithCallers.Keeps`).  When its slot
is gone, then the component behind the cache has accepted it (`WithCallers.KeepsOver.below`).

Every event of a cache with callers keeps what is kept.  Only what is told to the cache itself may
take a record away, or bring another one (`WithCallers.keepsOver_told`).
-/

namespace RecordStore

namespace Cache

open Service (Prog)

variable {g : WithCallers.CallerSystem} {s s' : WithCallers} {stage : Nat → Stage}
    {id : EntryId} {r : Record}
  {q : Request} {st : Stage}

theorem Running.closed_receive (running : Running) (key : Key) (record : Record) :
    (running.receive key record).2.cache.closed = running.cache.closed := by
  show (running.cache.offer key record).2.closed = _
  rcases Running.offer_cases running.cache key record with ⟨-, hr⟩ | ⟨-, hr⟩ <;> rw [hr]

/-! ## Passes that do not overlap -/

/-- Whether a request is one of a pass that has begun.  The pass of a shutdown lasts until the cache
is emptied. -/
def Request.isOfPass : Request → Bool
  | .backend _ | .finishBatch _ | .dropWritten _ | .empty => true
  | _ => false

namespace WithCallers

/-- Whether a program is in a pass. -/
def isPassing {α : Type} : Prog α → Bool
  | .ask q _ => q.isOfPass
  | .done _ => false

/-- Whether a party has a pass under way. -/
def isInPass (s : WithCallers) : Party → Bool
  | .worker => isPassing s.worker
  | .caller n => s.callers[n]?.any fun c => isPassing c.program

def parties (s : WithCallers) : List Party := .worker :: (List.range s.callers.length).map .caller

/-- One party has a pass under way at most. -/
def Serial (s : WithCallers) : Prop :=
  ∀ p ∈ s.parties, ∀ p' ∈ s.parties, s.isInPass p = true → s.isInPass p' = true → p = p'

instance (s : WithCallers) : Decidable s.Serial :=
  inferInstanceAs (Decidable (∀ p ∈ s.parties, ∀ p' ∈ s.parties, _))

theorem mem_parties {p : Party} (hp : s.isInPass p = true) : p ∈ s.parties := by
  cases p with
  | worker => exact List.mem_cons_self
  | caller n =>
      refine List.mem_cons_of_mem _ (List.mem_map.2 ⟨n, List.mem_range.2 ?_, rfl⟩)
      refine Nat.lt_of_not_le fun hn => ?_
      rw [isInPass, List.getElem?_eq_none hn] at hp
      cases hp

/-- Whoever offers a record and stays has no pass. -/
theorem Serial.offer {s : WithCallers} (h : s.Serial) (key : Key) (record : Record) :
    (s.offer key record).Serial := by
  have hold : ∀ p, (s.offer key record).isInPass p = true → s.isInPass p = true := by
    intro p hp
    cases p with
    | worker => exact hp
    | caller n =>
        obtain ⟨c, hc, hpassing⟩ := (Option.any_eq_true _ _).1 hp
        have hc : (s.callers ++ s.requester key record)[n]? = some c := hc
        rw [List.getElem?_append] at hc
        split at hc
        · exact (Option.any_eq_true _ _).2 ⟨c, hc, hpassing⟩
        · rw [s.eq_of_mem_requester (List.mem_of_getElem? hc)] at hpassing
          cases hpassing
  exact fun p _ p' _ hp hp' =>
    h p (mem_parties (hold p hp)) p' (mem_parties (hold p' hp')) (hold p hp) (hold p' hp')

end WithCallers

/-- A view goes on with what the backend does. -/
theorem Stage.Hears.proceeds {v : View} {n : Nat} {call : Call} {verdict : Verdict} {st' : Stage}
    (h : Stage.Hears (v.stage n) call (verdict.outcome call) st') : ∃ calls, v.Proceeds g
      (View.enter { v with stored := verdict.carryOut v.stored call, calls } n st') := by
  generalize hstage : v.stage n = st at h
  generalize ha : verdict.outcome call = a at h
  cases h with
  | save p a =>
      subst ha
      exact View.Proceeds.save verdict hstage
  | @redelete p written ids st' hend =>
      cases verdict with
      | done => exact ⟨_, .answer (.redelete n .done p written ids st' hstage hend)⟩
      | refused => exact ⟨_, .answer (.redelete n .refused p written ids st' hstage hend)⟩
      | failed cause part => cases ha
  | lapse p written ids e =>
      cases verdict with
      | done | refused => cases ha
      | failed cause part => exact ⟨v.calls, .lapse n p written hstage (List.take_subset part ids)⟩

theorem PassAsks.isOfPass {σ : Type} {inside : Stage → σ} {after : Pass → σ} {gaveUp x : σ}
    {state : Reply q → σ} (h : PassAsks inside after gaveUp x q state) : q.isOfPass = true := by
  cases h <;> rfl

theorem Duty.Asks.isOfPass {d : Duty} {state : Reply q → Duty} (h : Duty.Asks d q state)
    (hd : d.stage ≠ .resting) : q.isOfPass = true := by
  cases h with
  | pass hpass => exact hpass.isOfPass
  | drop => rfl
  | _ => exact absurd rfl hd

theorem Stage.Asks.isOfPass {state : Reply q → Stage} (h : Stage.Asks st q state)
    (hst : st ≠ .resting) : q.isOfPass = true := by
  cases h with
  | pass hafter hpass => exact hpass.isOfPass
  | drop => rfl
  | _ => exact absurd rfl hst

theorem Closing.Asks.isOfPass {k : Closing} {state : Reply q → Closing} (h : Closing.Asks k q state)
    (hk : k.stage ≠ .resting) : q.isOfPass = true := by
  cases h with
  | pass hpass => exact hpass.isOfPass
  | empty => rfl
  | _ => exact absurd rfl hk

/-- A caller that is not resting is in a pass. -/
theorem Caller.AtStage.isPassing {c : Caller} {running : Running} (h : c.AtStage running st)
    (hst : st ≠ .resting) : WithCallers.isPassing c.program = true := by
  cases h with
  | @errand errand program st herrand hobeys =>
      cases program with
      | done a => exact absurd hobeys hst
      | ask q next =>
          obtain ⟨state, hasks, -⟩ := hobeys
          exact hasks.isOfPass hst
  | @shutdown program k hk hobeys =>
      cases program with
      | done a => cases hobeys <;> exact absurd rfl hst
      | ask q next =>
          obtain ⟨state, hasks, -⟩ := hobeys
          exact hasks.isOfPass hst

namespace WithCallers

namespace Staged

variable (h : s.Staged g stage)
include h

/-- Somebody who is not resting is in a pass. -/
theorem exists_isInPass {n : Nat} (hn : stage n ≠ .resting) :
    ∃ party : Party, party.number = n ∧ s.isInPass party = true := by
  cases n with
  | zero =>
      obtain ⟨d, hobeys, hd⟩ := h.worker
      rw [← hd] at hn
      refine ⟨.worker, rfl, ?_⟩
      rw [isInPass]
      cases hw : s.worker with
      | done a =>
          rw [hw] at hobeys
          cases hobeys <;> exact absurd rfl hn
      | ask q next =>
          rw [hw] at hobeys
          obtain ⟨state, hasks, -⟩ := hobeys
          exact hasks.isOfPass hn
  | succ n =>
      refine ⟨.caller n, rfl, ?_⟩
      cases hc : s.callers[n]? with
      | none => exact absurd (h.resting n (List.getElem?_eq_none_iff.1 hc)) hn
      | some c =>
          rw [isInPass, hc, Option.any_some]
          exact (h.callers n c hc).isPassing hn

/-- Where passes do not overlap, neither do the stages of a view. -/
theorem serial (hserial : s.Serial) (stored : Records) (calls : List (Option Nat × Call)) :
    (s.viewWith stored calls stage).Serial := by
  intro n k hn hk
  obtain ⟨party, rfl, hparty⟩ := h.exists_isInPass hn
  obtain ⟨party', rfl, hparty'⟩ := h.exists_isInPass hk
  rw [hserial party (mem_parties hparty) party' (mem_parties hparty') hparty hparty']

end Staged

/-! ## What is kept -/

/-- A record is kept, where some records are taken for what the component behind the cache has
accepted. -/
def Keeps (g : CallerSystem) (s : WithCallers) (accepted : Records) (id : EntryId)
    (r : Record) : Prop :=
  ∃ stage calls, s.Staged g stage ∧ (s.viewWith accepted calls stage).Sound ∧
    ∃ version first, (s.viewWith accepted calls stage).Kept id r version first

/-- A record is kept, and something is so if the component behind the cache has accepted it. -/
def KeepsOver (g : CallerSystem) (s : WithCallers) (id : EntryId) (r : Record)
    (below : Prop) : Prop :=
  ∃ accepted, s.Keeps g accepted id r ∧ (accepted id = some r → below)

/-- Everybody has a stage, and the view of the cache is sound. -/
def Stands (g : CallerSystem) (s : WithCallers) : Prop :=
  ∃ stage, s.Staged g stage ∧ (s.viewWith (fun _ => none) [] stage).Sound

variable {accepted : Records} {below below' : Prop}

theorem stands_start (g : CallerSystem) : g.start.Stands g :=
  ⟨_, .start g, g.jobSystem.view_sound.congr _ _⟩

theorem cached_eq_some (hs : s.running.cache.contents.slots.Sound) (h : s.cached id = some r) :
    ∃ d ∈ s.running.cache.contents.slots.candidates, d.slot.id = id ∧ d.slot.record = r := by
  have hsome : ∃ d ∈ s.running.cache.contents.slots.candidates, d.slot.id = id := by
    by_contra hnone
    rw [cached, Slots.recordAt?_eq_none_iff.2 fun d hd hid => hnone ⟨d, hd, hid⟩] at h
    cases h
  obtain ⟨d, hd, rfl⟩ := hsome
  rw [cached, hs.recordAt?_of_mem hd] at h
  exact ⟨d, hd, rfl, Option.some.inj h⟩

namespace KeepsOver

theorem imp (h : s.KeepsOver g id r below) (hbelow : below → below') :
    s.KeepsOver g id r below' := by
  obtain ⟨accepted, hk, haccepted⟩ := h
  exact ⟨accepted, hk, fun heq => hbelow (haccepted heq)⟩

/-- What is kept and not cached is left to what is below. -/
theorem of_not_cached (h : s.KeepsOver g id r below) (hgone : s.cached id ≠ some r) : below := by
  obtain ⟨accepted, ⟨stage, calls, hstaged, hs, version, first, hk⟩, hbelow⟩ := h
  refine hbelow (hk.dropped fun d hd hid => hgone ?_).1
  rw [← (hk.current.slot d hd hid).2, ← hid]
  exact hs.slots.recordAt?_of_mem hd

end KeepsOver

/-! ## Programs that go on -/

/-- A program on the cache goes on, and what is behind the cache accepts something meanwhile. -/
def GoesOn (g : CallerSystem) (s s' : WithCallers) (accepted accepted' : Records) : Prop :=
  ∀ stage calls, s.Staged g stage → ∃ stage' calls', s'.Staged g stage' ∧
    (s.viewWith accepted calls stage).Proceeds g (s'.viewWith accepted' calls' stage')

/-- A program goes on without what is behind the cache. -/
theorem goesOn_step {e : Event} (he : e.isProgram = true)
    (hanswer : ∀ party verdict, e ≠ .answer party verdict) (accepted : Records) :
    GoesOn g s (g.step s e) accepted accepted := by
  intro stage calls h
  cases e with
  | offer | call | own => cases he
  | begin errand => exact ⟨stage, calls, h.begin errand, .refl _⟩
  | go party now =>
      obtain ⟨st', hgoes, hstaged⟩ := h.go party now
      exact ⟨_, calls, hstaged, hgoes.proceeds⟩
  | take e now =>
      refine ⟨stage, calls, h.take e now, ?_⟩
      simp only [viewWith, cache_take]
      exact .refl _
  | answer party verdict => exact absurd rfl (hanswer party verdict)

/-- A program gets an answer to the call that it waits for. -/
theorem goesOn_hear {party : Party} {call : Call} (hcall : s.waitsFor? party = some call)
    {reply : (call : Call) → call.Outcome} {verdict : Verdict}
    (hreply : reply call = verdict.outcome call) (accepted : Records) :
    GoesOn g s (s.hear party reply) accepted (verdict.carryOut accepted call) := by
  intro stage calls h
  obtain ⟨st', hhears, hstaged⟩ := h.hear hcall reply
  rw [hreply] at hhears
  obtain ⟨calls', hp⟩ := hhears.proceeds (g := g) (v := s.viewWith accepted calls stage)
  refine ⟨_, calls', hstaged, ?_⟩
  simp only [viewWith, running_hear]
  exact hp

section

variable {accepted' : Records} (hgo : GoesOn g s s' accepted accepted')
include hgo

theorem Stands.goesOn (h : s.Stands g) : s'.Stands g := by
  obtain ⟨stage, hstaged, hs⟩ := h
  obtain ⟨stage', calls', hstaged', hp⟩ := hgo stage [] hstaged
  exact ⟨stage', hstaged', (hp.sound (hs.congr _ _)).congr _ _⟩

/-- Slots only go. -/
theorem Stands.cached_of_goesOn (h : s.Stands g) (hcached : s'.cached id = some r) :
    s.cached id = some r := by
  obtain ⟨stage, hstaged, hs⟩ := h
  obtain ⟨stage', calls', hstaged', hp⟩ := hgo stage [] hstaged
  obtain ⟨d, hd, rfl, rfl⟩ := cached_eq_some hstaged'.sound.contents.slots hcached
  exact hs.slots.recordAt?_of_mem (hp.mem_slots (hs.congr _ _) hd)

theorem Keeps.goesOn (h : s.Keeps g accepted id r) (hserial : s.Serial) :
    s'.Keeps g accepted' id r := by
  obtain ⟨stage, calls, hstaged, hs, version, first, hk⟩ := h
  obtain ⟨stage', calls', hstaged', hp⟩ := hgo stage calls hstaged
  exact ⟨stage', calls', hstaged', hp.sound hs, version, first,
    hk.proceeds hs (hstaged.serial hserial _ _) hp⟩

end

/-! ## What is told to a cache -/

namespace Tells

variable {e : Event} {v v' : View} (h : Tells g s e v v') (hs : v.Sound)
include h hs

/-- A slot was there before, unless a record is admitted under its address. -/
theorem mem_slots (hadmits : s.admits id e = false) {d : Candidate}
    (hd : d ∈ v'.contents.slots.candidates) (hid : d.slot.id = id) :
    d ∈ v.contents.slots.candidates := by
  cases h with
  | aside => exact hd
  | move hmove hm hown hadmits' => exact hm.mem_slots hs ((hadmits' id).symm.trans hadmits) hd hid

/-- A record stays kept when the address is left alone. -/
theorem kept {version first : Nat} (hk : v.Kept id r version first) (hserial : v.Serial)
    (hadmits : s.admits id e = false) (hremoves : e.removes id = false) :
    v'.Kept id r version first := by
  cases h with
  | aside => exact hk
  | move hmove hm hown hadmits' =>
      refine hk.move hs hserial hm hown (Bool.or_eq_false_iff.2 ⟨?_, ?_⟩)
      · exact (hadmits' id).symm.trans hadmits
      · exact (Event.removes_of_move? hmove id).symm.trans hremoves

omit hs in
/-- A record that is admitted is kept. -/
theorem kept_of_accept (hs : v.Sound) {key : Key} {record : Record} (he : e = .offer key record)
    (haccept : (s.running.receive key record).1.1 = true) :
    ∃ version first, v'.Kept (record.idAt key) record version first := by
  subst he
  have hadmits : s.admits (record.idAt key) (.offer key record) = true :=
    Bool.and_eq_true_iff.2 ⟨beq_self_eq_true _, haccept⟩
  cases h with
  | aside hnot =>
      rw [hnot] at hadmits
      cases hadmits
  | move hmove hm hown hadmits' =>
      cases hmove
      cases hm with
      | accept => exact ⟨_, _, .of_accept hs key record⟩
      | refuse _ _ htakes =>
          have htakes' : g.config.takes record = false := htakes
          rw [hadmits', Cache.Event.admits, htakes', Bool.and_false] at hadmits
          cases hadmits

end Tells

section

variable {e : Event} (he : e.isCached = true)
include he

/-- Nobody's pass begins or ends. -/
theorem Serial.told (h : s.Serial) : (g.step s e).Serial := by
  cases e with
  | offer key record => exact h.offer key record
  | call call =>
      simp only [CallerSystem.step]
      split <;> exact h
  | own | begin | go | take | answer => cases he

theorem Stands.told (h : s.Stands g) : (g.step s e).Stands g := by
  obtain ⟨stage, hstaged, hs⟩ := h
  obtain ⟨hstaged', htells⟩ := hstaged.told he (fun _ => none) []
  exact ⟨stage, hstaged', htells.sound hs⟩

/-- The cache is told something that leaves the address alone. -/
theorem Keeps.told (h : s.Keeps g accepted id r) (hserial : s.Serial)
    (hadmits : s.admits id e = false) (hremoves : e.removes id = false) :
    (g.step s e).Keeps g accepted id r := by
  obtain ⟨stage, calls, hstaged, hs, version, first, hk⟩ := h
  obtain ⟨hstaged', htells⟩ := hstaged.told he accepted calls
  exact ⟨stage, calls, hstaged', htells.sound hs, version, first,
    htells.kept hs hk (hstaged.serial hserial _ _) hadmits hremoves⟩

end

/-- A record that is admitted is kept, whatever is below. -/
theorem Stands.keepsOver_of_accept (h : s.Stands g) {key : Key} {record : Record}
    (haccept : (s.running.receive key record).1.1 = true) (below : Prop) :
    (g.step s (.offer key record)).KeepsOver g (record.idAt key) record below := by
  obtain ⟨stage, hstaged, hs⟩ := h
  obtain ⟨hstaged', htells⟩ := hstaged.told (e := .offer key record) rfl (fun _ => none) []
  obtain ⟨version, first, hk⟩ := htells.kept_of_accept hs rfl haccept
  exact ⟨_, ⟨stage, [], hstaged', htells.sound hs, version, first, hk⟩,
    fun hnone => by cases hnone⟩

section

variable {e : Event} (he : e.isCached = true) (hserial : s.Serial) (hstands : s.Stands g)
include he hserial hstands

/-- What is kept stays kept, if it is not removed and no other record is admitted. -/
theorem KeepsOver.told (h : s.KeepsOver g id r below) (hremoves : e.removes id = false)
    (hadmits : ∀ key record, e = .offer key record → s.admits id e = true → record = r) :
    (g.step s e).KeepsOver g id r below := by
  cases hadmission : s.admits id e with
  | false =>
      obtain ⟨accepted, hk, hbelow⟩ := h
      exact ⟨accepted, hk.told he hserial hadmission hremoves, hbelow⟩
  | true =>
      cases e with
      | offer key record =>
          obtain rfl := hadmits key record rfl hadmission
          obtain ⟨hid, haccept⟩ := Bool.and_eq_true_iff.1 hadmission
          rw [← beq_iff_eq.1 hid]
          exact hstands.keepsOver_of_accept haccept below
      | _ => cases hadmission

/-- Whatever the cache is told, what is cached is kept. -/
theorem keepsOver_told {below : Record → Prop}
    (h : ∀ r, s.cached id = some r → s.KeepsOver g id r (below r))
    (hcached : (g.step s e).cached id = some r) : (g.step s e).KeepsOver g id r (below r) := by
  have hstands' := hstands
  obtain ⟨stage, hstaged, hs⟩ := hstands'
  obtain ⟨hstaged', htells⟩ := hstaged.told he (fun _ => none) []
  obtain ⟨d, hd, rfl, rfl⟩ := cached_eq_some hstaged'.sound.contents.slots hcached
  cases hadmission : s.admits d.slot.id e with
  | true =>
      cases e with
      | offer key record =>
          obtain ⟨hid, haccept⟩ := Bool.and_eq_true_iff.1 hadmission
          obtain ⟨version, first, hk⟩ := htells.kept_of_accept hs rfl haccept
          rw [← beq_iff_eq.1 hid, (hk.current.slot d hd (beq_iff_eq.1 hid).symm).2]
          exact hstands.keepsOver_of_accept haccept _
      | _ => cases hadmission
  | false =>
      have hremoves : e.removes d.slot.id = false := by
        refine Bool.eq_false_iff.2 fun hremoves => ?_
        exact (htells.removed_of_removes hs hremoves).uncached d hd rfl
      have hcached' : s.cached d.slot.id = some d.slot.record :=
        hs.slots.recordAt?_of_mem (htells.mem_slots hs hadmission hd rfl)
      refine (h _ hcached').told he hserial hstands hremoves fun key record _ hadmission' => ?_
      rw [hadmission] at hadmission'
      cases hadmission'

end

/-! ## What is told one after the other -/

/-- Whether an event is about the cache alone, and spares an address or brings a record there. -/
def Respects (id : EntryId) (r : Record) (s : WithCallers) (e : Event) : Prop :=
  e.isCached = true ∧ e.removes id = false ∧
    ∀ key record, e = .offer key record → s.admits id e = true → record = r

section

variable {events : List Event} (hserial : s.Serial) (hstands : s.Stands g)
include hserial hstands

theorem Stands.run_told (he : ∀ e ∈ events, e.isCached = true) :
    (run g.step s events).Serial ∧ (run g.step s events).Stands g := by
  refine run_of_forall (Q := fun s : WithCallers => s.Serial ∧ s.Stands g) (fun e hmem s hs => ?_)
    ⟨hserial, hstands⟩
  exact ⟨hs.1.told (he e hmem), hs.2.told (he e hmem)⟩

/-- What is cached after several events is kept, if it was so before. -/
theorem keepsOver_run_told (he : ∀ e ∈ events, e.isCached = true) {below : Record → Prop}
    (h : ∀ r, s.cached id = some r → s.KeepsOver g id r (below r)) :
    ∀ r, (run g.step s events).cached id = some r →
      (run g.step s events).KeepsOver g id r (below r) := by
  refine (run_of_forall (Q := fun s : WithCallers => (s.Serial ∧ s.Stands g) ∧
    ∀ r, s.cached id = some r → s.KeepsOver g id r (below r)) (fun e hmem s hs => ?_)
    ⟨⟨hserial, hstands⟩, h⟩).2
  obtain ⟨⟨hserial, hstands⟩, h⟩ := hs
  have hcached := he e hmem
  exact ⟨⟨hserial.told hcached, hstands.told hcached⟩,
    fun r => keepsOver_told hcached hserial hstands h⟩

theorem KeepsOver.run_told (h : s.KeepsOver g id r below)
    (halong : Along g.step (Respects id r) s events) :
    (run g.step s events).KeepsOver g id r below := by
  refine (run_induction
    (Q := fun s : WithCallers => (s.Serial ∧ s.Stands g) ∧ s.KeepsOver g id r below) halong
    ⟨⟨hserial, hstands⟩, h⟩ fun s e hs he => ?_).2
  obtain ⟨⟨hserial, hstands⟩, h⟩ := hs
  obtain ⟨hcached, hremoves, hadmits⟩ := he
  exact ⟨⟨hserial.told hcached, hstands.told hcached⟩,
    h.told hcached hserial hstands hremoves hadmits⟩

omit hserial hstands in
/-- A batch of which nothing is admitted changes nothing. -/
theorem along_of_refused {entries : List Entry} (h : (s.running.cache.offerAll entries).1 = false) :
    Along g.step (Respects id r) s (entries.map fun e => .offer e.1 e.2) := by
  induction entries generalizing s with
  | nil => trivial
  | cons e entries ih =>
      obtain ⟨hoffer, hrest⟩ := Bool.or_eq_false_iff.1 h
      refine ⟨⟨rfl, rfl, fun key record _ hadmits => ?_⟩, ih hrest⟩
      have hoffer' : (s.running.receive e.1 e.2).1.1 = false := hoffer
      rw [admits, hoffer', Bool.and_false] at hadmits
      cases hadmits

omit hserial hstands in
theorem along_of_entries {entries : List Entry} (h : ∀ e ∈ entries, e.id = id → e.2 = r)
    (s : WithCallers) : Along g.step (Respects id r) s (entries.map fun e => .offer e.1 e.2) := by
  refine along_of_forall (fun x hx s => ?_) s
  obtain ⟨e, he, rfl⟩ := List.mem_map.1 hx
  refine ⟨rfl, rfl, fun key record heq hadmits => ?_⟩
  cases heq
  exact h e he (beq_iff_eq.1 (Bool.and_eq_true_iff.1 hadmits).1)

/-- A batch brings a record to a cache that is open and takes it. -/
theorem Stands.keepsOver_of_batch {entries : List Entry} (hopen : s.running.cache.closed = false)
    (htakes : g.config.takes r = true) (hmem : ∃ e ∈ entries, e.id = id)
    (h : ∀ e ∈ entries, e.id = id → e.2 = r) (below : Prop) :
    (run g.step s (entries.map fun e => .offer e.1 e.2)).KeepsOver g id r below := by
  induction entries generalizing s with
  | nil => obtain ⟨e, he, -⟩ := hmem; cases he
  | cons e entries ih =>
      have hcached : (Event.offer e.1 e.2).isCached = true := rfl
      obtain ⟨he, hrest⟩ := List.forall_mem_cons.1 h
      by_cases hid : e.id = id
      · obtain rfl := hid
        obtain rfl := he rfl
        have haccept : (s.running.receive e.1 e.2).1.1 = true := by
          obtain ⟨stage, hstaged, -⟩ := hstands
          rw [hstaged.receive_fst, htakes, hopen]
          rfl
        have hfresh := hstands.keepsOver_of_accept haccept below
        rw [List.map_cons, run_cons]
        exact hfresh.run_told (hserial.told hcached) (hstands.told hcached)
          (along_of_entries hrest _)
      · have hopen' : (g.step s (.offer e.1 e.2)).running.cache.closed = false :=
          (Running.closed_receive s.running e.1 e.2).trans hopen
        refine ih (hserial.told hcached) (hstands.told hcached) hopen' ?_ hrest
        obtain ⟨x, hx, hxid⟩ := hmem
        rcases List.mem_cons.1 hx with rfl | hx
        · exact absurd hxid hid
        · exact ⟨x, hx, hxid⟩

end

theorem Stands.hear (h : s.Stands g) {party : Party} {call : Call}
    (hcall : s.waitsFor? party = some call) (reply : (call : Call) → call.Outcome) :
    (s.hear party reply).Stands g := by
  obtain ⟨stage, hstaged, hs⟩ := h
  obtain ⟨st', hhears, hstaged'⟩ := hstaged.hear hcall reply
  refine ⟨_, hstaged', ?_⟩
  simp only [viewWith, running_hear]
  exact hs.enter hhears.open?_eq fun p => hhears.pass?_of_some

theorem cached_hear (s : WithCallers) (party : Party) (reply : (call : Call) → call.Outcome)
    (id : EntryId) : (s.hear party reply).cached id = s.cached id := by
  rw [cached, running_hear, cached]

/-- A party waits for a batch to be written, or to be deleted. -/
theorem Stands.call_cases (h : s.Stands g) {party : Party} {call : Call}
    (hcall : s.waitsFor? party = some call) :
    (∃ entries, call = .saveBatch entries ∧ (entries.map Entry.id).Nodup) ∨
      ∃ ids, call = .deleteBatch ids := by
  obtain ⟨stage, hstaged, hs⟩ := h
  obtain ⟨st', hhears, -⟩ := hstaged.hear hcall Verdict.done.outcome
  generalize hstage : stage party.number = st at hhears
  generalize Verdict.done.outcome call = a at hhears
  cases hhears with
  | save p =>
      refine Or.inl ⟨p.entries, rfl, ?_⟩
      have hpass : ((s.viewWith (fun _ => none) [] stage).stage party.number).pass? = some p := by
        show (stage party.number).pass? = some p
        rw [hstage]
        rfl
      rw [p.map_id_entries]
      exact (hs.knows _ p hpass).nodup
  | redelete ids | lapse _ _ ids => exact Or.inr ⟨ids, rfl⟩

end WithCallers

end Cache

end RecordStore
