import RecordStore.Proofs.Cache.Proceedings
import RecordStore.Proofs.Worker

/-!
# A cache that is being shut down

A shutdown closes the cache, stops the worker, flushes what is left and empties the cache.
`Running.Watched` says what is known of a cache while its worker is about some duty and a
shutdown has got to some point.  From the closing on nothing is admitted.  When the worker has
stopped it has no pass, so the flush is the only one (`Running.Watched.serial`), and the
slots that are there at the end of the flush are all of the flush, or there are none.

Each request of the worker and of the shutdown keeps this, and it makes the view of the cache
proceed.  All other requests only let slots go (`Running.Wanes`).
-/

namespace RecordStore

namespace Cache

open Service (Prog)

/-! ## Vacant contents -/

namespace Contents

/-- No entry is there, and nothing is left of those that were. -/
structure Vacant (c : Contents) : Prop where
  slots : c.slots.candidates = []
  index : ∀ id : EntryId, c.slots.index[id]? = none
  filter : ∀ fingerprint, c.filter.contains fingerprint = false
  len : c.filter.len = 0
  saturated : c.saturated = false

variable {c c' : Contents}

theorem vacant_clear (c : Contents) : c.clear.Vacant where
  slots := rfl
  index id := by simp [clear, Slots.clear]
  filter fingerprint := by
    rw [← Bool.not_eq_true, Filter.contains_iff]
    simp [clear]
  len := rfl
  saturated := rfl

namespace Vacant

/-- The batches have no part in it. -/
theorem congr (h : c.Vacant) (hslots : c'.slots = c.slots) (hfilter : c'.filter = c.filter)
    (hsaturated : c'.saturated = c.saturated) : c'.Vacant where
  slots := hslots ▸ h.slots
  index := hslots ▸ h.index
  filter := hfilter ▸ h.filter
  len := hfilter ▸ h.len
  saturated := hsaturated.trans h.saturated

theorem remove (h : c.Vacant) (id : EntryId) : (c.remove id).Vacant := by
  have hgone : c.slots.remove id = (none, c.slots) := by simp only [Slots.remove, h.index]
  exact h.congr (by simp only [Contents.remove, hgone]) (by simp only [Contents.remove, hgone])
    (by simp only [Contents.remove, hgone])

theorem removeKind (h : c.Vacant) (kind : Kind) : (c.removeKind kind).Vacant := by
  have hgone : c.slots.removeKind kind = ([], c.slots) := by
    simp only [Slots.removeKind, h.slots, List.filter_nil, List.map_nil, List.foldl_nil]
  exact h.congr (by simp only [Contents.removeKind, hgone, List.foldl_nil])
    (by simp only [Contents.removeKind, hgone, List.foldl_nil])
    (by simp only [Contents.removeKind, hgone, List.foldl_nil])

theorem dropWritten_eq (h : c.Vacant) (d : Candidate) : (c.dropWritten d).2 = c := by
  have hnone : c.slots.bySeq[d.seq]? = none := by
    cases hslot : c.slots.bySeq[d.seq]? with
    | none => rfl
    | some slot =>
        have hmem : ⟨d.seq, slot⟩ ∈ c.slots.candidates := Slots.mem_candidates.2 hslot
        rw [h.slots] at hmem
        cases hmem
  simp only [Contents.dropWritten, Slots.removeIfVersion, hnone]

theorem dropAllWritten_eq (h : c.Vacant) (l : List Candidate) : (c.dropAllWritten l).2 = c := by
  induction l with
  | nil => rfl
  | cons d l ih => rw [dropAllWritten_cons, h.dropWritten_eq, ih]

theorem rebuild_eq (h : c.Vacant) (capacity : Nat) : c.rebuild capacity = c := by
  simp only [rebuild, h.saturated, Bool.false_eq_true, if_false]

end Vacant

end Contents

/-! ## Slots that only go -/

namespace Running

/-- Whether there is no worker that could still do something. -/
def hasStopped (r : Running) : Bool := r.worker.all Worker.hasEnded

/-- No slots have come, and the cache has the worker that it had. -/
structure Wanes (r r' : Running) : Prop where
  slots : ∀ d ∈ r'.cache.contents.slots.candidates, d ∈ r.cache.contents.slots.candidates
  vacant : r.cache.contents.Vacant → r'.cache.contents.Vacant
  closed : r'.cache.closed = r.cache.closed
  attached : r'.attached = r.attached
  ended : r'.worker.map Worker.hasEnded = r.worker.map Worker.hasEnded

variable {r r' : Running}

namespace Wanes

/-- A change that is none of the cache. -/
theorem of_cache (hcache : r'.cache = r.cache) (hattached : r'.attached = r.attached)
    (hended : r'.worker.map Worker.hasEnded = r.worker.map Worker.hasEnded) : r.Wanes r' where
  slots _ hd := hcache ▸ hd
  vacant h := hcache ▸ h
  closed := by rw [hcache]
  attached := hattached
  ended := hended

theorem refl (r : Running) : r.Wanes r := .of_cache rfl rfl rfl

theorem hasStopped_eq (h : r.Wanes r') : r'.hasStopped = r.hasStopped := by
  have hall : ∀ o : Option (Worker Task),
      o.all Worker.hasEnded = (o.map Worker.hasEnded).all id := by
    intro o
    cases o <;> rfl
  rw [hasStopped, hasStopped, hall, hall, h.ended]

/-- A change of the batches and counts of a cache. -/
theorem withCache {cache : Cache} (hslots : cache.contents.slots = r.cache.contents.slots)
    (hfilter : cache.contents.filter = r.cache.contents.filter)
    (hsaturated : cache.contents.saturated = r.cache.contents.saturated)
    (hclosed : cache.closed = r.cache.closed) : r.Wanes { r with cache } where
  slots _ hd := hslots ▸ hd
  vacant h := h.congr hslots hfilter hsaturated
  closed := hclosed
  attached := rfl
  ended := rfl

theorem get (r : Running) (id : EntryId) : r.Wanes { r with cache := (r.cache.get id).2 } := by
  simp only [Cache.get]
  split <;> exact .withCache rfl rfl rfl rfl

theorem remove (hs : r.cache.contents.slots.Sound) (id : EntryId) :
    r.Wanes { r with cache := r.cache.delete id } where
  slots _ hd := ((Contents.mem_slots_remove hs).1 hd).1
  vacant h := h.remove id
  closed := rfl
  attached := rfl
  ended := rfl

theorem removeKind (hs : r.cache.contents.slots.Sound) (kind : Kind) :
    r.Wanes { r with cache := r.cache.clear kind } where
  slots _ hd := ((Contents.mem_slots_removeKind hs).1 hd).1
  vacant h := h.removeKind kind
  closed := rfl
  attached := rfl
  ended := rfl

/-- A call that admits nothing and does not start the cache. -/
theorem perform (hs : r.cache.contents.slots.Sound) {call : Call}
    (hcall : WithCallers.isPlain call = true) (hinit : call ≠ .init) :
    r.Wanes (r.perform call).2 := by
  cases call with
  | init => exact absurd rfl hinit
  | save | saveBatch | update | deleteBatch | shutdown => cases hcall
  | get kind key => exact .get r _
  | seek kind raw => exact .get r _
  | delete kind key => exact .remove hs _
  | clear kind => exact .removeKind hs kind
  | has | mayHave | first | latest | next | previous | keysStartingWith | keysMissingFrom
  | loadAllKeys | count | clearMetadata => exact .refl r

theorem beginPass (r : Running) (candidates : List Candidate) :
    r.Wanes { r with cache := (r.cache.beginPass candidates).2 } := by
  simp only [Cache.beginPass]
  split
  · exact .refl r
  · exact .withCache rfl rfl rfl rfl

theorem dropWritten (r : Running) (candidates : List Candidate) :
    r.Wanes { r with cache := (r.cache.dropWritten candidates).2 } where
  slots d hd := by
    simp only [Cache.dropWritten, Contents.slots_rebuild] at hd
    exact (Contents.mem_slots_dropAllWritten.1 hd).1
  vacant h := by
    simp only [Cache.dropWritten, h.dropAllWritten_eq, h.rebuild_eq]
    exact h
  closed := rfl
  attached := rfl
  ended := rfl

theorem submit (r : Running) (caller : Nat) (task : Task) : r.Wanes (r.submit? caller task).2 := by
  cases hw : r.worker with
  | none =>
      rw [r.submit?_of_none hw]
      exact .refl r
  | some w =>
      rw [r.submit?_of_worker hw]
      exact .of_cache rfl rfl (by simp [hw, Worker.hasEnded_submit])

theorem await (r : Running) (ticket : Nat) : r.Wanes (r.await? ticket).2 := by
  rcases r.snd_await?_cases ticket with hawait | hawait <;> rw [hawait]
  · exact .of_cache rfl rfl rfl
  · exact .refl r

theorem queueRequest (r : Running) : r.Wanes r.queueRequest.2 := by
  rcases r.queueRequest_cases with hqueue | ⟨w, hw, -, hqueue⟩ <;> rw [hqueue]
  · exact .refl r
  · exact .of_cache rfl rfl (by rw [hw]; rfl)

/-- What callers ask that do not shut the cache down. -/
theorem errand (r : Running) (caller now : Nat) {q : Request} (hq : q.isErrand = true) :
    r.Wanes (r.reply? caller now q).2 := by
  cases q with
  | isClosed | isAttached => exact .refl r
  | noteRequest | withdrawRequest | newTicket => exact .of_cache rfl rfl rfl
  | queueRequest => exact .queueRequest r
  | failEviction => exact .withCache rfl rfl rfl rfl
  | submit task => exact .submit r caller task
  | await ticket => exact .await r ticket
  | _ => cases hq

end Wanes

end Running

/-! ## How far a shutdown has got -/

namespace Closing

/-- Whether the shutdown has closed the cache. -/
def isUnder : Closing → Bool
  | arriving | late => false
  | _ => true

/-- Whether the worker was given up. -/
def hasDetached : Closing → Bool
  | arriving | late | detaching => false
  | _ => true

/-- Whether the worker has stopped. -/
def hasJoined : Closing → Bool
  | arriving | late | detaching | joining => false
  | _ => true

/-- Whether there was nothing to be flushed, or nothing is left. -/
def isBare : Closing → Bool
  | emptying none | succeeded => true
  | _ => false

/-- Whether the shutdown has looked at what is to be flushed. -/
def hasLooked : Closing → Bool
  | passing _ | emptying _ | succeeded | failed => true
  | _ => false

variable {k : Closing}

theorem eq_of_not_isUnder (h : k.isUnder = false) : k = .arriving ∨ k = .late := by
  cases k with
  | arriving => exact Or.inl rfl
  | late => exact Or.inr rfl
  | _ => cases h

theorem stage_of_not_hasLooked (h : k.hasLooked = false) : k.stage = .resting := by
  cases k with
  | arriving | late | detaching | joining | looking | succeeded | failed => rfl
  | passing st | emptying p => cases h

theorem hasLooked_of_stage (h : k.stage ≠ .resting) : k.hasLooked = true := by
  rw [← Bool.not_eq_false]
  exact fun hk => h (stage_of_not_hasLooked hk)

theorem hasJoined_of_hasLooked (h : k.hasLooked = true) : k.hasJoined = true := by
  cases k <;> first | rfl | cases h

theorem hasDetached_of_hasJoined (h : k.hasJoined = true) : k.hasDetached = true := by
  cases k <;> first | rfl | cases h

theorem isUnder_of_hasJoined (h : k.hasJoined = true) : k.isUnder = true := by
  cases k <;> first | rfl | cases h

end Closing

/-! ## What is known of a closing cache -/

/-- What the worker can be about if there is none, if it has ended, and if it goes on. -/
def Duty.Fits (d : Duty) : Option Bool → Prop
  | none => d = .fresh
  | some true => d = .free ∨ d = .gone
  | some false => True

/-- Whether the worker is there and goes on. -/
def Duty.isBusy : Duty → Bool
  | fresh | free | gone => false
  | _ => true

theorem Duty.Fits.of_isBusy {d : Duty} {ended : Option Bool} (h : d.Fits ended)
    (hbusy : d.isBusy = true) (d' : Duty) : d'.Fits ended := by
  cases ended with
  | none =>
      rw [show d = .fresh from h] at hbusy
      cases hbusy
  | some ended =>
      cases ended with
      | true => rcases h with rfl | rfl <;> cases hbusy
      | false => trivial

/-- The stages of those who have passes: the worker, and the caller that shuts the cache down. -/
def WithCallers.stages (d : Duty) (k : Closing) : Nat → Stage
  | 0 => d.stage
  | 1 => k.stage
  | _ => .resting

namespace Running

/-- What is known of a cache while its worker is about a duty and a shutdown has got to a point.
Before a shutdown it is at its arrival. -/
structure Watched (config : Config) (r : Running) (d : Duty) (k : Closing) : Prop where
  sound : r.cache.Sound config
  closed : r.cache.closed = k.isUnder
  fits : d.Fits (r.worker.map Worker.hasEnded)
  attached : k.hasDetached = false → r.attached = r.worker.isSome
  stopped : k.hasJoined = true → r.hasStopped = true
  /-- The flush has all slots. -/
  slots : ∀ p, k.stage.pass? = some p →
    ∀ e ∈ r.cache.contents.slots.candidates, e ∈ p.candidates
  /-- If nothing was flushed, then because there was nothing. -/
  bare : k = .emptying none → r.cache.contents.slots.candidates = []
  vacant : k = .succeeded → r.cache.contents.Vacant

variable {config : Config} {r r' : Running} {d : Duty} {k : Closing}

namespace Watched

theorem start (config : Config) : Watched config (.ofConfig config) .fresh .arriving where
  sound := sound_ofConfig config
  closed := rfl
  fits := rfl
  attached _ := rfl
  stopped := nofun
  slots _ := nofun
  bare := nofun
  vacant := nofun

theorem fits_of_hasStopped (h : d.Fits (r.worker.map Worker.hasEnded))
    (hstopped : r.hasStopped = true) : d = .fresh ∨ d = .free ∨ d = .gone := by
  rw [hasStopped] at hstopped
  cases hw : r.worker with
  | none =>
      rw [hw] at h
      exact Or.inl h
  | some w =>
      rw [hw] at h hstopped
      simp only [Option.all_some] at hstopped
      rw [Option.map_some, hstopped] at h
      exact Or.inr h

/-- A worker that has stopped has no pass. -/
theorem stage_of_hasStopped (h : Watched config r d k) (hstopped : r.hasStopped = true) :
    d.stage = .resting := by
  rcases fits_of_hasStopped h.fits hstopped with rfl | rfl | rfl <;> rfl

/-- The worker and the shutdown do not have passes at the same time. -/
theorem serial (h : Watched config r d k) (contents : Contents) (stored : Records)
    (calls : List (Option Nat × Call)) :
    View.Serial ⟨contents, stored, calls, WithCallers.stages d k⟩ := by
  have hone : k.stage ≠ .resting → d.stage = .resting := fun hk =>
    h.stage_of_hasStopped (h.stopped (Closing.hasJoined_of_hasLooked
      (Closing.hasLooked_of_stage hk)))
  intro n m hn hm
  match n, m with
  | 0, 0 | 1, 1 => rfl
  | 0, 1 => exact absurd (hone hm) hn
  | 1, 0 => exact absurd (hone hn) hm
  | n + 2, _ => exact absurd rfl hn
  | 0, m + 2 | 1, m + 2 => exact absurd rfl hm

theorem wane (h : Watched config r d k) (hw : r.Wanes r') (hsound : r'.cache.Sound config) :
    Watched config r' d k where
  sound := hsound
  closed := hw.closed.trans h.closed
  fits := hw.ended ▸ h.fits
  attached hk := by
    have hsome : r'.worker.isSome = r.worker.isSome := by
      rw [← Option.isSome_map (f := Worker.hasEnded), hw.ended, Option.isSome_map]
    rw [hw.attached, h.attached hk, hsome]
  stopped hk := hw.hasStopped_eq.trans (h.stopped hk)
  slots p hp e he := h.slots p hp e (hw.slots e he)
  bare hk := List.eq_nil_iff_forall_not_mem.2 fun e he => by
    have hmem := hw.slots e he
    rw [h.bare hk] at hmem
    cases hmem
  vacant hk := hw.vacant (h.vacant hk)

/-- What would be known if the shutdown had joined the worker. -/
theorem of_stopped (h : Watched config r d k) (hclosed : r.cache.closed = true)
    (hstopped : r.hasStopped = true) : Watched config r d .looking :=
  ⟨h.sound, hclosed, h.fits, nofun, fun _ => hstopped, fun _ => nofun, nofun, nofun⟩

/-- The worker gets to something else. -/
theorem turn (h : Watched config r d k) {d' : Duty}
    (hfits : d'.Fits (r.worker.map Worker.hasEnded)) : Watched config r d' k :=
  ⟨h.sound, h.closed, hfits, h.attached, h.stopped, h.slots, h.bare, h.vacant⟩

/-- The shutdown gets to something else, after it has joined the worker. -/
theorem advance (h : Watched config r d k) (hk : k.hasJoined = true) {k' : Closing}
    (hk' : k'.hasJoined = true) {cache : Cache} (hsound : cache.Sound config)
    (hclosed : cache.closed = r.cache.closed)
    (hslots : ∀ p, k'.stage.pass? = some p → ∀ e ∈ cache.contents.slots.candidates,
      e ∈ p.candidates)
    (hbare : k' = .emptying none → cache.contents.slots.candidates = [])
    (hvacant : k' = .succeeded → cache.contents.Vacant) :
    Watched config { r with cache } d k' where
  sound := hsound
  closed := by
    rw [hclosed, h.closed, Closing.isUnder_of_hasJoined hk, Closing.isUnder_of_hasJoined hk']
  fits := h.fits
  attached hdetached := by
    rw [Closing.hasDetached_of_hasJoined hk'] at hdetached
    cases hdetached
  stopped _ := h.stopped hk
  slots := hslots
  bare := hbare
  vacant := hvacant

/-- The shutdown leaves the cache as it is, after it has looked at what is to be flushed. -/
theorem lead (h : Watched config r d k) {k' : Closing} (hk : k.hasJoined = true)
    (hk' : k'.hasJoined = true)
    (hpass : k'.stage.pass? = none ∨ k'.stage.pass? = k.stage.pass?)
    (hbare : k'.isBare = false) : Watched config r d k' := by
  refine h.advance hk hk' h.sound rfl (fun p hp => ?_) (fun heq => ?_) (fun heq => ?_)
  · rcases hpass with hnone | hsame
    · rw [hnone] at hp
      cases hp
    · exact h.slots p (hsame ▸ hp)
  · rw [heq] at hbare
    cases hbare
  · rw [heq] at hbare
    cases hbare

/-- A change of a worker that has not ended. -/
theorem withWorker (h : Watched config r d k) {w w' : Worker Task} (hw : r.worker = some w)
    (hruns : w.hasEnded = false) {d' : Duty} (hfits : d'.Fits (some w'.hasEnded)) :
    Watched config { r with worker := some w' } d' k where
  sound := h.sound
  closed := h.closed
  fits := hfits
  attached hk := by
    have hattached := h.attached hk
    rw [hw] at hattached
    exact hattached
  stopped hk := by
    have hstopped := h.stopped hk
    rw [hasStopped, hw, Option.all_some, hruns] at hstopped
    cases hstopped
  slots := h.slots
  bare := h.bare
  vacant := h.vacant

end Watched

/-! ## Requests -/

/-- What comes of a request: one thing if it is replied to, and another if its party has to
wait. -/
structure Comes (r : Running) (caller now : Nat) (q : Request)
    (replied : Reply q → Running → Prop) (waits : Running → Prop) : Prop where
  of_some : ∀ a r', r.reply? caller now q = (some a, r') → replied a r'
  of_none : ∀ r', r.reply? caller now q = (none, r') → waits r'

namespace Comes

variable {caller now : Nat} {q : Request} {replied : Reply q → Running → Prop}
  {waits : Running → Prop}

theorem reply {a : Reply q} (hr : r.reply? caller now q = (some a, r')) (h : replied a r') :
    r.Comes caller now q replied waits := by
  refine ⟨fun a' r'' hr' => ?_, fun r'' hr' => ?_⟩
  · cases hr.symm.trans hr'
    exact h
  · cases hr.symm.trans hr'

theorem wait (hr : r.reply? caller now q = (none, r')) (h : waits r') :
    r.Comes caller now q replied waits := by
  refine ⟨fun a' r'' hr' => ?_, fun r'' hr' => ?_⟩
  · cases hr.symm.trans hr'
  · cases hr.symm.trans hr'
    exact h

end Comes

/-- As long as a party waits, nothing happens to the cache. -/
theorem cache_of_wait {caller now : Nat} {q : Request} (hr : r.reply? caller now q = (none, r')) :
    r'.cache = r.cache := by
  have hwork : isAboutWork q = true → r'.cache = r.cache := by
    intro hq
    rw [← r.cache_of_isAboutWork caller now hq, hr]
  cases q with
  | submit | await | nextEvent | join | beginWork => exact hwork rfl
  | backend call =>
      cases hr
      rfl
  | _ => cases hr

namespace Watched

theorem hasEnded_of_ne (h : Watched config r d k) (hfree : d ≠ .free) (hgone : d ≠ .gone)
    {w : Worker Task} (hw : r.worker = some w) : w.hasEnded = false := by
  have hfits := h.fits
  rw [hw, Option.map_some] at hfits
  cases hended : w.hasEnded with
  | false => rfl
  | true =>
      rw [hended] at hfits
      exact (hfits.elim hfree hgone).elim

/-- The worker takes up an event. -/
theorem take (h : Watched config r .free k) {w : Worker Task} (hw : r.worker = some w)
    (hruns : w.hasEnded = false) (now : Nat) (e : Worker.Event Task) :
    Watched config { r with worker := some (w.take now e) } (.ofEvent e) k := by
  refine h.withWorker hw hruns ?_
  rw [w.hasEnded_take]
  trivial

/-- The worker waits for an event. -/
theorem nextEvent (h : Watched config r .free k) (now : Nat) :
    r.Comes 0 now .nextEvent (fun e r' => Watched config r' (.ofEvent e) k)
      fun r' => Watched config r' .free k := by
  cases hw : r.worker with
  | none => exact .wait (by simp only [reply?, hw]) h
  | some w =>
      cases hended : w.hasEnded with
      | true => exact .wait (by simp only [reply?, hw, hended, if_true]) h
      | false =>
          rcases w.next_cases now with ⟨e, -, hnext⟩ | hnext
          · exact .reply (by simp [reply?, hw, hended, hnext]) (h.take hw hended now e)
          · refine .wait (by simp [reply?, hw, hended, hnext]; rfl) (h.withWorker hw hended ?_)
            trivial

/-- The worker begins. -/
theorem beginWork (h : Watched config r .fresh k) (now : Nat) :
    r.Comes 0 now .beginWork (fun _ r' => Watched config r' .free k)
      fun r' => Watched config r' .fresh k := by
  cases hw : r.worker with
  | none => exact .wait (by simp only [reply?, hw]) h
  | some w =>
      have hruns := h.hasEnded_of_ne (by simp) (by simp) hw
      have hr : r.reply? 0 now .beginWork = (some (), { r with worker := some (w.begin now) }) := by
        simp only [reply?, hw]
      refine .reply hr (h.withWorker hw hruns ?_)
      cases (w.begin now).hasEnded with
      | true => exact Or.inl rfl
      | false => trivial

/-- The worker has stopped. -/
theorem finishWork (h : Watched config r .stopping k) :
    Watched config (r.withWorker Worker.finish) .gone k := by
  cases hw : r.worker with
  | none =>
      have hfits := h.fits
      rw [hw] at hfits
      cases hfits
  | some w =>
      have hruns := h.hasEnded_of_ne (by simp) (by simp) hw
      simp only [Running.withWorker, hw, Option.map_some]
      exact h.withWorker hw hruns (Or.inr rfl)

/-- The worker gets on with a request. -/
theorem goWorker (h : Watched config r d k) (now : Nat) {q : Request} {state : Reply q → Duty}
    (hasks : Duty.Asks d q state) :
    r.Comes 0 now q (fun a r' => Watched config r' (state a) k)
      fun r' => Watched config r' d k := by
  have hsound : ∀ q, (r.reply? 0 now q).2.cache.Sound config := reply?_sound h.sound 0 now
  cases hasks with
  | begin => exact h.beginWork now
  | next => exact h.nextEvent now
  | reply ticket outcome => exact .reply rfl (h.wane (.of_cache rfl rfl rfl) h.sound)
  | fail => exact .reply rfl (h.wane (.withCache rfl rfl rfl rfl) (hsound .failEviction))
  | clear =>
      have h' : Watched config { r with requested := false } .clearing k :=
        h.wane (.of_cache rfl rfl rfl) h.sound
      exact .reply rfl (h'.turn (h'.fits.of_isBusy rfl _))
  | check => exact .reply rfl (h.turn (h.fits.of_isBusy rfl _))
  | look =>
      have hwanes : r.Wanes { r with cache := r.cache.beginEviction.2 } := by
        simp only [Cache.beginEviction]
        split
        · exact .beginPass r _
        · exact .refl r
      have h' := h.wane hwanes h.sound.beginEviction
      exact .reply rfl (h'.turn (h'.fits.of_isBusy rfl _))
  | drop p =>
      have h' := h.wane (.dropWritten r p.candidates) (h.sound.dropWritten _)
      exact .reply rfl (h'.turn (h'.fits.of_isBusy rfl _))
  | finish => exact .reply rfl h.finishWork
  | pass hpass =>
      cases hpass with
      | save p => exact .wait rfl h
      | delete p written ids => exact .wait rfl h
      | finish p written =>
          have h' : Watched config { r with cache := (r.cache.finishBatch p.batch).2 } _ k :=
            h.wane (.withCache rfl rfl rfl rfl) (h.sound.finishBatch _)
          exact .reply rfl (h'.turn (h'.fits.of_isBusy rfl _))

/-- The backend deals with a call of the worker. -/
theorem answerWorker (h : Watched config r d k) {call : Call}
    {state : Reply (.backend call) → Duty} (hasks : Duty.Asks d (.backend call) state)
    (a : call.Outcome) : Watched config r (state a) k := by
  refine h.turn (h.fits.of_isBusy ?_ _)
  cases hasks with
  | pass hpass => cases hpass <;> rfl

/-- The shutdown gives the worker up. -/
theorem detach (h : Watched config r d .detaching) :
    Watched config { r.withWorker Worker.stop with attached := false } d
      (if r.attached then .joining else .looking) where
  sound := h.sound
  closed := by
    rw [show (if r.attached then Closing.joining else .looking).isUnder = true by split <;> rfl]
    exact h.closed
  fits := by
    simp only [Running.withWorker, Option.map_map]
    exact h.fits
  attached hk := by cases hattached : r.attached <;> simp [hattached, Closing.hasDetached] at hk
  stopped hk := by
    cases hattached : r.attached with
    | true => simp [hattached, Closing.hasJoined] at hk
    | false =>
        have hnone := h.attached rfl
        rw [hattached, eq_comm, Option.isSome_eq_false_iff, Option.isNone_iff_eq_none] at hnone
        simp [hasStopped, Running.withWorker, hnone]
  slots p hp := by cases hattached : r.attached <;> simp
    [hattached, Closing.stage, Stage.pass?] at hp
  bare hk := by split at hk <;> cases hk
  vacant hk := by split at hk <;> cases hk

/-- The shutdown waits for the worker. -/
theorem join (h : Watched config r d .joining) (caller now : Nat) :
    r.Comes caller now .join (fun _ r' => Watched config r' d .looking)
      fun r' => Watched config r' d .joining := by
  cases hw : r.worker with
  | none =>
      exact .reply (a := ()) (by simp only [reply?, hw])
        (h.of_stopped h.closed (by simp [hasStopped, hw]))
  | some w =>
      cases hended : w.hasEnded with
      | true =>
          exact .reply (a := ()) (by simp [reply?, hw, hended])
            (h.of_stopped h.closed (by simp [hasStopped, hw, hended]))
      | false => exact .wait (by simp [reply?, hw, hended]) h

/-- The shutdown looks at what is to be flushed. -/
theorem flush (h : Watched config r d .looking) :
    Watched config { r with cache := r.cache.beginFlush.2 } d (.ofLook r.cache.beginFlush.1) := by
  cases hempty : r.cache.contents.slots.candidates.isEmpty with
  | true =>
      simp only [Cache.beginFlush, Cache.beginPass, hempty, if_true]
      exact h.advance rfl rfl h.sound rfl (fun p hp => by cases hp)
        (fun _ => List.isEmpty_iff.1 hempty) (fun hk => by cases hk)
  | false =>
      have hsound := h.sound.beginPass r.cache.contents.slots.candidates
      simp only [Cache.beginPass, hempty, Bool.false_eq_true, if_false] at hsound
      simp only [Cache.beginFlush, Cache.beginPass, hempty, Bool.false_eq_true, if_false]
      refine h.advance rfl rfl hsound rfl (fun p hp e he => ?_) (fun hk => by cases hk)
        (fun hk => by cases hk)
      cases hp
      exact he

/-- The shutdown empties the cache. -/
theorem empty {p : Option Pass} (h : Watched config r d (.emptying p)) :
    Watched config { r with cache := r.cache.empty } d .succeeded :=
  h.advance rfl rfl h.sound.empty rfl (fun q hq => by cases hq) (fun hk => by cases hk)
    fun _ => Contents.vacant_clear _

/-- The shutdown gets on with a request. -/
theorem goCloser (h : Watched config r d k) (hunder : k.isUnder = true) (caller now : Nat)
    {q : Request} {state : Reply q → Closing} (hasks : Closing.Asks k q state) :
    r.Comes caller now q (fun a r' => Watched config r' d (state a))
      fun r' => Watched config r' d k := by
  cases hasks with
  | close => cases hunder
  | detach => exact .reply rfl h.detach
  | join => exact h.join caller now
  | look => exact .reply rfl h.flush
  | empty p => exact .reply rfl h.empty
  | pass hpass =>
      cases hpass with
      | save p => exact .wait rfl h
      | delete p written ids => exact .wait rfl h
      | finish p written =>
          have h' : Watched config { r with cache := (r.cache.finishBatch p.batch).2 } d _ :=
            h.wane (.withCache rfl rfl rfl rfl) (h.sound.finishBatch _)
          refine .reply rfl ?_
          simp only [passMarked]
          split
          · split
            · exact h'.lead rfl rfl (Or.inr rfl) rfl
            · exact h'.lead rfl rfl (Or.inl rfl) rfl
          · exact h'.lead rfl rfl (Or.inr rfl) rfl

/-- The backend deals with a call of the shutdown. -/
theorem answerCloser (h : Watched config r d k) {call : Call}
    {state : Reply (.backend call) → Closing} (hasks : Closing.Asks k (.backend call) state)
    (a : call.Outcome) : Watched config r d (state a) := by
  cases hasks with
  | pass hpass =>
      cases hpass with
      | save p => exact h.lead rfl rfl (Or.inr rfl) rfl
      | delete p written ids =>
          cases written with
          | false => exact h.lead rfl rfl (Or.inl rfl) rfl
          | true =>
              cases a with
              | error e => exact h.lead rfl rfl (Or.inl rfl) rfl
              | ok a => exact h.lead rfl rfl (Or.inr rfl) rfl

/-- Nothing else is known before a shutdown. -/
theorem of_opened (hsound : r.cache.Sound config) (hclosed : r.cache.closed = k.isUnder)
    (hunder : k.isUnder = false) (hfits : d.Fits (r.worker.map Worker.hasEnded))
    (hattached : r.attached = r.worker.isSome) : Watched config r d k := by
  rcases Closing.eq_of_not_isUnder hunder with rfl | rfl
  · exact ⟨hsound, hclosed, hfits, fun _ => hattached, nofun, fun _ => nofun, nofun, nofun⟩
  · exact ⟨hsound, hclosed, hfits, fun _ => hattached, nofun, fun _ => nofun, nofun, nofun⟩

theorem attached_of_opened (h : Watched config r d k) (hunder : k.isUnder = false) :
    r.attached = r.worker.isSome :=
  h.attached (by rcases Closing.eq_of_not_isUnder hunder with rfl | rfl <;> rfl)

/-- The cache is closed. -/
theorem close (h : Watched config r d k) (hopen : r.cache.closed = false) :
    Watched config { r with cache := r.cache.close.2 } d .detaching := by
  have hunder : k.isUnder = false := h.closed.symm.trans hopen
  exact ⟨h.sound.congr rfl rfl, rfl, h.fits, fun _ => h.attached_of_opened hunder, nofun,
    fun _ => nofun, nofun, nofun⟩

/-- A record is offered. -/
theorem receive (h : Watched config r d k) (key : Key) (record : Record) :
    Watched config (r.receive key record).2 d k := by
  have hsound := h.sound.offer key record
  simp only [Running.receive]
  rcases offer_cases r.cache key record with ⟨haccepts, hr⟩ | ⟨-, hr⟩
  · rw [accepts_eq h.sound.excluded, Bool.and_eq_true, Bool.not_eq_true', h.closed] at haccepts
    rw [hr] at hsound ⊢
    exact .of_opened hsound h.closed haccepts.2 h.fits (h.attached_of_opened haccepts.2)
  · rw [hr] at hsound ⊢
    exact h.wane (.withCache rfl rfl rfl rfl) hsound

/-- The cache is started. -/
theorem init (h : Watched config r d k) : Watched config r.start.2 d k := by
  simp only [Running.start]
  split
  · exact h
  next hopen =>
    split
    · exact h
    next =>
      have hunder : k.isUnder = false := by
        rw [← h.closed]
        exact Bool.eq_false_of_not_eq_true hopen
      refine .of_opened h.sound h.closed hunder ?_ rfl
      trivial

/-- A call that admits nothing is answered. -/
theorem perform (h : Watched config r d k) {call : Call} (hcall : WithCallers.isPlain call = true) :
    Watched config (r.perform call).2 d k := by
  by_cases hinit : call = .init
  · subst hinit
    exact h.init
  · exact h.wane (.perform h.sound.contents.slots hcall hinit) (perform_sound h.sound call)

end Watched

end Running

end Cache

end RecordStore
