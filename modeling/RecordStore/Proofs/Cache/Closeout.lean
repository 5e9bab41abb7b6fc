import RecordStore.Proofs.Cache.Watching

/-!
# A shutdown flushes everything once

A shutdown closes the cache, waits for the worker, has what is left written in one batch, and
empties the cache if that succeeded (`WithCallers.shutsDown`).  Other calls may come at any time,
and a pass may be under way and others requested when the shutdown comes.

From the closing on every admission is refused.  When the worker has stopped, the entries that are
left only go if they are removed, up to the look of the shutdown
(`WithCallers.Watched.run_entries`), and they are in the order of their admission
(`WithCallers.Watched.run_line`).  The cache and the backend account at every time for what was
admitted and not removed since (`WithCallers.Watched.accounts`).  So when the shutdown has emptied
the cache, the backend alone does.
-/

namespace RecordStore

namespace Cache

open Service (Prog)

/-! ## Closed caches -/

theorem accepts_of_closed {c : Cache} (h : c.closed = true) (record : Record) :
    c.accepts record = false := by
  rw [accepts, h, Bool.not_true, Bool.and_false]

/-- A closed cache admits nothing of a batch. -/
theorem fst_offerAll_of_closed {c : Cache} (h : c.closed = true) (entries : List Entry) :
    (c.offerAll entries).1 = false := by
  induction entries generalizing c with
  | nil => rfl
  | cons e entries ih =>
      simp only [Cache.offerAll, Cache.offer, accepts_of_closed h, Bool.false_eq_true, if_false,
        Bool.false_or]
      exact ih h

namespace Running

/-- Whatever is offered is refused, and leaves the contents as they are. -/
structure RefusesAll (r : Running) : Prop where
  receive : ∀ key record, (r.receive key record).1 = (false, false) ∧
    (r.receive key record).2.cache.contents = r.cache.contents
  save : ∀ record key, (r.serve (.save record key)).1 = .ok false ∧
    (r.serve (.save record key)).2.cache.contents = r.cache.contents
  saveBatch : ∀ entries, (r.serve (.saveBatch entries)).1 = .ok false ∧
    (r.serve (.saveBatch entries)).2.cache.contents = r.cache.contents
  update : ∀ record key reason, (r.serve (.update record key reason)).1 = .ok false ∧
    (r.serve (.update record key reason)).2.cache.contents = r.cache.contents

variable {r : Running}

/-- A closed cache accepts nothing. -/
theorem receive_of_closed (h : r.cache.closed = true) (key : Key) (record : Record) :
    (r.receive key record).1 = (false, false) ∧
      (r.receive key record).2.cache.contents = r.cache.contents ∧
      (r.receive key record).2.cache.closed = true := by
  simp only [Running.receive, Cache.offer, accepts_of_closed h, Bool.false_eq_true, if_false,
    Bool.false_and]
  exact ⟨trivial, trivial, h⟩

/-- A refused offer requests no pass. -/
theorem offer_of_closed (h : r.cache.closed = true) (key : Key) (record : Record) :
    r.offer key record = (false, (r.receive key record).2) := by
  have hrefused := (receive_of_closed h key record).1
  simp only [Running.offer, hrefused, Bool.false_eq_true, if_false]

theorem offerAll_of_closed (h : r.cache.closed = true) (entries : List Entry) :
    (r.offerAll entries).1 = false ∧
      (r.offerAll entries).2.cache.contents = r.cache.contents ∧
      (r.offerAll entries).2.cache.closed = true := by
  induction entries generalizing r with
  | nil => exact ⟨rfl, rfl, h⟩
  | cons e entries ih =>
      obtain ⟨-, hcontents, hclosed⟩ := receive_of_closed h e.1 e.2
      obtain ⟨hfalse, hcontents', hclosed'⟩ := ih hclosed
      simp only [offerAll, offer_of_closed h, hfalse]
      exact ⟨rfl, hcontents'.trans hcontents, hclosed'⟩

theorem refusesAll_of_closed (h : r.cache.closed = true) : r.RefusesAll where
  receive key record := ⟨(receive_of_closed h key record).1, (receive_of_closed h key record).2.1⟩
  save record key := by
    simp only [serve, offer_of_closed h]
    exact ⟨trivial, (receive_of_closed h key record).2.1⟩
  saveBatch entries :=
    ⟨congrArg Except.ok (offerAll_of_closed h entries).1, (offerAll_of_closed h entries).2.1⟩
  update record key _ := by
    simp only [serve, offer_of_closed h]
    exact ⟨trivial, (receive_of_closed h key record).2.1⟩

end Running

/-! ## Accounts of a cache with callers -/

namespace Contents

variable {c : Contents}

/-- Slots that are all among those of another, and have all of them but some, are the others. -/
theorem candidates_filter {c' : Contents} {P : Candidate → Bool}
    (h : ∀ d, d ∈ c'.slots.candidates ↔ d ∈ c.slots.candidates ∧ P d = true) :
    c'.slots.candidates = c.slots.candidates.filter P :=
  Slots.eq_of_pairwise Slots.pairwise_candidates (Slots.pairwise_candidates.filter _) fun d => by
    rw [h, List.mem_filter]

end Contents

namespace WithCallers

variable {g : CallerSystem} {s : WithCallers} {d d' : Duty} {k k' : Closing} {e : Event}

/-- Whether an event removes what the cache has under an address. -/
def Event.removes (id : EntryId) : Event → Bool
  | .call c => isPlain c && c.removes id
  | _ => false

/-- What a call does to the contents that admits nothing. -/
theorem contents_perform (r : Running) {call : Call} (hcall : isPlain call = true) :
    (∃ kind key, call = .delete kind key ∧
        (r.perform call).2.cache.contents = r.cache.contents.remove ⟨kind, key⟩) ∨
      (∃ kind, call = .clear kind ∧
        (r.perform call).2.cache.contents = r.cache.contents.removeKind kind) ∨
      (∀ id, call.removes id = false) ∧ (r.perform call).2.cache.contents = r.cache.contents := by
  have hget : ∀ id, (r.cache.get id).2.contents = r.cache.contents := by
    intro id
    simp only [Cache.get]
    split <;> rfl
  cases call with
  | delete kind key => exact Or.inl ⟨kind, key, rfl, rfl⟩
  | clear kind => exact Or.inr (Or.inl ⟨kind, rfl, rfl⟩)
  | save | saveBatch | update | deleteBatch | shutdown => cases hcall
  | init =>
      exact Or.inr (Or.inr ⟨fun _ => rfl, congrArg Cache.contents (Running.cache_start r)⟩)
  | get kind key => exact Or.inr (Or.inr ⟨fun _ => rfl, hget _⟩)
  | seek kind raw => exact Or.inr (Or.inr ⟨fun _ => rfl, hget _⟩)
  | has | mayHave | first | latest | next | previous | keysStartingWith | keysMissingFrom
  | loadAllKeys | count | clearMetadata => exact Or.inr (Or.inr ⟨fun _ => rfl, rfl⟩)

/-- The cache and the backend account for what was admitted. -/
def Accounts (s : WithCallers) (d : Duty) (k : Closing) : Prop :=
  ∃ calls, (s.view d k calls).AccountsFor s.admitted

namespace Watched

/-- Nobody has a pass when the worker has stopped and nothing is being flushed. -/
theorem stages_resting (h : Watched g s d k) (hstopped : s.running.hasStopped = true)
    (hlooked : k.hasLooked = false) (n : Nat) : stages d k n = .resting := by
  rcases n with _ | _ | n
  · exact h.running.stage_of_hasStopped hstopped
  · exact Closing.stage_of_not_hasLooked hlooked
  · rfl

theorem accounts_offer (h : Watched g s d k) (ha : s.Accounts d k) (key : Key)
    (record : Record) : (s.offer key record).Accounts d k := by
  obtain ⟨calls, ha⟩ := ha
  refine ⟨calls, ?_⟩
  rcases Running.offer_cases s.running.cache key record with ⟨haccepts, hr⟩ | ⟨-, hr⟩
  · rw [accepts_eq h.running.sound.excluded, Bool.and_eq_true] at haccepts
    have hput : View.AccountsFor _ (s.admitted.put (key, record)) :=
      ha.put (h.running.serial _ _ _) haccepts.1
    simp only [WithCallers.offer, Running.receive, view, hr, if_true]
    exact hput
  · simp only [WithCallers.offer, Running.receive, view, hr, Bool.false_eq_true, if_false]
    exact ha

theorem accounts_call (h : Watched g s d k) (ha : s.Accounts d k) {call : Call}
    (hcall : isPlain call = true) : (s.call call).Accounts d k := by
  obtain ⟨calls, ha⟩ := ha
  have hserial := h.running.serial s.running.cache.contents s.stored calls
  refine ⟨calls, ?_⟩
  rcases contents_perform s.running hcall with
    ⟨kind, key, rfl, hcontents⟩ | ⟨kind, rfl, hcontents⟩ | ⟨hnone, hcontents⟩
  · have hremove := ha.remove (g := g) hserial (.delete ⟨kind, key⟩) (by simp) (fun _ => rfl)
      fun e he => beq_eq_false_iff_ne.2 (Ne.symm
        ((Contents.mem_slots_remove ha.sound.slots).1 he).2)
    simp only [WithCallers.call, view, hcontents]
    exact hremove
  · have hremove := ha.remove (g := g) hserial (.clear kind) (by simp) (fun _ => rfl)
      fun e he => beq_eq_false_iff_ne.2 ((Contents.mem_slots_removeKind ha.sound.slots).1 he).2
    simp only [WithCallers.call, view, hcontents]
    exact hremove
  · simp only [WithCallers.call, view, hcontents, hnone, Bool.false_eq_true, if_false]
    exact ha

/-- Whatever happens, the accounts stay right. -/
theorem accounts (h : Watched g s d k) (hreserved : s.Reserved e)
    (hl : Leads g s d k e (g.step s e) d' k') (ha : s.Accounts d k) :
    (g.step s e).Accounts d' k' := by
  cases e with
  | offer key record =>
      obtain ⟨rfl, rfl⟩ := hl.stays rfl
      exact h.accounts_offer ha key record
  | call call =>
      obtain ⟨rfl, rfl⟩ := hl.stays rfl
      simp only [CallerSystem.step]
      split
      next hcall => exact h.accounts_call ha hcall
      next => exact ha
  | own call => exact hreserved.elim
  | begin _ | take _ _ | go _ _ | answer _ _ =>
      obtain ⟨hadmitted, hproceeds⟩ := hl.proceeds rfl
      obtain ⟨calls, ha⟩ := ha
      obtain ⟨calls', hp⟩ := hproceeds calls
      refine ⟨calls', ?_⟩
      rw [hadmitted]
      exact ha.proceeds (h.running.serial _ _ _) hp

end Watched

/-! ## The order of admission -/

/-- The addresses of the cached entries, the one that was admitted first at first. -/
def ids (s : WithCallers) : List EntryId := s.entries.map Entry.id

/-- The address under which a record is offered. -/
def Event.offered? : Event → Option EntryId
  | .offer key record => some (record.idAt key)
  | _ => none

/-- Addresses in the order of their admission, after an event.  Those that the cache still has
keep their places, and one that is new to it comes last. -/
def CallerSystem.lineAfter (g : CallerSystem) (s : WithCallers) (line : List EntryId) (e : Event) :
    List EntryId :=
  line.filter (fun id => (g.step s e).ids.contains id) ++
    e.offered?.toList.filter fun id => (g.step s e).ids.contains id && !line.contains id

/-- The addresses in a cache in the order of their admission, after events. -/
def CallerSystem.line (g : CallerSystem) : WithCallers → List EntryId → List Event → List EntryId
  | _, line, [] => line
  | s, line, e :: events => g.line (g.step s e) (g.lineAfter s line e) events

theorem ids_eq (s : WithCallers) : s.ids = s.running.cache.contents.slots.ids := List.map_map

theorem entries_eq {s s' : WithCallers} {P : Entry → Bool}
    (h : s'.running.cache.contents.slots.candidates
      = s.running.cache.contents.slots.candidates.filter fun d => P d.slot.entry) :
    s'.entries = s.entries.filter P := by
  rw [entries, entries, h, List.filter_map]
  rfl

/-- A call that is answered at once takes away the slots of what it removes. -/
theorem candidates_call (hsound : s.running.cache.contents.slots.Sound) {call : Call}
    (hcall : isPlain call = true) : (s.call call).running.cache.contents.slots.candidates
      = s.running.cache.contents.slots.candidates.filter fun d => !call.removes d.slot.id := by
  simp only [WithCallers.call]
  rcases contents_perform s.running hcall with ⟨kind, key, rfl, hcontents⟩ |
    ⟨kind, rfl, hcontents⟩ | ⟨hnone, hcontents⟩
  · rw [hcontents]
    refine Contents.candidates_filter fun c => ?_
    rw [Contents.mem_slots_remove hsound]
    refine and_congr_right fun _ => ?_
    show c.slot.id ≠ ⟨kind, key⟩ ↔ (!((⟨kind, key⟩ : EntryId) == c.slot.id)) = true
    rw [Bool.not_eq_true', beq_eq_false_iff_ne, ne_comm]
  · rw [hcontents]
    refine Contents.candidates_filter fun c => ?_
    rw [Contents.mem_slots_removeKind hsound]
    refine and_congr_right fun _ => ?_
    show c.slot.kind ≠ kind ↔ (!(c.slot.kind == kind)) = true
    rw [Bool.not_eq_true', beq_eq_false_iff_ne]
  · rw [hcontents]
    refine (List.filter_eq_self.2 fun c _ => ?_).symm
    rw [hnone]
    rfl

theorem lineAfter_of_subset (hsound : s.running.cache.contents.slots.Sound)
    (hoffered : e.offered? = none)
    (hsub : ∀ d ∈ (g.step s e).running.cache.contents.slots.candidates,
      d ∈ s.running.cache.contents.slots.candidates) :
    g.lineAfter s s.ids e = (g.step s e).ids := by
  rw [CallerSystem.lineAfter, hoffered, Option.toList_none, List.filter_nil, List.append_nil,
    ids_eq, ids_eq]
  exact (Slots.ids_of_subset hsound hsub).symm

theorem lineAfter_offer (hsound : s.running.cache.contents.slots.Sound) (key : Key)
    (record : Record) :
    g.lineAfter s s.ids (.offer key record) = (g.step s (.offer key record)).ids := by
  have hself : ∀ l : List EntryId, s.ids ⊆ l → s.ids.filter (fun id => l.contains id) = s.ids := by
    intro l hl
    exact List.filter_eq_self.2 fun id hid => List.contains_iff_mem.2 (hl hid)
  have hids : (g.step s (.offer key record)).ids = s.ids ∨
      s.ids.contains (record.idAt key) = false ∧
        (g.step s (.offer key record)).ids = s.ids ++ [record.idAt key] := by
    rw [ids_eq, ids_eq]
    simp only [CallerSystem.step, WithCallers.offer, Running.receive]
    rcases Running.offer_cases s.running.cache key record with ⟨-, hr⟩ | ⟨-, hr⟩
    · rw [hr]
      simp only [Contents.slots_put, Slots.ids_insert hsound]
      cases s.running.cache.contents.slots.ids.contains (record.idAt key) with
      | true => exact Or.inl rfl
      | false => exact Or.inr ⟨rfl, rfl⟩
    · rw [hr]
      exact Or.inl rfl
  rw [CallerSystem.lineAfter, Event.offered?, Option.toList_some]
  rcases hids with hids | ⟨hnew, hids⟩
  · rw [hids, hself _ (List.Subset.refl _)]
    simp
  · rw [hids, hself _ (List.subset_append_left _ _)]
    simpa using hnew

namespace Watched

theorem slots_subset (h : Watched g s d k) (hreserved : s.Reserved e)
    (hl : Leads g s d k e (g.step s e) d' k') (ha : s.Accounts d k) (hoffered : e.offered? = none) :
    ∀ c ∈ (g.step s e).running.cache.contents.slots.candidates,
      c ∈ s.running.cache.contents.slots.candidates := by
  have hsound := h.running.sound.contents.slots
  cases e with
  | offer key record => cases hoffered
  | call call =>
      simp only [CallerSystem.step]
      split
      next hcall =>
        rw [candidates_call hsound hcall]
        exact fun c hc => List.mem_of_mem_filter hc
      next => exact fun c hc => hc
  | own call => exact hreserved.elim
  | begin _ | take _ _ | go _ _ | answer _ _ =>
      obtain ⟨-, hproceeds⟩ := hl.proceeds rfl
      obtain ⟨calls, ha⟩ := ha
      obtain ⟨calls', hp⟩ := hproceeds calls
      exact fun c hc => hp.mem_slots ha.sound hc

/-- The entries are in the order of their admission. -/
theorem lineAfter_eq (h : Watched g s d k) (hreserved : s.Reserved e)
    (hl : Leads g s d k e (g.step s e) d' k') (ha : s.Accounts d k) :
    g.lineAfter s s.ids e = (g.step s e).ids := by
  have hsound := h.running.sound.contents.slots
  cases e with
  | offer key record => exact lineAfter_offer hsound key record
  | _ => exact lineAfter_of_subset hsound rfl (h.slots_subset hreserved hl ha rfl)

/-- When the worker has stopped, entries only go if they are removed. -/
theorem entries_of_hasStopped (h : Watched g s d k) (hreserved : s.Reserved e)
    (hl : Leads g s d k e (g.step s e) d' k') (hclosed : s.running.cache.closed = true)
    (hstopped : s.running.hasStopped = true) (hlooked : k'.hasLooked = false) :
    (g.step s e).entries = s.entries.filter fun x => !e.removes x.id := by
  have hsame : (g.step s e).running.cache.contents.slots.candidates
      = s.running.cache.contents.slots.candidates → (∀ id, e.removes id = false) →
      (g.step s e).entries = s.entries.filter fun x => !e.removes x.id := by
    intro hslots hremoves
    refine entries_eq (hslots.trans (List.filter_eq_self.2 fun c _ => ?_).symm)
    rw [hremoves]
    rfl
  cases e with
  | offer key record =>
      refine hsame ?_ fun _ => rfl
      show (s.running.receive key record).2.cache.contents.slots.candidates = _
      rw [(Running.receive_of_closed hclosed key record).2.1]
  | call call =>
      cases hcall : isPlain call with
      | false =>
          have hstep : g.step s (.call call) = s := by
            simp only [CallerSystem.step, hcall, Bool.false_eq_true, if_false]
          exact hsame (by rw [hstep]) fun id => by rw [Event.removes, hcall, Bool.false_and]
      | true =>
          have hstep : g.step s (.call call) = s.call call := by
            simp only [CallerSystem.step, hcall, if_true]
          simp only [hstep, Event.removes, hcall, Bool.true_and]
          exact entries_eq (candidates_call h.running.sound.contents.slots hcall)
  | own call => exact hreserved.elim
  | begin _ | take _ _ | go _ _ | answer _ _ =>
      obtain ⟨-, hproceeds⟩ := hl.proceeds rfl
      obtain ⟨calls', hp⟩ := hproceeds []
      have hnot : k.hasLooked = false := by
        rw [hl.looked, Bool.or_eq_false_iff] at hlooked
        exact hlooked.1
      refine hsame (hp.candidates_of_resting ?_ ?_) fun _ => rfl
      · exact h.stages_resting hstopped hnot
      · exact hl.watched.stages_resting (hl.stops hclosed hstopped) hlooked

end Watched

/-! ## Runs -/

theorem accounts_start (g : CallerSystem) : g.start.Accounts .fresh .arriving := by
  have hrest : stages .fresh .arriving = fun _ => .resting := by
    funext n
    rcases n with _ | _ | n <;> rfl
  refine ⟨[], ?_⟩
  rw [view, hrest]
  exact .start g

/-- A cache that was closed stays closed. -/
theorem closer_step (h : s.closer.isSome = true) : (g.step s e).closer.isSome = true := by
  cases e with
  | offer | own | begin => exact h
  | call call =>
      simp only [CallerSystem.step]
      split <;> exact h
  | take e now =>
      simp only [CallerSystem.step, WithCallers.take]
      split
      · split <;> exact h
      · exact h
  | go party now =>
      cases party with
      | worker =>
          simp only [CallerSystem.step, WithCallers.goWorker]
          split
          · exact h
          · exact h
          · split <;> exact h
      | caller n =>
          simp only [CallerSystem.step, WithCallers.goCaller]
          split
          · split
            · simp only [notedCloser]
              split
              · rfl
              · exact h
            · exact h
          · exact h
  | answer party verdict =>
      cases party with
      | worker =>
          simp only [CallerSystem.step, WithCallers.answerWorker]
          split <;> exact h
      | caller n =>
          simp only [CallerSystem.step, WithCallers.answerCaller]
          split <;> exact h

namespace Watched

variable {events : List Event}

/-- After any events the worker does its duty, and the accounts are right. -/
theorem along_run (h : Watched g s d k) (ha : s.Accounts d k)
    (halong : Along g.step Reserved s events) :
    ∃ d' k', Watched g (run g.step s events) d' k' ∧ (run g.step s events).Accounts d' k' := by
  refine run_induction (Q := fun s => ∃ d k, Watched g s d k ∧ s.Accounts d k) halong
    ⟨d, k, h, ha⟩ fun s e hs hreserved => ?_
  obtain ⟨d, k, h, ha⟩ := hs
  obtain ⟨d', k', hl⟩ := h.step hreserved
  exact ⟨d', k', hl.watched, h.accounts hreserved hl ha⟩

/-- Only the shutdown that closed the cache looks at what is to be flushed. -/
theorem eq_looking (h : Watched g s d k) (hflushes : s.flushes e = true) : k = .looking := by
  have hcaller : ∃ (n : Nat) (q : Request) (next : Reply q → Prog (Except Failure Unit)),
      s.callers[n]? = some ⟨.shutdown, .ask q next⟩ ∧ q.looks = true := by
    cases e with
    | go party now =>
        cases party with
        | worker => cases hflushes
        | caller n =>
            simp only [flushes, Option.any_eq_true] at hflushes
            obtain ⟨c, hc, hlooks⟩ := hflushes
            simp only [Caller.looks] at hlooks
            split at hlooks
            next q next => exact ⟨n, q, next, hc, hlooks⟩
            next => cases hlooks
    | _ => cases hflushes
  obtain ⟨n, q, next, hc, hlooks⟩ := hcaller
  by_cases hn : s.closer = some n
  · obtain ⟨program, hprogram, hobeys⟩ := h.closer n hn
    rw [hc] at hprogram
    cases hprogram
    obtain ⟨state, hasks, -⟩ := hobeys
    cases hasks with
    | look => rfl
    | close | detach | join | empty => cases hlooks
    | pass hpass => cases hpass <;> cases hlooks
  · cases h.others n _ hc hn with
    | errand herrand => exact absurd rfl herrand
    | shutdown hk hobeys =>
        obtain ⟨state, hasks, -⟩ := hobeys
        obtain rfl := hasks.eq_close hk
        cases hlooks

theorem not_flushes_of_hasLooked (h : Watched g s d k) (hlooked : k.hasLooked = true) (e : Event) :
    s.flushes e = false := by
  rw [← Bool.not_eq_true]
  intro hflushes
  rw [h.eq_looking hflushes] at hlooked
  cases hlooked

/-- After the look of the shutdown nothing more is flushed. -/
theorem run_of_hasLooked (h : Watched g s d k) (hlooked : k.hasLooked = true)
    (halong : Along g.step Reserved s events) :
    ∃ d' k', Watched g (run g.step s events) d' k' ∧ k'.hasLooked = true ∧
      (run g.step s events).flushed = s.flushed := by
  refine run_induction (Q := fun s' => ∃ d k, Watched g s' d k ∧ k.hasLooked = true ∧
    s'.flushed = s.flushed) halong ⟨d, k, h, hlooked, rfl⟩ fun s' e hs hreserved => ?_
  obtain ⟨d, k, h, hlooked, hflushed⟩ := hs
  obtain ⟨d', k', hl⟩ := h.step hreserved
  have hnot := h.not_flushes_of_hasLooked hlooked e
  refine ⟨d', k', hl.watched, ?_, ?_⟩
  · rw [hl.looked, hlooked, Bool.true_or]
  · rw [hl.flushed, hnot, ← hflushed]
    rfl

/-- Without the look of a shutdown nothing is flushed. -/
theorem run_of_not_flushes (h : Watched g s d k) (hlooked : k.hasLooked = false)
    (halong : Along g.step Reserved s events)
    (hnot : ∀ before e after, events = before ++ e :: after →
      (run g.step s before).flushes e = false) : (run g.step s events).flushed = [] := by
  induction events generalizing s d k with
  | nil => exact h.unflushed hlooked
  | cons e events ih =>
      obtain ⟨d', k', hl⟩ := h.step halong.1
      have hfirst : s.flushes e = false := hnot [] e events rfl
      refine ih hl.watched ?_ halong.2 fun before e' after heq => ?_
      · rw [hl.looked, hlooked, hfirst, Bool.or_false]
      · exact hnot (e :: before) e' after (by rw [heq, List.cons_append])

/-- The look of a shutdown has everything flushed, and that is all that is ever flushed. -/
theorem run_of_flushes (h : Watched g s d k) (hflushes : s.flushes e = true)
    (halong : Along g.step Reserved s (e :: events)) : (run g.step s (e :: events)).flushed
    = s.toFlush := by
  obtain ⟨d', k', hl⟩ := h.step halong.1
  have hlooked : k'.hasLooked = true := by rw [hl.looked, hflushes, Bool.or_true]
  obtain ⟨-, -, -, -, hflushed⟩ := hl.watched.run_of_hasLooked hlooked halong.2
  have hbefore : s.flushed = [] := h.unflushed (by rw [h.eq_looking hflushes]; rfl)
  rw [run_cons, hflushed, hl.flushed, hflushes, hbefore, if_pos rfl, List.append_nil]

/-- After any events the entries are in the order of their admission. -/
theorem run_line (h : Watched g s d k) (ha : s.Accounts d k)
    (halong : Along g.step Reserved s events) :
    g.line s s.ids events = (run g.step s events).ids := by
  induction events generalizing s d k with
  | nil => rfl
  | cons e events ih =>
      obtain ⟨d', k', hl⟩ := h.step halong.1
      rw [CallerSystem.line, h.lineAfter_eq halong.1 hl ha]
      exact ih hl.watched (h.accounts halong.1 hl ha) halong.2

/-- From when the worker has stopped up to the look of the shutdown, entries only go if they
are removed. -/
theorem run_entries (h : Watched g s d k) (hclosed : s.running.cache.closed = true)
    (hstopped : s.running.hasStopped = true) (halong : Along g.step Reserved s events)
    (hflushes : (run g.step s events).flushes e = true) : (run g.step s events).entries
      = s.entries.filter fun x => !events.any fun e => e.removes x.id := by
  induction events generalizing s d k with
  | nil =>
      refine (List.filter_eq_self.2 fun x _ => ?_).symm
      rfl
  | cons e' events ih =>
      obtain ⟨d', k', hl⟩ := h.step halong.1
      have hlooked : k'.hasLooked = false := by
        rw [← Bool.not_eq_true]
        intro hlooked
        obtain ⟨_, _, hwatched, hlooked, -⟩ := hl.watched.run_of_hasLooked hlooked halong.2
        have hnot := hwatched.not_flushes_of_hasLooked hlooked e
        rw [← run_cons, hflushes] at hnot
        cases hnot
      have hclosed' : (g.step s e').running.cache.closed = true := by
        rw [hl.watched.running.closed, hl.watched.under]
        exact closer_step (by rw [← h.under, ← h.running.closed, hclosed])
      rw [run_cons, ih hl.watched hclosed' (hl.stops hclosed hstopped) halong.2 hflushes,
        h.entries_of_hasStopped halong.1 hl hclosed hstopped hlooked, List.filter_filter]
      refine List.filter_congr fun x _ => ?_
      rw [List.any_cons, Bool.not_or, Bool.and_comm]

end Watched

/-! ## Shutdowns -/

/-- Whether the shutdown of a caller has ended without a failure. -/
def hasShutDown (s : WithCallers) (n : Nat) : Bool :=
  match s.callers[n]? with
  | some ⟨.shutdown, .done (.ok _)⟩ => true
  | _ => false

namespace CallerSystem

/-- The entries after some events are all that is to be flushed. -/
structure FlushesAll (g : CallerSystem) (before : List Event) : Prop where
  closed : (run g.step g.start before).running.cache.closed = true
  stopped : (run g.step g.start before).running.hasStopped = true
  /-- They are the entries that were there when the worker had stopped, but for those that were
  removed since. -/
  left : ∀ first second, before = first ++ second →
    (run g.step g.start first).running.cache.closed = true →
    (run g.step g.start first).running.hasStopped = true →
    (run g.step g.start before).entries = (run g.step g.start first).entries.filter
      fun x => !second.any fun e => e.removes x.id
  nodup : (run g.step g.start before).ids.Nodup
  /-- They are in the order of their admission. -/
  ordered : (run g.step g.start before).ids = g.line g.start [] before
  /-- They have the records that were admitted last. -/
  latest : ∀ x ∈ (run g.step g.start before).entries,
    (run g.step g.start before).admitted x.id = some x.2

/-- What the first shutdown makes of a cache by some events. -/
structure ShutsDown (g : CallerSystem) (events : List Event) : Prop where
  /-- Once the cache was closed, every admission is refused. -/
  refuses : ∀ before after, events = before ++ after →
    (run g.step g.start before).running.cache.closed = true →
    (run g.step g.start events).running.RefusesAll
  /-- Callers hand no batch to the backend before a shutdown has looked at what is to be
  flushed. -/
  unflushed : (∀ before e after, events = before ++ e :: after →
    (run g.step g.start before).flushes e = false) → (run g.step g.start events).flushed = []
  /-- What there is then is flushed, in one batch, or in none if there is nothing. -/
  flushed : ∀ before e after, events = before ++ e :: after →
    (run g.step g.start before).flushes e = true →
    g.FlushesAll before ∧ (run g.step g.start events).flushed = (run g.step g.start before).toFlush
  /-- When it has ended without a failure, nothing is cached, and all that was admitted and not
  removed since is stored. -/
  ended : ∀ n, (run g.step g.start events).closer = some n →
    (run g.step g.start events).hasShutDown n = true →
    (run g.step g.start events).running.cache.contents.Vacant ∧
      ∀ id r, (run g.step g.start events).admitted id = some r →
        (run g.step g.start events).stored id = some r

end CallerSystem

namespace Watched

variable {events : List Event}

theorem isUnder_of_closed (h : Watched g s d k) (hclosed : s.running.cache.closed = true) :
    s.closer.isSome = true := by
  rw [← h.under, ← h.running.closed, hclosed]

/-- A cache that was closed refuses whatever is offered. -/
theorem refusesAll (h : Watched g s d k) (ha : s.Accounts d k)
    (hclosed : s.running.cache.closed = true)
    (halong : Along g.step Reserved s events) : (run g.step s events).running.RefusesAll := by
  obtain ⟨d', k', h', -⟩ := h.along_run ha halong
  have hcloser : (run g.step s events).closer.isSome = true :=
    run_induction (Q := fun s => s.closer.isSome = true) halong (h.isUnder_of_closed hclosed)
      fun s e hs _ => closer_step hs
  refine Running.refusesAll_of_closed ?_
  rw [h'.running.closed, h'.under, hcloser]

/-- When the shutdown has ended without a failure, its closing has succeeded. -/
theorem eq_succeeded {n : Nat} (h : Watched g s d k) (hn : s.closer = some n)
    (hdone : s.hasShutDown n = true) : k = .succeeded := by
  obtain ⟨program, hc, hobeys⟩ := h.closer n hn
  simp only [hasShutDown, hc] at hdone
  split at hdone
  next hprogram =>
    cases hprogram
    cases hobeys with
    | succeeded => rfl
    | late =>
        have hunder := h.under
        rw [hn] at hunder
        cases hunder
  next => cases hdone

/-- When the closing has succeeded, everything that was admitted and not removed is stored. -/
theorem stored_of_succeeded (h : Watched g s d .succeeded) (ha : s.Accounts d .succeeded)
    {id : EntryId} {r : Record} (hr : s.admitted id = some r) : s.stored id = some r := by
  obtain ⟨calls, ha⟩ := ha
  obtain ⟨version, first, hkept⟩ := ha.kept id r hr
  have hslots : s.running.cache.contents.slots.candidates = [] := (h.running.vacant rfl).slots
  refine (hkept.dropped fun c hc => ?_).1
  have hc : c ∈ s.running.cache.contents.slots.candidates := hc
  rw [hslots] at hc
  cases hc

/-- The look of a shutdown finds everything that is to be flushed. -/
theorem flushesAll {before : List Event} (hbefore : Along g.step Reserved g.start before)
    (hflushes : (run g.step g.start before).flushes e = true) : g.FlushesAll before := by
  obtain ⟨d, k, h, ha⟩ := (Watched.start g).along_run (accounts_start g) hbefore
  obtain rfl := h.eq_looking hflushes
  refine ⟨h.running.closed, h.running.stopped rfl, fun first second heq hclosed hstopped => ?_, ?_,
    ?_, fun x hx => ?_⟩
  · subst heq
    obtain ⟨hfirst, hsecond⟩ := along_append.1 hbefore
    obtain ⟨d', k', h', -⟩ := (Watched.start g).along_run (accounts_start g) hfirst
    rw [run_append] at hflushes ⊢
    exact h'.run_entries hclosed hstopped hsecond hflushes
  · have hnodup := h.running.sound.contents.slots.nodup_ids
    rw [Slots.toList, List.map_map] at hnodup
    rw [ids_eq]
    exact hnodup
  · exact ((Watched.start g).run_line (accounts_start g) hbefore).symm
  · obtain ⟨c, hc, rfl⟩ := List.mem_map.1 hx
    obtain ⟨calls, ha⟩ := ha
    exact ha.slots c hc

end Watched

/-- Let callers begin no batch, but for the one that closes the cache, and let nobody else write
to the backend.  Then the shutdown has everything flushed that is cached when the worker has
stopped, at once, and after it nothing is admitted.  If it ends without a failure, then nothing
is cached any more, and the backend stores all that was admitted and not removed since. -/
theorem shutsDown (g : CallerSystem) (events : List Event)
    (halong : Along g.step Reserved g.start events) : g.ShutsDown events where
  refuses before after heq hclosed := by
    subst heq
    obtain ⟨hbefore, hafter⟩ := along_append.1 halong
    obtain ⟨d, k, h, ha⟩ := (Watched.start g).along_run (accounts_start g) hbefore
    rw [run_append]
    exact h.refusesAll ha hclosed hafter
  unflushed hnot := (Watched.start g).run_of_not_flushes rfl halong hnot
  flushed before e after heq hflushes := by
    subst heq
    obtain ⟨hbefore, hafter⟩ := along_append.1 halong
    obtain ⟨d, k, h, -⟩ := (Watched.start g).along_run (accounts_start g) hbefore
    rw [run_append]
    exact ⟨Watched.flushesAll hbefore hflushes, h.run_of_flushes hflushes hafter⟩
  ended n hn hdone := by
    obtain ⟨d, k, h, ha⟩ := (Watched.start g).along_run (accounts_start g) halong
    obtain rfl := h.eq_succeeded hn hdone
    exact ⟨h.running.vacant rfl, fun id r hr => h.stored_of_succeeded ha hr⟩

/-- A shutdown comes while the worker writes an entry and has been asked for another pass.  An
entry that is offered then is refused, and the one that the worker does not get to is flushed. -/
def closedMeanwhile : List Event :=
  [.call .init, .go .worker 0, .offer (.hash [1]) (.ofBytes .transaction [1]),
    .go (.caller 0) 0, .go (.caller 0) 0, .go .worker 0, .go .worker 0, .go .worker 0,
    .go .worker 0, .offer (.hash [2]) (.ofBytes .transaction [2]), .go (.caller 1) 0,
    .go (.caller 1) 0, .begin .shutdown, .go (.caller 2) 0,
    .offer (.hash [3]) (.ofBytes .transaction [3]), .go (.caller 2) 0, .answer .worker .done,
    .go .worker 0, .go .worker 0, .go .worker 0, .take .stop 0, .go .worker 0, .go (.caller 2) 0,
    .go (.caller 2) 0, .answer (.caller 2) .done, .go (.caller 2) 0, .go (.caller 2) 0]

theorem shutsDown_closedMeanwhile :
    CallerSystem.single.ShutsDown closedMeanwhile ∧
      (run CallerSystem.single.step CallerSystem.single.start closedMeanwhile).flushed
        = [[(.hash [2], .ofBytes .transaction [2])]] ∧
      (run CallerSystem.single.step CallerSystem.single.start closedMeanwhile).closer = some 2 ∧
      (run CallerSystem.single.step CallerSystem.single.start closedMeanwhile).hasShutDown 2
        = true := by
  have halong : Along CallerSystem.single.step Reserved CallerSystem.single.start
      closedMeanwhile := by
    decide +kernel
  exact ⟨shutsDown CallerSystem.single closedMeanwhile halong, by decide +kernel, by decide +kernel,
    by decide +kernel⟩

end WithCallers

end Cache

end RecordStore
