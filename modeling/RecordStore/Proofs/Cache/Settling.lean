import RecordStore.Proofs.Cache.Dealings
import RecordStore.Proofs.Worker

/-!
# A cache settles below its number

Admission never waits, so a cache may grow beyond the number of entries it is meant to hold.
When the worker rests, its queue is empty and no admission is half done, it has got back below
that number (`len_lt_of_rests`).

Four things can be the reason why a full cache will not stay full: an admission is about to
note that a pass is requested, or that is noted, or a pass is just about to begin, or one is
under way that leaves few enough slots.  One of them holds at every time (`Running.Settling`).
A pass leaves the slots that it does not know in their present version (`Contents.left`), so an
entry that is replaced meanwhile counts among them.  If admissions bring the slots up to the
number during a pass, then the last of them requests the next pass.  And a noted request is held
by its caller until it is in the queue, and there until the worker takes it up.
-/

namespace RecordStore

namespace Cache

open Service (Prog)

/-! ## Slots that a pass leaves -/

namespace Slots

/-- Slots that are all among those of another are no more. -/
theorem len_le {s t : Slots} (h : ∀ d ∈ s.candidates, d ∈ t.candidates) : s.len ≤ t.len := by
  rw [← length_candidates, ← length_candidates]
  exact (List.subperm_of_subset nodup_candidates h).length_le

end Slots

namespace Contents

variable {c c' : Contents} {p : Pass}

/-- Whether a pass would drop a slot. -/
def isKnown (p : Pass) (d : Candidate) : Bool :=
  p.candidates.any fun e => d.seq == e.seq && d.slot.version == e.slot.version

theorem isKnown_eq_false_iff {d : Candidate} : isKnown p d = false ↔
    ∀ e ∈ p.candidates, ¬(d.seq = e.seq ∧ d.slot.version = e.slot.version) := by
  simp [isKnown]

/-- The number of slots that a pass would leave. -/
def left (c : Contents) (p : Pass) : Nat := c.slots.candidates.countP fun d => !isKnown p d

theorem left_le (h : ∀ d ∈ c'.slots.candidates, d ∈ c.slots.candidates) :
    c'.left p ≤ c.left p := by
  simp only [left, List.countP_eq_length_filter]
  refine (List.subperm_of_subset (Slots.nodup_candidates.filter _) fun d hd => ?_).length_le
  obtain ⟨hd, hknown⟩ := List.mem_filter.1 hd
  exact List.mem_filter.2 ⟨h d hd, hknown⟩

/-- A pass that drops what it wrote leaves what it said it would. -/
theorem len_dropAllWritten (c : Contents) (p : Pass) :
    (c.dropAllWritten p.candidates).2.slots.len = c.left p := by
  have hlist : (c.dropAllWritten p.candidates).2.slots.candidates
      = c.slots.candidates.filter fun d => !isKnown p d := by
    refine Slots.eq_of_pairwise Slots.pairwise_candidates
      (Slots.pairwise_candidates.filter _) fun d => ?_
    rw [mem_slots_dropAllWritten, List.mem_filter, Bool.not_eq_true', isKnown_eq_false_iff]
  rw [← Slots.length_candidates, hlist, left, List.countP_eq_length_filter]

/-- A pass over the oldest slots leaves no more than the others. -/
theorem left_oldest (c : Contents) (batch count : Nat) :
    c.left ⟨batch, c.slots.oldest count⟩ ≤ c.slots.len - count := by
  have hself : ∀ d ∈ c.slots.candidates.take count,
      (!isKnown ⟨batch, c.slots.oldest count⟩ d) = false := by
    intro d hd
    simp only [isKnown, Bool.not_eq_false', List.any_eq_true]
    exact ⟨d, hd, by simp⟩
  calc c.left ⟨batch, c.slots.oldest count⟩
      = (c.slots.candidates.take count ++ c.slots.candidates.drop count).countP
          fun d => !isKnown ⟨batch, c.slots.oldest count⟩ d := by
        rw [List.take_append_drop, left]
    _ ≤ (c.slots.candidates.drop count).length := by
        rw [List.countP_append, List.countP_eq_zero.2 fun d hd => by simp [hself d hd],
          Nat.zero_add]
        exact List.countP_le_length
    _ = c.slots.len - count := by rw [List.length_drop, Slots.length_candidates]

end Contents

/-- An eviction takes so much that less than the number is left. -/
theorem sub_evictionCount_lt {maxSize len : Nat} (hmax : 0 < maxSize) (hfull : maxSize ≤ len) :
    len - evictionCount maxSize len < maxSize := by
  simp only [evictionCount]
  omega

/-- In a full cache an eviction pass begins, and it leaves less than the number. -/
theorem beginEviction_of_isFull {c : Cache} (hmax : 0 < c.maxSize) (hfull : c.isFull = true) :
    ∃ p, c.beginEviction = (some p, { c with
        contents := (c.contents.begin (p.candidates.map (·.slot))).2 }) ∧
      c.contents.left p < c.maxSize := by
  have hlen : c.maxSize ≤ c.contents.slots.len := of_decide_eq_true hfull
  exact ⟨_, beginEviction_eq hmax hfull,
    Nat.lt_of_le_of_lt (c.contents.left_oldest _ _) (sub_evictionCount_lt hmax hlen)⟩

/-! ## Changes that matter little -/

namespace Running

/-- The worker of a cache that was started lasts, and the cache gives it tasks. -/
structure Lasting (r : Running) : Prop where
  interval : 1 ≤ r.retryInterval
  worker : ∀ w, r.worker = some w → r.attached = true ∧ w.Lasting

/-- Slots may have gone, and tasks may have come. -/
structure Eases (r r' : Running) : Prop where
  slots : ∀ d ∈ r'.cache.contents.slots.candidates, d ∈ r.cache.contents.slots.candidates
  sound : r.cache.contents.slots.Sound → r'.cache.contents.slots.Sound
  maxSize : r'.cache.maxSize = r.cache.maxSize
  requested : r'.requested = r.requested
  lasting : r'.Lasting
  queue : ∀ w, r.worker = some w → ∃ w', r'.worker = some w' ∧ ∀ t ∈ w.queue, t ∈ w'.queue

variable {r : Running}

/-- A change of the cache by which slots may go. -/
theorem Lasting.withCache (h : r.Lasting) {cache : Cache}
    (hslots : ∀ d ∈ cache.contents.slots.candidates, d ∈ r.cache.contents.slots.candidates)
    (hsound : r.cache.contents.slots.Sound → cache.contents.slots.Sound)
    (hmax : cache.maxSize = r.cache.maxSize) : r.Eases { r with cache } :=
  ⟨hslots, hsound, hmax, rfl, ⟨h.interval, h.worker⟩, fun w hw => ⟨w, hw, fun _ ht => ht⟩⟩

/-- A change of the cache that is none of the slots. -/
theorem Lasting.withSlots (h : r.Lasting) {cache : Cache}
    (hslots : cache.contents.slots = r.cache.contents.slots)
    (hmax : cache.maxSize = r.cache.maxSize) : r.Eases { r with cache } :=
  h.withCache (fun _ hd => hslots ▸ hd) (fun hs => hslots ▸ hs) hmax

theorem Lasting.refl (h : r.Lasting) : r.Eases r := h.withSlots rfl rfl

/-- A change of the worker that keeps its queue. -/
theorem Lasting.withWorker (h : r.Lasting) {w w' : Worker Task} (hw : r.worker = some w)
    (hlasting : w'.Lasting) (hqueue : ∀ t ∈ w.queue, t ∈ w'.queue) :
    r.Eases { r with worker := some w' } := by
  refine ⟨fun _ hd => hd, fun hs => hs, rfl, rfl, ⟨h.interval, fun u hu => ?_⟩, fun u hu => ?_⟩
  · cases hu
    exact ⟨(h.worker w hw).1, hlasting⟩
  · rw [hw] at hu
    cases hu
    exact ⟨w', rfl, hqueue⟩

theorem Lasting.start (h : r.Lasting) : r.Eases r.start.2 := by
  simp only [Running.start]
  split
  · exact h.refl
  · split
    · exact h.refl
    next hattached =>
      refine ⟨fun _ hd => hd, fun hs => hs, rfl, rfl, ⟨h.interval, fun w hw => ?_⟩, fun w hw => ?_⟩
      · cases hw
        exact ⟨rfl, .create _ h.interval⟩
      · exact absurd (h.worker w hw).1 (by simpa using hattached)

theorem contents_get (c : Cache) (id : EntryId) :
    (c.get id).2.contents = c.contents ∧ (c.get id).2.maxSize = c.maxSize := by
  simp only [Cache.get]
  split <;> exact ⟨rfl, rfl⟩

/-- A call that admits nothing. -/
theorem Lasting.perform (h : r.Lasting) (hs : r.cache.contents.slots.Sound) {call : Call}
    (hcall : WithCallers.isPlain call = true) : r.Eases (r.perform call).2 := by
  cases call with
  | init => exact h.start
  | save | saveBatch | update | deleteBatch | shutdown => cases hcall
  | get kind key =>
      obtain ⟨hcontents, hmax⟩ := contents_get r.cache ⟨kind, key⟩
      exact h.withSlots (congrArg Contents.slots hcontents) hmax
  | seek kind raw =>
      obtain ⟨hcontents, hmax⟩ := contents_get r.cache ⟨kind, .ofRaw kind raw⟩
      exact h.withSlots (congrArg Contents.slots hcontents) hmax
  | delete kind key =>
      refine h.withCache (fun d hd => ((Contents.mem_slots_remove hs).1 hd).1) (fun hs => ?_) rfl
      show (r.cache.contents.remove ⟨kind, key⟩).slots.Sound
      rw [Contents.slots_remove]
      exact hs.remove _
  | clear kind =>
      refine h.withCache (fun d hd => ((Contents.mem_slots_removeKind hs).1 hd).1)
        (fun hs => ?_) rfl
      show (r.cache.contents.removeKind kind).slots.Sound
      rw [Contents.slots_removeKind]
      exact hs.removeKind kind
  | has | mayHave | first | latest | next | previous | keysStartingWith | keysMissingFrom
  | loadAllKeys | count | clearMetadata => exact h.withSlots rfl rfl

theorem Lasting.dropWritten (h : r.Lasting) (candidates : List Candidate) :
    r.Eases { r with cache := (r.cache.dropWritten candidates).2 } := by
  refine h.withCache (fun d hd => ?_) (fun hs => ?_) rfl
  · simp only [Cache.dropWritten, Contents.slots_rebuild] at hd
    exact (Contents.mem_slots_dropAllWritten.1 hd).1
  · simp only [Cache.dropWritten, Contents.slots_rebuild]
    exact Contents.slots_dropAllWritten_sound hs

theorem Lasting.beginPass (h : r.Lasting) (candidates : List Candidate) :
    r.Eases { r with cache := (r.cache.beginPass candidates).2 } := by
  simp only [Cache.beginPass]
  split
  · exact h.refl
  · exact h.withSlots rfl rfl

theorem Lasting.submit (h : r.Lasting) (caller : Nat) (task : Task) :
    r.Eases (r.submit? caller task).2 := by
  cases hw : r.worker with
  | none =>
      rw [r.submit?_of_none hw]
      exact h.refl
  | some w =>
      rw [r.submit?_of_worker hw]
      obtain ⟨hlasting, hqueue⟩ := (h.worker w hw).2.submit caller task
      exact h.withWorker hw hlasting hqueue

/-- Tickets and replies have no part in the work of the worker. -/
theorem Lasting.withReplies (h : r.Lasting) (nextTicket : Nat)
    (replies : List (Nat × Except Error Nat)) : r.Eases { r with nextTicket, replies } :=
  ⟨fun _ hd => hd, fun hs => hs, rfl, rfl, ⟨h.interval, h.worker⟩,
    fun w hw => ⟨w, hw, fun _ ht => ht⟩⟩

theorem Lasting.await (h : r.Lasting) (ticket : Nat) : r.Eases (r.await? ticket).2 := by
  rcases r.snd_await?_cases ticket with hawait | hawait <;> rw [hawait]
  · exact h.withReplies _ _
  · exact h.refl

/-- What callers ask has no part in the work of the worker, but for requests of passes. -/
theorem Lasting.visit (h : r.Lasting) (caller now : Nat) {st : Stage} {q : Request}
    {state : Reply q → Stage} (hasks : Stage.Asks st q state) (hq : q.isNotice = false) :
    r.Eases (r.reply? caller now q).2 := by
  cases hasks with
  | evict =>
      show r.Eases { r with cache := r.cache.beginEviction.2 }
      simp only [Cache.beginEviction]
      split
      · exact h.beginPass _
      · exact h.refl
  | flush => exact h.beginPass _
  | drop p => exact h.dropWritten p.candidates
  | pass hafter hpass =>
      cases hpass with
      | save p => exact h.refl
      | finish p written => exact h.withSlots rfl rfl
      | delete p written ids => exact h.refl
  | aside herrand =>
      cases q with
      | noteRequest | queueRequest | withdrawRequest => cases hq
      | isClosed | isAttached => exact h.refl
      | newTicket => exact h.withReplies _ _
      | failEviction => exact h.withSlots rfl rfl
      | submit task => exact h.submit caller task
      | await ticket => exact h.await ticket
      | _ => cases herrand

end Running

/-! ## Why a full cache does not stay full -/

/-- The pass that is going to drop its candidates, if its calls on the backend succeed. -/
def Stage.promised? : Stage → Option Pass
  | saving p | dropping p => some p
  | finishing p written | deleting p written _ => if written then some p else none
  | resting => none

def Duty.promised? : Duty → Option Pass
  | passing st => st.promised?
  | _ => none

namespace Running

/-- A reason why a cache gets below its number, when some callers are due to request a pass. -/
inductive Settles (r : Running) (due : Nat) : Duty → Prop where
  /-- It is below. -/
  | below {d : Duty} (h : r.cache.len < r.cache.maxSize) : Settles r due d
  | due {d : Duty} (h : 0 < due) : Settles r due d
  | requested {d : Duty} (h : r.requested = true) : Settles r due d
  | clearing : Settles r due .clearing
  | looking : Settles r due .looking
  /-- A pass is under way that leaves less than the number. -/
  | passing {d : Duty} (p : Pass) (hp : d.promised? = some p)
      (hleft : r.cache.contents.left p < r.cache.maxSize) : Settles r due d

/-- What holds of a cache and what its worker is about, while no call on the backend fails and
no request for a pass is turned away.  Some callers are due to request a pass, and some hold a
request. -/
structure Settling (config : Config) (r : Running) (d : Duty) (due held : Nat) : Prop where
  lasting : r.Lasting
  sound : r.cache.contents.slots.Sound
  maxSize : r.cache.maxSize = config.maxEntries
  stays : d ≠ .stopping ∧ d ≠ .gone
  started : 0 < due + held → r.worker.isSome = true
  /-- A requested pass is held by a caller, or in the queue, or it has just been taken up. -/
  queued : r.requested = true →
    d = .clearing ∨ (∃ w, r.worker = some w ∧ Task.evict ∈ w.queue) ∨ 0 < held
  settles : r.Settles due d

/-- Whether a request for a pass would be refused, since the queue has no room. -/
def turnsAway (r : Running) : Bool :=
  r.attached && r.worker.any fun w =>
    match (w.trySubmit Task.evict).1 with
    | .error .full => true
    | _ => false

namespace Settling

variable {config : Config} {d : Duty} {r r' : Running} {due held : Nat}

theorem start (hretry : 1 ≤ config.retryInterval) :
    Settling config (.ofConfig config) .fresh 0 0 where
  lasting := ⟨hretry, fun w hw => by cases hw⟩
  sound := Slots.sound_empty
  maxSize := rfl
  stays := ⟨nofun, nofun⟩
  started := nofun
  queued h := by cases h
  settles := .below (Nat.lt_of_lt_of_le Nat.one_pos (Nat.le_max_left _ _))

theorem maxSize_pos (h : Settling config r d due held) : 0 < r.cache.maxSize := by
  rw [h.maxSize]
  exact Nat.lt_of_lt_of_le Nat.one_pos (Nat.le_max_left _ _)

theorem ease (h : Settling config r d due held) (he : r.Eases r') :
    Settling config r' d due held where
  lasting := he.lasting
  sound := he.sound h.sound
  maxSize := he.maxSize.trans h.maxSize
  stays := h.stays
  started hpos := by
    obtain ⟨w, hw⟩ := Option.isSome_iff_exists.1 (h.started hpos)
    obtain ⟨w', hw', -⟩ := he.queue w hw
    rw [hw']
    rfl
  queued hrequested := by
    refine (h.queued (he.requested ▸ hrequested)).imp id (Or.imp_left ?_)
    rintro ⟨w, hw, hevict⟩
    obtain ⟨w', hw', hqueue⟩ := he.queue w hw
    exact ⟨w', hw', hqueue _ hevict⟩
  settles := by
    cases h.settles with
    | below hlen =>
        refine .below (Nat.lt_of_le_of_lt (Slots.len_le he.slots) ?_)
        rw [he.maxSize]
        exact hlen
    | due hdue => exact .due hdue
    | requested hrequested => exact .requested (he.requested.trans hrequested)
    | clearing => exact .clearing
    | looking => exact .looking
    | passing p hp hleft =>
        refine .passing p hp (Nat.lt_of_le_of_lt (Contents.left_le he.slots) ?_)
        rw [he.maxSize]
        exact hleft

/-- The worker gets to something else.  What it was about was no reason, or the new one is. -/
theorem turn (h : Settling config r d due held) {d' : Duty} (hstays : d' ≠ .stopping ∧ d' ≠ .gone)
    (hclearing : d ≠ .clearing) (hsettles : r.Settles due d') : Settling config r d' due held where
  lasting := h.lasting
  sound := h.sound
  maxSize := h.maxSize
  stays := hstays
  started := h.started
  queued hrequested := (h.queued hrequested).elim (fun hd => absurd hd hclearing) Or.inr
  settles := hsettles

theorem settles_of_not (h : Settling config r d due held) {d' : Duty} (hclearing : d ≠ .clearing)
    (hlooking : d ≠ .looking) (hpromised : ∀ p, d.promised? = some p → d'.promised? = some p) :
    r.Settles due d' := by
  cases h.settles with
  | below hlen => exact .below hlen
  | due hdue => exact .due hdue
  | requested hrequested => exact .requested hrequested
  | clearing => exact absurd rfl hclearing
  | looking => exact absurd rfl hlooking
  | passing p hp hleft => exact .passing p (hpromised p hp) hleft

/-- The worker goes on to another duty, and what it has promised stays promised. -/
theorem turn_of_not (h : Settling config r d due held) {d' : Duty}
    (hstays : d' ≠ .stopping ∧ d' ≠ .gone) (hclearing : d ≠ .clearing) (hlooking : d ≠ .looking)
    (hpromised : ∀ p, d.promised? = some p → d'.promised? = some p) :
    Settling config r d' due held :=
  h.turn hstays hclearing (h.settles_of_not hclearing hlooking hpromised)

/-- A record is offered.  If that leaves the cache full, then another caller is due to request a
pass. -/
theorem receive (h : Settling config r d due held) (key : Key) (record : Record)
    (hstarted : (r.receive key record).1.1 = true → r.worker.isSome = true) :
    Settling config (r.receive key record).2 d (due + (r.receive key record).1.2.toNat) held := by
  rcases offer_cases r.cache key record with ⟨-, hr⟩ | ⟨-, hr⟩
  · have hsound : (r.cache.contents.put key record).slots.Sound := by
      rw [Contents.slots_put]
      exact h.sound.insert key record
    simp only [Running.receive, hr, Bool.true_and, forall_const] at hstarted ⊢
    refine ⟨⟨h.lasting.interval, h.lasting.worker⟩, hsound, h.maxSize, h.stays,
      fun _ => hstarted, h.queued, ?_⟩
    generalize hcache : ({ r.cache with
      contents := r.cache.contents.put key record
      counters := r.cache.counters.addAdmission } : Cache) = cache
    cases hfull : cache.isFull with
    | true => exact .due (Nat.lt_add_left due Nat.one_pos)
    | false => exact .below (by simpa [isFull] using hfull)
  · simp only [Running.receive, hr, Bool.false_and]
    exact h.ease (h.lasting.withSlots rfl rfl)

/-- A caller notes that a pass is requested.  It holds the request, unless there was one. -/
theorem note (h : Settling config r d (due + 1) held) :
    Settling config r.noteRequest.2 d due (held + (!r.requested).toNat) where
  lasting := ⟨h.lasting.interval, h.lasting.worker⟩
  sound := h.sound
  maxSize := h.maxSize
  stays := h.stays
  started _ := h.started (by omega)
  queued _ := by
    cases hrequested : r.requested with
    | true => exact h.queued hrequested
    | false => exact Or.inr (Or.inr (Nat.lt_add_left held Nat.one_pos))
  settles := .requested rfl

/-- A caller puts the request that it holds into the queue, where there is room. -/
theorem queue (h : Settling config r d due (held + 1)) (hroom : r.turnsAway = false) :
    r.queueRequest.1 = true ∧ Settling config r.queueRequest.2 d due held := by
  obtain ⟨w, hw⟩ := Option.isSome_iff_exists.1 (h.started (Nat.lt_add_left due (Nat.succ_pos held)))
  obtain ⟨hattached, hw'⟩ := h.lasting.worker w hw
  have hfree : w.waiting.length < w.room := by
    by_contra hfull
    simp [turnsAway, hattached, hw, Worker.trySubmit, hw'.running, hfull] at hroom
  have hqueue : r.queueRequest
      = (true, { r with worker := some { w with queue := w.queue ++ [Task.evict] } }) := by
    simp [queueRequest, hattached, hw, Worker.trySubmit, hw'.running, hfree]
  rw [hqueue]
  have hlasting : Worker.Lasting { w with queue := w.queue ++ [Task.evict] } :=
    ⟨hw'.goesOn, hw'.running, hw'.period⟩
  have heased := h.ease (h.lasting.withWorker hw hlasting fun _ ht => List.mem_append_left _ ht)
  exact ⟨rfl, heased.lasting, heased.sound, heased.maxSize, heased.stays, fun _ => rfl,
    fun _ => Or.inr (Or.inl ⟨_, rfl, by simp⟩), heased.settles⟩

/-- A caller goes on with something that is not about the note. -/
theorem aside {st : Stage} {q : Request} {stages : Reply q → Stage}
    (h : Settling config r d due held)
    (hstage : Stage.Asks st q stages) (hq : q.isNotice = false) (caller now : Nat) :
    (∀ a r', r.reply? caller now q = (some a, r') → Settling config r' d due held) ∧
      ∀ r', r.reply? caller now q = (none, r') → Settling config r' d due held := by
  have h' := h.ease (h.lasting.visit caller now hstage hq)
  refine ⟨fun a r' hr => ?_, fun r' hr => ?_⟩ <;> rw [hr] at h' <;> exact h'

/-- A caller goes on, whose requests for passes are accepted. -/
theorem deal {k : Dealing} {st : Stage} {q : Request} {stages : Reply q → Stage}
    {state : Reply q → Dealing} (h : Settling config r d (due + k.isDue.toNat)
      (held + k.holds.toNat))
    (hstage : Stage.Asks st q stages) (hdeals : Errand.Asks k q state) (hne : k ≠ .refused)
    (hroom : q = .queueRequest → r.turnsAway = false) (caller now : Nat) :
    (∀ a r', r.reply? caller now q = (some a, r') → state a ≠ .refused ∧
      Settling config r' d (due + (state a).isDue.toNat) (held + (state a).holds.toNat)) ∧
    ∀ r', r.reply? caller now q = (none, r') →
      Settling config r' d (due + k.isDue.toNat) (held + k.holds.toNat) := by
  cases hdeals with
  | note =>
      refine ⟨fun a r' hr => ?_, fun r' hr => by cases hr⟩
      obtain ⟨rfl, rfl⟩ : r.noteRequest.1 = a ∧ r.noteRequest.2 = r' := by simpa [reply?] using hr
      have hnoted := h.note
      have hfst : r.noteRequest.1 = r.requested := rfl
      cases hrequested : r.requested <;> rw [hrequested] at hnoted hfst <;> rw [hfst] <;>
        exact ⟨by simp, hnoted⟩
  | queue =>
      refine ⟨fun a r' hr => ?_, fun r' hr => by cases hr⟩
      obtain ⟨rfl, rfl⟩ : r.queueRequest.1 = a ∧ r.queueRequest.2 = r' := by simpa [reply?] using hr
      obtain ⟨haccepted, hqueued⟩ := h.queue (hroom rfl)
      rw [haccepted]
      exact ⟨by simp, hqueued⟩
  | withdraw => exact absurd rfl hne
  | apart hq =>
      have hnotice : q.isNotice = false := by
        cases q with
        | noteRequest | queueRequest | withdrawRequest => cases hq
        | _ => rfl
      exact (h.aside hstage hnotice caller now).imp_left fun hsome a r' hr =>
        ⟨by simp, hsome a r' hr⟩
  | detach | draw | submit | await =>
      exact (h.aside hstage rfl caller now).imp_left fun hsome a r' hr =>
        ⟨by simp, hsome a r' hr⟩

/-- The worker takes up an event. -/
theorem take (h : Settling config r .free due held) {w : Worker Task} (hw : r.worker = some w)
    {e : Worker.Event Task} {now : Nat} (he : e ∈ w.ready now) :
    Settling config { r with worker := some (w.take now e) } (.ofEvent e) due held := by
  have hw' := (h.lasting.worker w hw).2
  have hlasting : Lasting { r with worker := some (w.take now e) } := by
    refine ⟨h.lasting.interval, fun u hu => ?_⟩
    cases hu
    exact ⟨(h.lasting.worker w hw).1, hw'.take now e⟩
  have hsettles : ∀ {d : Duty}, Settles { r with worker := some (w.take now e) } due d := by
    intro d
    cases h.settles with
    | below hlen => exact .below hlen
    | due hdue => exact .due hdue
    | requested hrequested => exact .requested hrequested
    | passing p hp => cases hp
  have hevict : r.requested = true → Task.evict ∈ w.queue ∨ 0 < held := by
    intro hrequested
    rcases h.queued hrequested with hd | ⟨u, hu, hmem⟩ | hheld
    · cases hd
    · rw [hw] at hu
      cases hu
      exact Or.inl hmem
    · exact Or.inr hheld
  have hstays : Duty.ofEvent e ≠ .stopping ∧ Duty.ofEvent e ≠ .gone := by
    cases e with
    | stop => exact absurd he (hw'.stop_not_ready now)
    | tick => exact ⟨nofun, nofun⟩
    | task t => cases t <;> exact ⟨nofun, nofun⟩
  refine ⟨hlasting, h.sound, h.maxSize, hstays, fun _ => rfl, fun hrequested => ?_, hsettles⟩
  rcases hevict hrequested with hmem | hheld
  · -- a request in the queue is taken up, or it stays there
    cases e with
    | stop | tick => exact Or.inr (Or.inl ⟨_, rfl, hmem⟩)
    | task t =>
        rw [Worker.queue_of_ready he] at hmem
        rcases List.mem_cons.1 hmem with rfl | hmem
        · exact Or.inl rfl
        · exact Or.inr (Or.inl ⟨_, rfl, hmem⟩)
  · exact Or.inr (Or.inr hheld)

/-- What comes of a request of the worker. -/
def Replied (config : Config) (due held : Nat) (r : Running) (d : Duty) (now : Nat) (q : Request)
    (state : Reply q → Duty) : Prop :=
  (∀ a r', r.reply? 0 now q = (some a, r') → Settling config r' (state a) due held) ∧
    ∀ r', r.reply? 0 now q = (none, r') → Settling config r' d due held

theorem Replied.of_some {now : Nat} {q : Request} {state : Reply q → Duty} {a : Reply q}
    (hr : r.reply? 0 now q = (some a, r')) (h : Settling config r' (state a) due held) :
    Replied config due held r d now q state := by
  refine ⟨fun a' r'' hr' => ?_, fun r'' hr' => ?_⟩
  · rw [hr] at hr'
    cases hr'
    exact h
  · rw [hr] at hr'
    cases hr'

theorem Replied.of_none {now : Nat} {q : Request} {state : Reply q → Duty}
    (hr : r.reply? 0 now q = (none, r')) (h : Settling config r' d due held) :
    Replied config due held r d now q state := by
  refine ⟨fun a' r'' hr' => ?_, fun r'' hr' => ?_⟩
  · rw [hr] at hr'
    cases hr'
  · rw [hr] at hr'
    cases hr'
    exact h

/-- The worker waits for an event. -/
theorem nextEvent (h : Settling config r .free due held) (now : Nat) :
    Replied config due held r .free now .nextEvent Duty.ofEvent := by
  cases hw : r.worker with
  | none => exact .of_none (by simp only [reply?, hw]) h
  | some w =>
      have hw' := (h.lasting.worker w hw).2
      rcases w.next_cases now with ⟨e, he, hnext⟩ | hnext
      · exact .of_some (by simp [reply?, hw, hw'.running, hnext]) (h.take hw he)
      · have hr : r.reply? 0 now .nextEvent
            = (none, { r with worker := some { w with phase := .idle } }) := by
          simp [reply?, hw, hw'.running, hnext]
        refine .of_none hr (h.ease ?_)
        exact h.lasting.withWorker hw ⟨hw'.goesOn, rfl, hw'.period⟩ fun t ht => ht

/-- The worker begins a pass, if the cache is full. -/
theorem look (h : Settling config r .looking due held) (now : Nat) :
    Replied config due held r .looking now .beginEviction Duty.ofLook := by
  have hclearing : Duty.looking ≠ .clearing := fun h => by cases h
  have hstays : ∀ p, Duty.ofLook p ≠ .stopping ∧ Duty.ofLook p ≠ .gone := by
    intro p
    constructor <;> intro h <;> cases p <;> cases h
  by_cases hfull : r.cache.isFull = true
  · obtain ⟨p, hp, hleft⟩ := beginEviction_of_isFull h.maxSize_pos hfull
    have hr : r.reply? 0 now .beginEviction = (some (some p), { r with cache := { r.cache with
        contents := (r.cache.contents.begin (p.candidates.map (·.slot))).2 } }) := by
      simp only [reply?, hp]
    have h' : Settling config { r with cache := { r.cache with
        contents := (r.cache.contents.begin (p.candidates.map (·.slot))).2 } } .looking due held :=
      h.ease (h.lasting.withSlots rfl rfl)
    exact .of_some hr (h'.turn (hstays _) hclearing (.passing p rfl hleft))
  · have hr : r.reply? 0 now .beginEviction = (some none, r) := by
      simp [reply?, Cache.beginEviction, hfull]
    refine .of_some hr (h.turn (hstays _) hclearing (.below ?_))
    simpa [isFull] using hfull

/-- The worker drops what it wrote. -/
theorem drop {p : Pass} (h : Settling config r (.passing (.dropping p)) due held) :
    Settling config { r with cache := (r.cache.dropWritten p.candidates).2 } .free due held := by
  have he := h.lasting.dropWritten p.candidates
  refine (h.ease he).turn ⟨nofun, nofun⟩ nofun ?_
  cases h.settles with
  | below hlen => exact .below (Nat.lt_of_le_of_lt (Slots.len_le he.slots) hlen)
  | due hdue => exact .due hdue
  | requested hrequested => exact .requested hrequested
  | passing q hq hleft =>
      cases hq
      refine .below ?_
      show ((r.cache.contents.dropAllWritten p.candidates).2.rebuild _).slots.len < _
      rw [Contents.slots_rebuild, Contents.len_dropAllWritten]
      exact hleft

/-- The worker gets on with a request. -/
theorem reply (h : Settling config r d due held) (now : Nat) {q : Request} {state : Reply q → Duty}
    (hasks : Duty.Asks d q state) : Replied config due held r d now q state := by
  cases hasks with
  | begin =>
      cases hw : r.worker with
      | none => exact .of_none (by simp only [reply?, hw]) h
      | some w =>
          obtain ⟨hlasting, hqueue⟩ := (h.lasting.worker w hw).2.begin now
          have hr : r.reply? 0 now .beginWork
              = (some (), { r with worker := some (w.begin now) }) := by
            simp only [reply?, hw]
          have h' := h.ease (h.lasting.withWorker hw hlasting fun t ht => hqueue ▸ ht)
          refine .of_some hr (h'.turn_of_not ⟨Duty.noConfusion,
            Duty.noConfusion⟩ Duty.noConfusion Duty.noConfusion fun p hp => ?_)
          cases hp
  | next => exact h.nextEvent now
  | reply ticket outcome => exact .of_some rfl (h.ease (h.lasting.withReplies _ _))
  | fail => exact .of_some rfl (h.ease (h.lasting.withSlots rfl rfl))
  | clear =>
      refine .of_some rfl ?_
      exact ⟨⟨h.lasting.interval, h.lasting.worker⟩, h.sound, h.maxSize,
        ⟨Duty.noConfusion, Duty.noConfusion⟩, h.started, Bool.noConfusion, .looking⟩
  | check =>
      refine .of_some rfl ?_
      cases r.cache.isFull with
      | true => exact h.turn ⟨Duty.noConfusion, Duty.noConfusion⟩ Duty.noConfusion .looking
      | false =>
          refine h.turn_of_not ⟨Duty.noConfusion,
            Duty.noConfusion⟩ Duty.noConfusion Duty.noConfusion fun p hp => ?_
          cases hp
  | look => exact h.look now
  | drop p => exact .of_some rfl h.drop
  | finish => exact absurd rfl h.stays.1
  | pass hpass =>
      cases hpass with
      | save p => exact .of_none rfl h
      | delete p written ids => exact .of_none rfl h
      | finish p written =>
          have h' : Settling config { r with cache := (r.cache.finishBatch p.batch).2 }
              (.passing (.finishing p written)) due held := h.ease (h.lasting.withSlots rfl rfl)
          refine .of_some rfl ?_
          simp only [passMarked]
          split
          · cases written with
            | true => exact h'.turn_of_not ⟨Duty.noConfusion,
              Duty.noConfusion⟩ Duty.noConfusion Duty.noConfusion fun q hq => hq
            | false =>
                refine h'.turn_of_not ⟨Duty.noConfusion,
                  Duty.noConfusion⟩ Duty.noConfusion Duty.noConfusion fun q hq => ?_
                cases hq
          · exact h'.turn_of_not ⟨Duty.noConfusion,
            Duty.noConfusion⟩ Duty.noConfusion Duty.noConfusion fun q hq => hq

end Settling

end Running

/-! ## Caches with callers that settle -/

/-- The program of a caller that does not shut the cache down, and whose requests for passes are
accepted. -/
structure Caller.Visits (c : Caller) : Prop where
  stage : ∃ st, c.program.Obeys Stage.Asks (fun st _ => st = .resting) st
  dealing : ∃ d, d ≠ .refused ∧ c.program.Obeys Errand.Asks Errand.Ends d

theorem Errand.outset_ne (errand : Errand) : errand.outset ≠ .refused := by
  cases errand <;> exact nofun

namespace WithCallers

variable {g : CallerSystem} {s : WithCallers}

/-- Whether a caller is about to put a request for a pass into the queue of the worker. -/
def queues (s : WithCallers) (n : Nat) : Bool :=
  match s.asks? (.caller n) with
  | some .queueRequest => true
  | _ => false

/-- What keeps a cache from staying full: a record is admitted only after the cache was started,
and no request for a pass is turned away; callers come to request a pass only after an admission,
and the cache is not shut down; and every call of a pass on the backend succeeds. -/
def Undisturbed (s : WithCallers) : Event → Prop
  | .offer key record =>
      (s.running.receive key record).1.1 = true → s.running.worker.isSome = true
  | .go (.caller n) _ => s.queues n = true → s.running.turnsAway = false
  | .begin errand => errand ≠ .shutdown ∧ errand ≠ .requestPass
  | .answer _ verdict => verdict = .done
  | _ => True

instance (s : WithCallers) : (e : Event) → Decidable (s.Undisturbed e)
  | .offer _ _ | .go (.caller _) _ => inferInstanceAs (Decidable (_ → _))
  | .begin errand => inferInstanceAs (Decidable (errand ≠ .shutdown ∧ errand ≠ .requestPass))
  | .answer _ .done => isTrue rfl
  | .answer _ .refused | .answer _ (.failed _ _) => isFalse nofun
  | .call _ | .own _ | .go .worker _ | .take _ _ => isTrue trivial

/-- Whether the worker is between two tasks. -/
def workerRests (s : WithCallers) : Bool :=
  match s.worker with
  | .done _ | .ask .beginWork _ | .ask .nextEvent _ => true
  | _ => false

/-- Whether an admission is under way: its record is cached, and it is not over with the request
for a pass. -/
def isAdmitting (s : WithCallers) : Bool := s.callers.any fun c => c.isDue || c.holds

/-- The tasks that wait in the queue of the worker. -/
def queue (s : WithCallers) : List Task := (s.running.worker.map (·.queue)).getD []

theorem due_of_isAdmitting (h : s.isAdmitting = false) : s.due = 0 ∧ s.held = 0 := by
  simp only [isAdmitting, List.any_eq_false, Bool.not_eq_true, Bool.or_eq_false_iff] at h
  exact ⟨List.countP_eq_zero.2 fun c hc => by simp [(h c hc).1],
    List.countP_eq_zero.2 fun c hc => by simp [(h c hc).2]⟩

/-- The worker does its duty, the callers go through the stages of their passes, and there is a
reason why the cache gets below its number. -/
structure Settling (config : Config) (s : WithCallers) : Prop where
  worker : ∃ d, s.worker.Obeys Duty.Asks Duty.Ends d ∧
    s.running.Settling config d s.due s.held
  callers : ∀ c ∈ s.callers, c.Visits

namespace Settling

variable {config : Config}

theorem start (hretry : 1 ≤ g.config.retryInterval) : Settling g.config g.start where
  worker := ⟨.fresh, Service.obeys_setOut, .start hretry⟩
  callers c hc := by cases hc

/-- A change of the cache by which slots may go. -/
theorem ease (h : Settling config s) {running : Running}
    (he : ∀ {d due held}, s.running.Settling config d due held → s.running.Eases running)
    (admitted : Records) : Settling config { s with running, admitted } where
  worker := by
    obtain ⟨d, hobeys, hsettling⟩ := h.worker
    exact ⟨d, hobeys, hsettling.ease (he hsettling)⟩
  callers := h.callers

/-- A caller comes that does not shut the cache down. -/
theorem visits_append (h : Settling config s) {callers : List Caller}
    (hcallers : ∀ c ∈ callers, ∃ errand : Errand, errand ≠ .shutdown ∧
      c = ⟨errand, errand.program g.backendName⟩) : ∀ c ∈ s.callers ++ callers, c.Visits := by
  intro c hc
  rcases List.mem_append.1 hc with hold | hnew
  · exact h.callers c hold
  · obtain ⟨errand, herrand, rfl⟩ := hcallers c hnew
    exact ⟨⟨.resting, Errand.obeys_program g.backendName herrand⟩,
      ⟨errand.outset, errand.outset_ne, Errand.obeys_asks g.backendName errand⟩⟩

theorem offer (h : Settling config s) {key : Key} {record : Record}
    (hcalm : s.Undisturbed (.offer key record)) : Settling config (s.offer key record) where
  worker := by
    obtain ⟨d, hobeys, hsettling⟩ := h.worker
    refine ⟨d, hobeys, ?_⟩
    have hdue : (s.offer key record).due
        = s.due + (s.running.receive key record).1.2.toNat := by
      simp only [due, WithCallers.offer, requester, List.countP_append]
      cases (s.running.receive key record).1.2 <;> rfl
    have hheld : (s.offer key record).held = s.held := by
      simp only [held, WithCallers.offer, requester, List.countP_append]
      cases (s.running.receive key record).1.2 <;> rfl
    rw [hdue, hheld]
    exact hsettling.receive key record hcalm
  callers := by
    exact h.visits_append (g := .single) fun c hc =>
      ⟨.requestPass, by simp, s.eq_of_mem_requester hc⟩

theorem goWorker (h : Settling config s) (now : Nat) : Settling config (s.goWorker g now) := by
  obtain ⟨d, hobeys, hsettling⟩ := h.worker
  simp only [WithCallers.goWorker]
  split
  next hw =>
    rw [hw] at hobeys
    cases hobeys
    exact ⟨⟨.free, Service.obeys_work g.backendName, hsettling⟩, h.callers⟩
  next => exact h
  next q next hw =>
    rw [hw] at hobeys
    obtain ⟨state, hasks, hnext⟩ := hobeys
    obtain ⟨hsome, hnone⟩ := hsettling.reply now hasks
    split
    next a running hr => exact ⟨⟨state a, hnext a, hsome a running hr⟩, h.callers⟩
    next running hr =>
      refine ⟨⟨d, ?_, hnone running hr⟩, h.callers⟩
      rw [hw]
      exact ⟨state, hasks, hnext⟩

theorem take (h : Settling config s) (e : Worker.Event Task) (now : Nat) :
    Settling config (s.take e now) := by
  obtain ⟨d, hobeys, hsettling⟩ := h.worker
  simp only [WithCallers.take]
  split
  next next w hworker hw =>
    split
    next hready =>
      rw [hworker] at hobeys
      obtain ⟨state, hasks, hnext⟩ := hobeys
      cases hasks with
      | pass hpass => cases hpass
      | next =>
          rw [Bool.and_eq_true, List.contains_iff_mem] at hready
          exact ⟨⟨.ofEvent e, hnext e, hsettling.take hw hready.2⟩, h.callers⟩
    next => exact h
  next => exact h

theorem answerWorker (h : Settling config s) : Settling config (s.answerWorker .done) := by
  obtain ⟨d, hobeys, hsettling⟩ := h.worker
  simp only [WithCallers.answerWorker]
  split
  next call next hworker =>
    rw [hworker] at hobeys
    obtain ⟨state, hasks, hnext⟩ := hobeys
    cases hasks with
    | pass hpass =>
        cases hpass with
        | save p =>
            refine ⟨⟨_, hnext _, hsettling.turn (by simp) (by simp) ?_⟩, h.callers⟩
            exact hsettling.settles_of_not (by simp) (by simp) fun q hq => hq
        | delete p written ids =>
            refine ⟨⟨_, hnext _, ?_⟩, h.callers⟩
            cases written with
            | true =>
                refine hsettling.turn ⟨fun h => (by cases h), fun h => (by cases h)⟩ (by simp) ?_
                exact hsettling.settles_of_not (by simp) (by simp) fun q hq => hq
            | false =>
                refine hsettling.turn (by simp) (by simp) ?_
                exact hsettling.settles_of_not (by simp) (by simp) fun q hq => by cases hq
  next => exact h

/-- A caller may get to another point of its program, and all others stay as they are. -/
theorem visit (h : Settling config s) {n : Nat} {c : Caller} (hc : s.callers[n]? = some c) :
    ∃ d due held, s.worker.Obeys Duty.Asks Duty.Ends d ∧ s.due = due + c.isDue.toNat ∧
      s.held = held + c.holds.toNat ∧
      s.running.Settling config d (due + c.isDue.toNat) (held + c.holds.toNat) ∧
      ∀ (s' : WithCallers) (c' : Caller), s'.worker = s.worker → s'.callers = s.callers.set n c' →
        c'.Visits →
        s'.running.Settling config d (due + c'.isDue.toNat) (held + c'.holds.toNat) →
        Settling config s' := by
  obtain ⟨d, hobeys, hsettling⟩ := h.worker
  obtain ⟨due, hdue, hdue'⟩ := countP_of_getElem? hc Caller.isDue
  obtain ⟨held, hheld, hheld'⟩ := countP_of_getElem? hc Caller.holds
  rw [WithCallers.due, WithCallers.held, hdue, hheld] at hsettling
  refine ⟨d, due, held, hobeys, hdue, hheld, hsettling, ?_⟩
  intro s' c' hworker hcallers hvisits hsettling'
  refine ⟨⟨d, hworker ▸ hobeys, ?_⟩, fun c hc => ?_⟩
  · rw [WithCallers.due, WithCallers.held, hcallers, hdue', hheld']
    exact hsettling'
  · rw [hcallers] at hc
    rcases List.mem_or_eq_of_mem_set hc with hc | rfl
    · exact h.callers c hc
    · exact hvisits

theorem goCaller (h : Settling config s) {n now : Nat}
    (hroom : s.Undisturbed (.go (.caller n) now)) : Settling config (s.goCaller n now) := by
  simp only [WithCallers.goCaller]
  split
  next errand q next hc =>
    obtain ⟨⟨st, stages, hasks, hstages⟩, k, hne, hdealing⟩ := h.callers _ (List.mem_of_getElem? hc)
    obtain ⟨d, due, held, hobeys, hdue, hheld, hsettling, hvisit⟩ := h.visit hc
    obtain ⟨hisDue, hholds⟩ := Caller.dealing_eq hdealing
    obtain ⟨state, hdeals, hnext⟩ := hdealing
    have hroom' : q = .queueRequest → s.running.turnsAway = false := by
      rintro rfl
      exact hroom (by rw [queues, asks?, hc]; rfl)
    rw [hisDue, hholds] at hsettling
    obtain ⟨hsome, hnone⟩ := hsettling.deal hasks hdeals hne hroom' (n + 1) now
    split
    next a running hr =>
      obtain ⟨hne', hsettling'⟩ := hsome a running hr
      obtain ⟨hisDue', hholds'⟩ := Caller.dealing_eq (c := ⟨errand, next a⟩) (hnext a)
      rw [← hisDue', ← hholds'] at hsettling'
      exact hvisit _ _ rfl rfl ⟨⟨_, hstages a⟩, _, hne', hnext a⟩ hsettling'
    next running hr =>
      refine ⟨⟨d, hobeys, ?_⟩, h.callers⟩
      show running.Settling config d s.due s.held
      rw [hdue, hheld, hisDue, hholds]
      exact hnone running hr
  next => exact h

theorem answerCaller (h : Settling config s) (n : Nat) :
    Settling config (s.answerCaller n .done) := by
  simp only [WithCallers.answerCaller]
  split
  next errand call next hc =>
    obtain ⟨⟨st, stages, hasks, hstages⟩, k, hne, hdealing⟩ := h.callers _ (List.mem_of_getElem? hc)
    obtain ⟨d, due, held, -, -, -, hsettling, hvisit⟩ := h.visit hc
    obtain ⟨hisDue, hholds⟩ := Caller.dealing_eq hdealing
    obtain ⟨state, hdeals, hnext⟩ := hdealing
    cases hdeals with
    | apart hq =>
        have hnext := hnext (Verdict.done.outcome call)
        obtain ⟨hisDue', hholds'⟩ := Caller.dealing_eq (c := ⟨errand, next _⟩) hnext
        rw [hisDue, hholds] at hsettling
        refine hvisit _ _ rfl rfl ⟨⟨_, hstages _⟩, .drawn _, by simp, hnext⟩ ?_
        rw [hisDue', hholds']
        exact hsettling
  next => exact h

theorem begin (h : Settling config s) {errand : Errand} (herrand : errand ≠ .shutdown)
    (hother : errand ≠ .requestPass) : Settling config (g.step s (.begin errand)) where
  worker := by
    obtain ⟨d, hobeys, hsettling⟩ := h.worker
    refine ⟨d, hobeys, ?_⟩
    obtain ⟨hdue, hheld⟩ := Caller.dealing_eq (c := ⟨errand, errand.program g.backendName⟩)
      (Errand.obeys_asks g.backendName errand)
    have houtset : errand.outset = .drawn none := by
      cases errand with
      | requestPass => exact absurd rfl hother
      | _ => rfl
    rw [houtset] at hdue hheld
    have hdue' : (g.step s (.begin errand)).due = s.due := by
      simp [WithCallers.due, CallerSystem.step, List.countP_append, hdue, Dealing.isDue]
    have hheld' : (g.step s (.begin errand)).held = s.held := by
      simp [WithCallers.held, CallerSystem.step, List.countP_append, hheld, Dealing.holds]
    rw [hdue', hheld']
    exact hsettling
  callers := h.visits_append fun c hc => ⟨errand, herrand, List.mem_singleton.1 hc⟩

theorem step (h : Settling config s) {e : Event} (hcalm : s.Undisturbed e) :
    Settling config (g.step s e) := by
  cases e with
  | offer key record => exact h.offer hcalm
  | call call =>
      simp only [CallerSystem.step]
      split
      next hcall => exact h.ease (fun hd => hd.lasting.perform hd.sound hcall) _
      next => exact h
  | own call => exact ⟨h.worker, h.callers⟩
  | begin errand => exact h.begin hcalm.1 hcalm.2
  | take e now => exact h.take e now
  | go party now =>
      cases party with
      | worker => exact h.goWorker now
      | caller n => exact h.goCaller hcalm
  | answer party verdict =>
      obtain rfl : verdict = .done := hcalm
      cases party with
      | worker => exact h.answerWorker
      | caller n => exact h.answerCaller n

/-- A worker that rests has nothing under way. -/
theorem len_lt (h : Settling config s) (hdone : s.isAdmitting = false)
    (hrests : s.workerRests = true) (hqueue : s.queue = []) :
    s.running.cache.len < config.maxEntries := by
  obtain ⟨d, hobeys, hsettling⟩ := h.worker
  obtain ⟨hdue, hheld⟩ := due_of_isAdmitting hdone
  rw [hdue, hheld] at hsettling
  have hfree : d = .fresh ∨ d = .free := by
    simp only [workerRests] at hrests
    split at hrests
    next again hw =>
      rw [hw] at hobeys
      cases hobeys with
      | again => exact Or.inr rfl
      | ended => exact absurd rfl hsettling.stays.2
    next next hw =>
      rw [hw] at hobeys
      obtain ⟨state, hasks, -⟩ := hobeys
      cases hasks with
      | pass hpass => cases hpass
      | begin => exact Or.inl rfl
    next next hw =>
      rw [hw] at hobeys
      obtain ⟨state, hasks, -⟩ := hobeys
      cases hasks with
      | pass hpass => cases hpass
      | next => exact Or.inr rfl
    next => cases hrests
  cases hsettling.settles with
  | below hlen =>
      rw [← hsettling.maxSize]
      exact hlen
  | due hpos => cases hpos
  | requested hrequested =>
      rcases hsettling.queued hrequested with rfl | ⟨w, hw, hevict⟩ | hpos
      · rcases hfree with h | h <;> cases h
      · simp only [queue, hw, Option.map_some, Option.getD_some] at hqueue
        rw [hqueue] at hevict
        cases hevict
      · cases hpos
  | clearing | looking => rcases hfree with h | h <;> cases h
  | passing p hp => rcases hfree with rfl | rfl <;> cases hp

end Settling

/-- Let ticks be apart, and let nothing keep the cache from settling.  Whenever no admission is
under way, the worker is between two tasks and its queue is empty, the cache holds less entries
than it is meant to. -/
theorem len_lt_of_rests (g : CallerSystem) (events : List Event)
    (hretry : 1 ≤ g.config.retryInterval) (hcalm : Along g.step Undisturbed g.start events)
    (hdone : (run g.step g.start events).isAdmitting = false)
    (hrests : (run g.step g.start events).workerRests = true)
    (hqueue : (run g.step g.start events).queue = []) :
    (run g.step g.start events).running.cache.len < g.config.maxEntries := by
  have h : Settling g.config (run g.step g.start events) :=
    run_induction hcalm (.start hretry) fun s e hs he => hs.step he
  exact h.len_lt hdone hrests hqueue

/-- An entry is replaced while the pass that it requested writes it.  The pass drops nothing,
and the replacement has requested the pass that drops the entry. -/
def replacedMeanwhile : List Event :=
  [.call .init, .go .worker 0, .offer (.hash [1]) (.ofBytes .transaction [1]),
    .go (.caller 0) 0, .go (.caller 0) 0, .go .worker 0,
    .go .worker 0, .go .worker 0, .go .worker 0, .offer (.hash [1]) (.ofBytes .transaction [2]),
    .go (.caller 1) 0, .go (.caller 1) 0,
    .answer .worker .done, .go .worker 0, .go .worker 0, .go .worker 0, .take (.task .evict) 0,
    .go .worker 0, .go .worker 0, .answer .worker .done, .go .worker 0, .go .worker 0]

theorem len_lt_of_replacedMeanwhile :
    (run CallerSystem.single.step CallerSystem.single.start replacedMeanwhile).workerRests = true ∧
      (run CallerSystem.single.step CallerSystem.single.start replacedMeanwhile).running.cache.len
        < 1 := by
  have hcalm : Along CallerSystem.single.step Undisturbed CallerSystem.single.start
      replacedMeanwhile := by
    decide +kernel
  have hdone : (run CallerSystem.single.step CallerSystem.single.start
      replacedMeanwhile).isAdmitting = false := by
    decide +kernel
  have hrests : (run CallerSystem.single.step CallerSystem.single.start
      replacedMeanwhile).workerRests = true := by
    decide +kernel
  have hqueue : (run CallerSystem.single.step CallerSystem.single.start
      replacedMeanwhile).queue = [] := by
    decide +kernel
  exact ⟨hrests,
    len_lt_of_rests CallerSystem.single replacedMeanwhile (by decide) hcalm hdone hrests hqueue⟩

end WithCallers

end Cache

end RecordStore
