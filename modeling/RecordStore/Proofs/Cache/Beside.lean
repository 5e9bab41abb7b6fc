import RecordStore.Proofs.Cache.Stages

/-!
# Caches beside a batch

A batch that is being written is registered with the cache, and so is its number.  Nothing else of
the cache tells whether it is there.  `Running.Beside` relates a cache with batches that do not
count to one without them: slots, filter, counters, worker and replies are the same, but for a
number of evictions that are counted as failed.

Whatever others request, both caches give the same reply, and stay so related
(`Running.Beside.reply?`).  Only the beginning of a pass tells them apart, by the number of its
batch, and the end of a batch that does not count.
-/

namespace RecordStore

namespace Cache

/-! ## Contents with other batches -/

namespace Contents

/-- The contents with other batches, and with one more number of a batch used up. -/
def burdened (c : Contents) (batches : List Batch) : Contents :=
  { c with batches, nextBatch := c.nextBatch + 1 }

variable (c : Contents) (batches : List Batch)

@[simp] theorem slots_burdened : (c.burdened batches).slots = c.slots := rfl

theorem note_burdened (id : EntryId) :
    (c.burdened batches).note id = (c.note id).burdened batches := by
  obtain ⟨slots, filter, saturated, batches', nextBatch⟩ := c
  cases saturated with
  | true => rfl
  | false =>
      simp only [note, burdened, Bool.false_eq_true, if_false]
      cases filter.insert (Fingerprint.ofId id) <;> rfl

theorem forget_burdened (slot : Slot) :
    (c.burdened batches).forget slot = (c.forget slot).burdened batches := by
  obtain ⟨slots, filter, saturated, batches', nextBatch⟩ := c
  cases saturated <;> rfl

theorem foldl_forget_burdened (l : List Slot) (c : Contents) :
    l.foldl forget (c.burdened batches) = (l.foldl forget c).burdened batches := by
  induction l generalizing c with
  | nil => rfl
  | cons slot l ih => rw [List.foldl_cons, forget_burdened, ih, List.foldl_cons]

theorem put_burdened (key : Key) (record : Record) : (c.burdened batches).put key record
    = (c.put key record).burdened (batches.map (Batch.unmark · (record.idAt key))) := by
  simp only [put, slots_burdened]
  cases c.slots.insert key record with
  | mk admission slots =>
      cases admission with
      | appended =>
          exact note_burdened
            { c with slots, batches := c.batches.map (Batch.unmark · (record.idAt key)) }
            (batches.map (Batch.unmark · (record.idAt key))) (record.idAt key)
      | replaced => rfl

theorem remove_burdened (id : EntryId) : (c.burdened batches).remove id
    = (c.remove id).burdened (batches.map (Batch.markDeleted · id)) := by
  have hforget := foldl_forget_burdened batches (c.slots.remove id).1.toList
    { c with slots := (c.slots.remove id).2 }
  rw [remove_eq, remove_eq]
  exact congrArg (fun d : Contents => { d with
    batches := batches.map (Batch.markDeleted · id) }) hforget

theorem removeKind_burdened (kind : Kind) : (c.burdened batches).removeKind kind
    = (c.removeKind kind).burdened (batches.map (Batch.markCleared · kind)) := by
  have hforget := foldl_forget_burdened batches (c.slots.removeKind kind).1
    { c with slots := (c.slots.removeKind kind).2 }
  exact congrArg (fun d : Contents => { d with
    batches := d.batches.map (Batch.markCleared · kind) }) hforget

theorem dropWritten_burdened (d : Candidate) : (c.burdened batches).dropWritten d
    = ((c.dropWritten d).1, (c.dropWritten d).2.burdened batches) := by
  simp only [dropWritten, slots_burdened]
  cases c.slots.removeIfVersion d.seq d.slot.version with
  | mk gone slots =>
      cases gone with
      | some slot => exact congrArg (Prod.mk true) (forget_burdened { c with slots } batches slot)
      | none => rfl

theorem dropAllWritten_burdened (l : List Candidate) (c : Contents) :
    (c.burdened batches).dropAllWritten l
      = ((c.dropAllWritten l).1, (c.dropAllWritten l).2.burdened batches) := by
  induction l generalizing c with
  | nil => rfl
  | cons d l ih => simp only [dropAllWritten, dropWritten_burdened, ih]

theorem rebuild_burdened (capacity : Nat) : (c.burdened batches).rebuild capacity
    = (c.rebuild capacity).burdened batches := by
  obtain ⟨slots, filter, saturated, batches', nextBatch⟩ := c
  cases saturated with
  | false => rfl
  | true =>
      simp only [rebuild, burdened, if_true]
      cases filterOf? (.ofCapacity capacity) (slots.toList.map Slot.id) <;> rfl

end Contents

/-! ## Caches that differ in a batch -/

/-- The cache with other batches, and with more failed evictions counted. -/
def burdened (c : Cache) (batches : List Batch) (failures : UInt64) : Cache :=
  { c with
    contents := c.contents.burdened batches
    counters := { c.counters with failedEvictions := c.counters.failedEvictions + failures } }

/-- The cache is another one that has batches beside those whose numbers are kept. -/
def Beside (keeps : Nat → Bool) (failures : UInt64) (c c' : Cache) : Prop :=
  ∃ batches, c = c'.burdened batches failures ∧
    batches.filter (fun b => keeps b.number) = c'.contents.batches

namespace Beside

variable {keeps : Nat → Bool} {failures : UInt64} {c c' : Cache}

/-- Something that is done to both caches, and changes marks only among the batches. -/
theorem remark (h : c.Beside keeps failures c') (change : Cache → Cache) {f : Batch → Batch}
    (hf : Batch.Remarks f) (hbatches : (change c').contents.batches = c'.contents.batches.map f)
    (hchange : ∀ batches, change (c'.burdened batches failures)
      = (change c').burdened (batches.map f) failures) :
    (change c).Beside keeps failures (change c') := by
  obtain ⟨batches, rfl, hfilter⟩ := h
  refine ⟨batches.map f, hchange batches, ?_⟩
  have hkeeps : (fun b : Batch => keeps b.number) ∘ f = fun b => keeps b.number :=
    funext fun b => congrArg keeps (hf b).1
  rw [List.filter_map, hkeeps, hfilter, hbatches]

/-- Something that is done to both caches, and leaves the batches alone. -/
theorem alike (h : c.Beside keeps failures c') (change : Cache → Cache)
    (hbatches : (change c').contents.batches = c'.contents.batches)
    (hchange : ∀ batches, change (c'.burdened batches failures)
      = (change c').burdened batches failures) :
    (change c).Beside keeps failures (change c') := by
  refine h.remark change (f := fun b => b) (fun _ => ⟨rfl, rfl⟩) ?_ fun batches => ?_
  · rw [hbatches, List.map_id']
  · rw [hchange, List.map_id']

theorem accepts_eq (h : c.Beside keeps failures c') (record : Record) :
    c.accepts record = c'.accepts record := by
  obtain ⟨batches, rfl, -⟩ := h
  rfl

theorem isFull_eq (h : c.Beside keeps failures c') : c.isFull = c'.isFull := by
  obtain ⟨batches, rfl, -⟩ := h
  rfl

theorem offer (h : c.Beside keeps failures c') (key : Key) (record : Record) :
    (c.offer key record).1 = (c'.offer key record).1 ∧
      (c.offer key record).2.Beside keeps failures (c'.offer key record).2 := by
  cases haccepts : c'.accepts record with
  | true =>
      have haccepts' := (h.accepts_eq record).trans haccepts
      simp only [Cache.offer, haccepts, haccepts', if_true, true_and]
      refine h.remark (fun c => { c with
        contents := c.contents.put key record, counters := c.counters.addAdmission })
        (Batch.remarks_unmark (record.idAt key)) (Contents.batches_put _ _ _) fun batches => ?_
      simp only [burdened, Contents.put_burdened]
      rfl
  | false =>
      have haccepts' := (h.accepts_eq record).trans haccepts
      simp only [Cache.offer, haccepts, haccepts', Bool.false_eq_true, if_false, true_and]
      exact h.alike (fun c => { c with counters := c.counters.addRejection }) rfl
        fun batches => rfl

theorem delete (h : c.Beside keeps failures c') (id : EntryId) :
    (c.delete id).Beside keeps failures (c'.delete id) :=
  h.remark (fun c => c.delete id) (Batch.remarks_markDeleted id)
    (Contents.batches_remove _ _) fun batches => by
      simp only [Cache.delete, burdened, Contents.remove_burdened]

theorem offerAll (h : c.Beside keeps failures c') (entries : List Entry) :
    (c.offerAll entries).1 = (c'.offerAll entries).1 ∧
      (c.offerAll entries).2.Beside keeps failures (c'.offerAll entries).2 := by
  induction entries generalizing c c' with
  | nil => exact ⟨rfl, h⟩
  | cons e entries ih =>
      obtain ⟨hfst, hsnd⟩ := h.offer e.1 e.2
      obtain ⟨hfst', hsnd'⟩ := ih hsnd
      exact ⟨by simp only [Cache.offerAll, hfst, hfst'], hsnd'⟩

theorem foldl_delete (h : c.Beside keeps failures c') (ids : List EntryId) :
    (ids.foldl Cache.delete c).Beside keeps failures (ids.foldl Cache.delete c') := by
  induction ids generalizing c c' with
  | nil => exact h
  | cons id ids ih => exact ih (h.delete id)

theorem clear (h : c.Beside keeps failures c') (kind : Kind) :
    (c.clear kind).Beside keeps failures (c'.clear kind) :=
  h.remark (fun c => c.clear kind) (Batch.remarks_markCleared kind)
    (Contents.batches_removeKind _ _) fun batches => by
      simp only [Cache.clear, burdened, Contents.removeKind_burdened]

theorem lookup_eq (h : c.Beside keeps failures c') (id : EntryId) :
    c.lookup id = c'.lookup id := by
  obtain ⟨batches, rfl, -⟩ := h
  rfl

theorem get (h : c.Beside keeps failures c') (id : EntryId) :
    (c.get id).1 = (c'.get id).1 ∧ (c.get id).2.Beside keeps failures (c'.get id).2 := by
  simp only [Cache.get, h.lookup_eq id]
  cases c'.lookup id with
  | none =>
      exact ⟨rfl, h.alike (fun c => { c with counters := c.counters.addMiss }) rfl
        fun _ => rfl⟩
  | some record =>
      exact ⟨rfl, h.alike (fun c => { c with counters := c.counters.addHit }) rfl
        fun _ => rfl⟩

theorem dropWritten (h : c.Beside keeps failures c') (candidates : List Candidate) :
    (c.dropWritten candidates).1 = (c'.dropWritten candidates).1 ∧
      (c.dropWritten candidates).2.Beside keeps failures (c'.dropWritten candidates).2 := by
  have hdrop : ∀ batches, (c'.burdened batches failures).dropWritten candidates
      = ((c'.dropWritten candidates).1,
        (c'.dropWritten candidates).2.burdened batches failures) := by
    intro batches
    simp only [Cache.dropWritten, burdened, Contents.dropAllWritten_burdened,
      Contents.rebuild_burdened]
    rfl
  constructor
  · obtain ⟨batches, rfl, -⟩ := h
    rw [hdrop]
  · refine h.alike (fun c => (c.dropWritten candidates).2) ?_ fun batches => ?_
    · simp [Cache.dropWritten]
    · rw [hdrop]

/-- Another batch ends. -/
theorem finishBatch (h : c.Beside keeps failures c') {number : Nat} (hkeeps : keeps number = true) :
    (c.finishBatch number).1 = (c'.finishBatch number).1 ∧
      (c.finishBatch number).2.Beside keeps failures (c'.finishBatch number).2 := by
  obtain ⟨batches, rfl, hfilter⟩ := h
  simp only [Cache.finishBatch, burdened, Contents.finish, Contents.burdened, ← hfilter]
  refine ⟨?_, batches.filter fun b => b.number != number, rfl, ?_⟩
  · have hsame : ∀ b : Batch, (keeps b.number && b.number == number) = (b.number == number) := by
      intro b
      by_cases hb : b.number = number
      · rw [hb, hkeeps, Bool.true_and]
      · rw [beq_eq_false_iff_ne.2 hb, Bool.and_false]
    rw [List.find?_filter]
    simp only [Bool.decide_and, Bool.decide_eq_true, hsame]
  · simp only [List.filter_filter, Bool.and_comm]

theorem failEviction (h : c.Beside keeps failures c') :
    c.failEviction.Beside keeps failures c'.failEviction :=
  h.alike Cache.failEviction rfl fun batches => by
    simp only [Cache.failEviction, burdened, Counters.addFailedEviction, UInt64.add_assoc,
      UInt64.add_comm failures 1]

end Beside

namespace Running

/-- A running cache is another one, but for batches that are not kept. -/
def Beside (keeps : Nat → Bool) (failures : UInt64) (r r' : Running) : Prop :=
  r.cache.Beside keeps failures r'.cache ∧ r = { r' with cache := r.cache }

namespace Beside

variable {keeps : Nat → Bool} {failures : UInt64} {r r' : Running}

/-- Something that is done to both caches. -/
theorem withCache (h : r.Beside keeps failures r') {cache cache' : Cache}
    (hcache : cache.Beside keeps failures cache') :
    ({ r with cache } : Running).Beside keeps failures { r' with cache := cache' } := by
  obtain ⟨-, hr⟩ := h
  refine ⟨hcache, ?_⟩
  rw [hr]

theorem receive (h : r.Beside keeps failures r') (key : Key) (record : Record) :
    (r.receive key record).1 = (r'.receive key record).1 ∧
      (r.receive key record).2.Beside keeps failures (r'.receive key record).2 := by
  obtain ⟨hfst, hsnd⟩ := h.1.offer key record
  simp only [Running.receive, hfst, hsnd.isFull_eq, true_and]
  exact h.withCache hsnd

theorem perform (h : r.Beside keeps failures r') (call : Call) :
    (r.perform call).1 = (r'.perform call).1 ∧
      (r.perform call).2.Beside keeps failures (r'.perform call).2 := by
  cases call with
  | init =>
      obtain ⟨⟨batches, hcache, hfilter⟩, hr⟩ := h
      have hstart := start_withCache r' r.cache (by rw [hcache]; rfl)
      rw [← hr] at hstart
      show r.start.1 = r'.start.1 ∧ r.start.2.Beside keeps failures r'.start.2
      rw [hstart]
      refine ⟨rfl, ⟨batches, ?_, ?_⟩, rfl⟩
      · rw [cache_start]
        exact hcache
      · rw [cache_start]
        exact hfilter
  | save record key | update record key =>
      obtain ⟨hfst, hsnd⟩ := h.1.offer key record
      exact ⟨congrArg Except.ok hfst, h.withCache hsnd⟩
  | saveBatch entries =>
      obtain ⟨hfst, hsnd⟩ := h.1.offerAll entries
      exact ⟨congrArg Except.ok hfst, h.withCache hsnd⟩
  | get kind key | seek kind key =>
      obtain ⟨hfst, hsnd⟩ := h.1.get _
      exact ⟨congrArg Except.ok hfst, h.withCache hsnd⟩
  | delete kind key => exact ⟨rfl, h.withCache (h.1.delete _)⟩
  | deleteBatch ids => exact ⟨rfl, h.withCache (h.1.foldl_delete ids)⟩
  | clear kind => exact ⟨rfl, h.withCache (h.1.clear kind)⟩
  | shutdown | keysMissingFrom | clearMetadata => exact ⟨rfl, h.withCache h.1⟩
  | _ =>
      refine ⟨?_, h.withCache h.1⟩
      obtain ⟨⟨batches, hcache, -⟩, -⟩ := h
      refine congrArg Except.ok ?_
      rw [hcache]
      rfl

/-- Whatever others request, they get the same reply from both, unless they begin a pass or end a
batch that is not kept. -/
theorem reply? (h : r.Beside keeps failures r') (caller now : Nat) {q : Request}
    (heviction : q ≠ .beginEviction) (hflush : q ≠ .beginFlush)
    (hfinish : ∀ number, q = .finishBatch number → keeps number = true) :
    (r.reply? caller now q).1 = (r'.reply? caller now q).1 ∧
      (r.reply? caller now q).2.Beside keeps failures (r'.reply? caller now q).2 := by
  have hwork : isAboutWork q = true → (r.reply? caller now q).1 = (r'.reply? caller now q).1 ∧
      (r.reply? caller now q).2.Beside keeps failures (r'.reply? caller now q).2 := by
    intro hq
    have hreply := reply?_withCache r' r.cache caller now hq
    rw [← h.2] at hreply
    rw [hreply]
    refine ⟨rfl, ?_, rfl⟩
    rw [cache_of_isAboutWork r' caller now hq]
    exact h.1
  cases q with
  | perform call =>
      obtain ⟨hfst, hsnd⟩ := h.perform call
      exact ⟨congrArg some hfst, hsnd⟩
  | receive key record =>
      obtain ⟨hfst, hsnd⟩ := h.receive key record
      exact ⟨congrArg some hfst, hsnd⟩
  | isClosed =>
      obtain ⟨⟨batches, hcache, -⟩, -⟩ := id h
      exact ⟨by simp only [Running.reply?, hcache, burdened], h⟩
  | close =>
      obtain ⟨⟨batches, hcache, -⟩, -⟩ := id h
      refine ⟨by simp only [Running.reply?, Cache.close, hcache, burdened], h.withCache ?_⟩
      exact h.1.alike (fun c => c.close.2) rfl fun _ => rfl
  | beginEviction => exact absurd rfl heviction
  | beginFlush => exact absurd rfl hflush
  | finishBatch number =>
      obtain ⟨hfst, hsnd⟩ := h.1.finishBatch (hfinish number rfl)
      exact ⟨congrArg some hfst, h.withCache hsnd⟩
  | dropWritten candidates =>
      obtain ⟨hfst, hsnd⟩ := h.1.dropWritten candidates
      exact ⟨congrArg some hfst, h.withCache hsnd⟩
  | failEviction => exact ⟨rfl, h.withCache h.1.failEviction⟩
  | empty => exact ⟨rfl, h.withCache (h.1.alike Cache.empty rfl fun _ => rfl)⟩
  | isFull => exact ⟨congrArg some h.1.isFull_eq, h⟩
  | backend call => exact ⟨rfl, h⟩
  | _ => exact hwork rfl

end Beside

end Running

end Cache

end RecordStore
