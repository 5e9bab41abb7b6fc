import RecordStore.Cache.Contents
import RecordStore.Proofs.Cache.Slots
import RecordStore.Proofs.Filter.Classes

/-!
# Slots and filter in step

The contents of a cache keep a filter beside the slots.  As long as the contents are not
saturated, every region of the filter holds as many tags as there are slots with a
fingerprint in the region: `Contents.Sound`.  Every change of the contents keeps this,
through refused insertions, replacements in place, failed and successful rebuilds.

So the filter never hides a slot (`Sound.get?_eq`), and an address may be present exactly
when some slot has a fingerprint like the one of the address (`Sound.mayHave_iff`).
-/

namespace RecordStore

namespace Cache

namespace Contents

variable {c : Contents} {id : EntryId}

/-! ## What a change leaves alone -/

theorem note_eq (c : Contents) (id : EntryId) :
    ∃ filter saturated, c.note id = { c with filter, saturated } := by
  simp only [note]
  split
  · exact ⟨_, _, rfl⟩
  · split <;> exact ⟨_, _, rfl⟩

/-- Forgetting slots changes the filter only. -/
theorem foldl_forget_eq (l : List Slot) (c : Contents) :
    ∃ filter, l.foldl forget c = { c with filter } := by
  induction l generalizing c with
  | nil => exact ⟨c.filter, rfl⟩
  | cons slot l ih =>
      obtain ⟨filter, h⟩ := ih (c.forget slot)
      refine ⟨filter, ?_⟩
      rw [List.foldl_cons, h, forget]
      split <;> rfl

/-- An admission changes the slots, the filter and the marks of its address. -/
theorem put_eq (c : Contents) (key : Key) (record : Record) : ∃ filter saturated,
    c.put key record = { c with
      slots := (c.slots.insert key record).2, filter, saturated
      batches := c.batches.map (Batch.unmark · (record.idAt key)) } := by
  simp only [put]
  split
  next slots h =>
    obtain ⟨filter, saturated, hn⟩ := note_eq { c with
      slots, batches := c.batches.map (Batch.unmark · (record.idAt key)) } (record.idAt key)
    exact ⟨filter, saturated, by rw [hn, h]⟩
  next h => exact ⟨_, _, by rw [h]⟩

/-- A removal by address forgets the slot found, and marks the address. -/
theorem remove_eq (c : Contents) (id : EntryId) : c.remove id =
    { (c.slots.remove id).1.toList.foldl forget { c with slots := (c.slots.remove id).2 } with
      batches := c.batches.map (Batch.markDeleted · id) } := by
  simp only [remove]
  cases (c.slots.remove id).1 with
  | none => rfl
  | some slot =>
      simp only [Option.toList_some, List.foldl_cons, List.foldl_nil, forget]
      split <;> rfl

/-- Dropping a candidate takes its slot away if it is there as it was. -/
theorem dropWritten_eq (c : Contents) (d : Candidate) : (c.dropWritten d).2 =
    (c.slots.removeIfVersion d.seq d.slot.version).1.toList.foldl forget
      { c with slots := (c.slots.removeIfVersion d.seq d.slot.version).2 } := by
  simp only [dropWritten]
  split
  next h => rw [h]; rfl
  next h => rw [h]; rfl

theorem rebuild_eq (c : Contents) (capacity : Nat) : ∃ filter saturated,
    c.rebuild capacity = { c with filter, saturated } := by
  simp only [rebuild]
  split
  · split <;> exact ⟨_, _, rfl⟩
  · exact ⟨_, _, rfl⟩

section

variable (c : Contents) (key : Key) (record : Record) (id : EntryId) (kind : Kind) (d : Candidate)
  (capacity : Nat)

@[simp] theorem slots_put : (c.put key record).slots = (c.slots.insert key record).2 := by
  obtain ⟨_, _, h⟩ := c.put_eq key record
  rw [h]

@[simp] theorem batches_put :
    (c.put key record).batches = c.batches.map (Batch.unmark · (record.idAt key)) := by
  obtain ⟨_, _, h⟩ := c.put_eq key record
  rw [h]

@[simp] theorem nextBatch_put : (c.put key record).nextBatch = c.nextBatch := by
  obtain ⟨_, _, h⟩ := c.put_eq key record
  rw [h]

@[simp] theorem slots_remove : (c.remove id).slots = (c.slots.remove id).2 := by
  obtain ⟨_, h⟩ := foldl_forget_eq (c.slots.remove id).1.toList
    { c with slots := (c.slots.remove id).2 }
  rw [remove_eq, h]

@[simp] theorem batches_remove :
    (c.remove id).batches = c.batches.map (Batch.markDeleted · id) := by
  rw [remove_eq]

@[simp] theorem nextBatch_remove : (c.remove id).nextBatch = c.nextBatch := by
  obtain ⟨_, h⟩ := foldl_forget_eq (c.slots.remove id).1.toList
    { c with slots := (c.slots.remove id).2 }
  rw [remove_eq, h]

@[simp] theorem slots_removeKind :
    (c.removeKind kind).slots = (c.slots.removeKind kind).2 := by
  obtain ⟨_, h⟩ := foldl_forget_eq (c.slots.removeKind kind).1
    { c with slots := (c.slots.removeKind kind).2 }
  simp only [removeKind, h]

@[simp] theorem batches_removeKind :
    (c.removeKind kind).batches = c.batches.map (Batch.markCleared · kind) := by
  obtain ⟨_, h⟩ := foldl_forget_eq (c.slots.removeKind kind).1
    { c with slots := (c.slots.removeKind kind).2 }
  simp only [removeKind, h]

@[simp] theorem nextBatch_removeKind : (c.removeKind kind).nextBatch = c.nextBatch := by
  obtain ⟨_, h⟩ := foldl_forget_eq (c.slots.removeKind kind).1
    { c with slots := (c.slots.removeKind kind).2 }
  simp only [removeKind, h]

@[simp] theorem slots_dropWritten :
    (c.dropWritten d).2.slots = (c.slots.removeIfVersion d.seq d.slot.version).2 := by
  obtain ⟨_, h⟩ := foldl_forget_eq (c.slots.removeIfVersion d.seq d.slot.version).1.toList
    { c with slots := (c.slots.removeIfVersion d.seq d.slot.version).2 }
  rw [dropWritten_eq, h]

@[simp] theorem batches_dropWritten : (c.dropWritten d).2.batches = c.batches := by
  obtain ⟨_, h⟩ := foldl_forget_eq (c.slots.removeIfVersion d.seq d.slot.version).1.toList
    { c with slots := (c.slots.removeIfVersion d.seq d.slot.version).2 }
  rw [dropWritten_eq, h]

@[simp] theorem nextBatch_dropWritten : (c.dropWritten d).2.nextBatch = c.nextBatch := by
  obtain ⟨_, h⟩ := foldl_forget_eq (c.slots.removeIfVersion d.seq d.slot.version).1.toList
    { c with slots := (c.slots.removeIfVersion d.seq d.slot.version).2 }
  rw [dropWritten_eq, h]

@[simp] theorem slots_rebuild : (c.rebuild capacity).slots = c.slots := by
  obtain ⟨_, _, h⟩ := c.rebuild_eq capacity
  rw [h]

@[simp] theorem batches_rebuild : (c.rebuild capacity).batches = c.batches := by
  obtain ⟨_, _, h⟩ := c.rebuild_eq capacity
  rw [h]

@[simp] theorem nextBatch_rebuild : (c.rebuild capacity).nextBatch = c.nextBatch := by
  obtain ⟨_, _, h⟩ := c.rebuild_eq capacity
  rw [h]

end

/-! ## Slots of changed contents -/

section

variable {d : Candidate} {key : Key} {record : Record} {id : EntryId} {kind : Kind}

/-- After an admission there is the admitted slot in place of those under its address. -/
theorem mem_slots_put (h : c.slots.Sound) : d ∈ (c.put key record).slots.candidates ↔
    d = c.slots.admitted key record ∨ d ∈ c.slots.candidates ∧ d.slot.id ≠ record.idAt key := by
  rw [slots_put, Slots.mem_candidates_insert h]

theorem mem_slots_remove (h : c.slots.Sound) : d ∈ (c.remove id).slots.candidates ↔
    d ∈ c.slots.candidates ∧ d.slot.id ≠ id := by
  rw [slots_remove, Slots.mem_candidates_remove h]

theorem mem_slots_removeKind (h : c.slots.Sound) : d ∈ (c.removeKind kind).slots.candidates ↔
    d ∈ c.slots.candidates ∧ d.slot.kind ≠ kind := by
  rw [slots_removeKind, Slots.mem_candidates_removeKind h]

end

theorem dropAllWritten_cons (d : Candidate) (l : List Candidate) :
    (c.dropAllWritten (d :: l)).2 = ((c.dropWritten d).2.dropAllWritten l).2 := rfl

@[simp] theorem batches_dropAllWritten (l : List Candidate) (c : Contents) :
    (c.dropAllWritten l).2.batches = c.batches := by
  induction l generalizing c with
  | nil => rfl
  | cons d l ih => rw [dropAllWritten_cons, ih, batches_dropWritten]

@[simp] theorem nextBatch_dropAllWritten (l : List Candidate) (c : Contents) :
    (c.dropAllWritten l).2.nextBatch = c.nextBatch := by
  induction l generalizing c with
  | nil => rfl
  | cons d l ih => rw [dropAllWritten_cons, ih, nextBatch_dropWritten]

/-- Dropping candidates leaves the slots that are none of them any more. -/
theorem mem_slots_dropAllWritten {e : Candidate} {l : List Candidate} {c : Contents} :
    e ∈ (c.dropAllWritten l).2.slots.candidates ↔ e ∈ c.slots.candidates ∧
      ∀ d ∈ l, ¬(e.seq = d.seq ∧ e.slot.version = d.slot.version) := by
  induction l generalizing c with
  | nil => simp [dropAllWritten]
  | cons d l ih =>
      rw [dropAllWritten_cons, ih, slots_dropWritten, Slots.mem_candidates_removeIfVersion,
        List.forall_mem_cons, and_assoc]

theorem lastVersion_dropAllWritten (l : List Candidate) (c : Contents) :
    (c.dropAllWritten l).2.slots.lastVersion = c.slots.lastVersion := by
  induction l generalizing c with
  | nil => rfl
  | cons d l ih =>
      rw [dropAllWritten_cons, ih, slots_dropWritten, Slots.lastVersion_removeIfVersion]

theorem slots_dropAllWritten_sound {l : List Candidate} {c : Contents} (h : c.slots.Sound) :
    (c.dropAllWritten l).2.slots.Sound := by
  induction l generalizing c with
  | nil => exact h
  | cons d l ih =>
      have hdrop : (c.dropWritten d).2.slots.Sound := by
        rw [slots_dropWritten]
        exact h.removeIfVersion _ _
      exact ih hdrop

/-! ## Loads -/

/-- The number of candidates with a fingerprint in a region. -/
def load (r : (bits : Nat) → Filter.Region bits) (bits : Nat) (l : List Candidate) : Nat :=
  (l.map fun d => Filter.share r bits (Fingerprint.ofId d.slot.id)).sum

section

variable {r : (bits : Nat) → Filter.Region bits} {bits : Nat} {l m : List Candidate}
  {d : Candidate}

@[simp] theorem load_nil : load r bits [] = 0 := rfl

@[simp] theorem load_cons : load r bits (d :: l)
    = Filter.share r bits (Fingerprint.ofId d.slot.id) + load r bits l := by
  simp [load]

@[simp] theorem load_append : load r bits (l ++ m) = load r bits l + load r bits m := by
  simp [load]

theorem load_perm (h : l.Perm m) : load r bits l = load r bits m :=
  (h.map _).sum_eq

theorem load_congr (h : l.map (·.slot.id) = m.map (·.slot.id)) :
    load r bits l = load r bits m := by
  have e : ∀ l : List Candidate, load r bits l
      = ((l.map (·.slot.id)).map fun id => Filter.share r bits (Fingerprint.ofId id)).sum := by
    intro l
    rw [load, List.map_map]
    rfl
  rw [e, e, h]

/-- The load is the number of candidates with a fingerprint in the region. -/
theorem load_eq_countP : load r bits l = l.countP fun d =>
    (r bits).has (.ofWord bits (Fingerprint.ofId d.slot.id))
      (Filter.tagOf (Fingerprint.ofId d.slot.id)) := by
  induction l with
  | nil => rfl
  | cons d l ih =>
      rw [load_cons, ih, List.countP_cons, Nat.add_comm]
      rfl

/-- The load of a class is the number of candidates with an alike fingerprint. -/
theorem load_classOf (fingerprint : UInt64) : load (Filter.classOf fingerprint) bits l
    = l.countP fun d => Filter.alike bits fingerprint (Fingerprint.ofId d.slot.id) :=
  load_eq_countP

end

/-! ## Soundness -/

/-- The slots are sound, and the filter holds their fingerprints unless it was given up. -/
structure Sound (c : Contents) : Prop where
  slots : c.slots.Sound
  /-- Every region of the filter counts the slots with a fingerprint in it. -/
  count : c.saturated = false → ∀ r, c.filter.count r = load r c.filter.bits c.slots.candidates

theorem sound_empty (capacity : Nat) : (empty capacity).Sound where
  slots := Slots.sound_empty
  count _ _ := Filter.count_ofCapacity capacity

theorem Sound.note {c : Contents} {l : List Candidate} {d : Candidate} (hs : c.slots.Sound)
    (hl : c.slots.candidates = l ++ [d])
    (hc : c.saturated = false → ∀ r, c.filter.count r = load r c.filter.bits l) :
    (c.note d.slot.id).Sound where
  slots := by
    obtain ⟨_, _, h⟩ := c.note_eq d.slot.id
    rw [h]
    exact hs
  count hsat r := by
    simp only [Contents.note] at hsat ⊢
    split at hsat
    next h => exact absurd hsat (by simp [h])
    next h =>
      rw [if_neg h]
      split at hsat
      next filter hf =>
        rw [Filter.count_insert hf, Filter.bits_insert hf, hl, load_append,
          hc (by simpa using h) r]
        simp
      next => cases hsat

/-- Forgetting slots takes exactly their load off the filter. -/
theorem count_foldl_forget (l m : List Candidate) (c : Contents) (hsat : c.saturated = false)
    (hc : ∀ r, c.filter.count r = load r c.filter.bits (l ++ m)) :
    ((l.map (·.slot)).foldl forget c).saturated = false ∧
      ∀ r, ((l.map (·.slot)).foldl forget c).filter.count r
        = load r ((l.map (·.slot)).foldl forget c).filter.bits m := by
  induction l generalizing c with
  | nil => exact ⟨hsat, hc⟩
  | cons d l ih =>
      have hforget : c.forget d.slot
          = { c with filter := c.filter.erase (Fingerprint.ofId d.slot.id) } := by
        simp [forget, hsat]
      have hpos : 0 < c.filter.count (Filter.classOf (Fingerprint.ofId d.slot.id)) := by
        rw [hc, load_classOf]
        exact List.countP_pos_iff.2 ⟨d, by simp, Filter.alike_self _ _⟩
      simp only [List.map_cons, List.foldl_cons]
      refine ih (c.forget d.slot) (by rw [hforget]; exact hsat) fun r => ?_
      have hcount := Filter.count_erase (r := r) hpos
      rw [hc, List.cons_append, load_cons] at hcount
      rw [hforget, Filter.bits_erase]
      simp only
      omega

theorem Sound.foldl_forget {c : Contents} (h : c.Sound) {slots : Slots} (hs : slots.Sound)
    {l : List Candidate} (hp : c.slots.candidates.Perm (l ++ slots.candidates)) :
    ((l.map (·.slot)).foldl forget { c with slots }).Sound := by
  obtain ⟨filter, hf⟩ := foldl_forget_eq (l.map (·.slot)) { c with slots }
  have hsat : ((l.map (·.slot)).foldl forget { c with slots }).saturated = c.saturated := by
    rw [hf]
  have hslots : ((l.map (·.slot)).foldl forget { c with slots }).slots = slots := by
    rw [hf]
  refine ⟨by rw [hslots]; exact hs, fun hns r => ?_⟩
  rw [hsat] at hns
  rw [hslots]
  refine (count_foldl_forget l slots.candidates { c with slots } hns fun r => ?_).2 r
  rw [← load_perm hp]
  exact h.count hns r

/-- Batches have no part in soundness. -/
theorem Sound.of_batches (h : c.Sound) (batches : List Batch) (nextBatch : Nat) :
    ({ c with batches, nextBatch } : Contents).Sound :=
  ⟨h.slots, h.count⟩

/-- An admission notes a new address, and leaves the filter alone where it replaces. -/
theorem Sound.put (h : c.Sound) (key : Key) (record : Record) : (c.put key record).Sound := by
  have hs := h.slots.insert key record
  cases hf : c.slots.find? (record.idAt key) with
  | none =>
      have hput : c.put key record
          = ({ c with
              slots := (c.slots.insert key record).2
              batches := c.batches.map (Batch.unmark · (record.idAt key)) } : Contents).note
            (c.slots.admitted key record).slot.id := by
        simp only [Contents.put, Slots.insert, hf]
        rfl
      rw [hput]
      exact Sound.note hs (Slots.candidates_insert_of_none h.slots hf) h.count
  | some d =>
      have hput : c.put key record = { c with
          slots := (c.slots.insert key record).2
          batches := c.batches.map (Batch.unmark · (record.idAt key)) } := by
        simp only [Contents.put, Slots.insert, hf]
      have hids : (c.slots.insert key record).2.candidates.map (·.slot.id)
          = c.slots.candidates.map (·.slot.id) := by
        obtain ⟨hd, hid⟩ := h.slots.find?_eq_some_iff.1 hf
        rw [Slots.candidates_insert_of_some h.slots hf, List.map_map]
        refine List.map_congr_left fun e he => ?_
        simp only [Function.comp_apply]
        split
        next hseq => rw [Slots.eq_of_seq_eq he hd hseq, hid, Slots.id_admitted]
        next => rfl
      rw [hput]
      refine ⟨hs, fun hsat r => ?_⟩
      rw [load_congr hids]
      exact h.count hsat r

theorem Sound.remove (h : c.Sound) (id : EntryId) : (c.remove id).Sound := by
  rw [remove_eq]
  refine Sound.of_batches ?_ _ _
  have hgone : (c.slots.remove id).1.toList
      = (c.slots.find? id).toList.map (·.slot) := by
    rw [Slots.remove_eq h.slots]
    cases c.slots.find? id <;> rfl
  rw [hgone]
  refine h.foldl_forget (h.slots.remove id) ?_
  rw [Slots.remove_eq h.slots]
  cases hf : c.slots.find? id with
  | none => exact List.Perm.refl _
  | some d =>
      obtain ⟨hd, rfl⟩ := h.slots.find?_eq_some_iff.1 hf
      exact Slots.perm_erase hd

theorem Sound.removeKind (h : c.Sound) (kind : Kind) : (c.removeKind kind).Sound := by
  obtain ⟨hs, hp⟩ := Slots.removeKind_sound h.slots kind
  exact (h.foldl_forget hs hp).of_batches _ _

theorem Sound.dropWritten (h : c.Sound) (d : Candidate) : (c.dropWritten d).2.Sound := by
  rw [dropWritten_eq]
  rcases c.slots.removeIfVersion_eq d.seq d.slot.version with ⟨e, he, -, -, heq⟩ | ⟨-, heq⟩
  · rw [heq]
    exact h.foldl_forget (l := [e]) (h.slots.erase he) (Slots.perm_erase he)
  · rw [heq]
    exact h

theorem Sound.dropAllWritten {l : List Candidate} {c : Contents} (h : c.Sound) :
    (c.dropAllWritten l).2.Sound := by
  induction l generalizing c with
  | nil => exact h
  | cons d l ih => exact ih (h.dropWritten d)

/-- A filter that took all addresses counts them. -/
theorem count_filterOf? {r : (bits : Nat) → Filter.Region bits} {f g : Filter}
    {l : List Candidate} (h : filterOf? f (l.map (·.slot.id)) = some g) :
    g.bits = f.bits ∧ g.count r = f.count r + load r f.bits l := by
  induction l generalizing f with
  | nil =>
      cases h
      exact ⟨rfl, rfl⟩
  | cons d l ih =>
      simp only [List.map_cons, filterOf?] at h
      split at h
      next f' hf =>
        obtain ⟨hbits, hcount⟩ := ih h
        rw [Filter.bits_insert hf] at hbits hcount
        refine ⟨hbits, ?_⟩
        rw [hcount, Filter.count_insert hf, load_cons]
        omega
      next => cases h

theorem Sound.rebuild (h : c.Sound) (capacity : Nat) : (c.rebuild capacity).Sound := by
  simp only [Contents.rebuild]
  split
  next =>
    split
    next filter hf =>
      refine ⟨h.slots, fun _ r => ?_⟩
      rw [Slots.toList, List.map_map] at hf
      obtain ⟨hbits, hcount⟩ := count_filterOf? (r := r) hf
      simp only
      rw [hcount, hbits, Filter.count_ofCapacity, Nat.zero_add]
    next => exact h
  next => exact h

theorem sound_clear : c.clear.Sound where
  slots := Slots.sound_clear
  count _ _ := Filter.count_clear

/-! ## Look-ups -/

/-- A slot is never hidden by the filter. -/
theorem Sound.mayHave_of_mem (h : c.Sound) {d : Candidate} (hd : d ∈ c.slots.candidates) :
    c.mayHave d.slot.id = true := by
  simp only [mayHave, Bool.or_eq_true]
  refine or_iff_not_imp_left.2 fun hsat => ?_
  rw [Filter.contains_iff, h.count (by simpa using hsat), load_classOf]
  exact List.countP_pos_iff.2 ⟨d, hd, Filter.alike_self _ _⟩

/-- An address may be present if the filter was given up, or if a slot is alike. -/
theorem Sound.mayHave_iff (h : c.Sound) : c.mayHave id = true ↔
    c.saturated = true ∨ ∃ slot ∈ c.slots.toList,
      Filter.alike c.filter.bits (Fingerprint.ofId id) (Fingerprint.ofId slot.id) = true := by
  simp only [mayHave, Bool.or_eq_true]
  by_cases hsat : c.saturated = true
  · simp [hsat]
  · refine or_congr_right ?_
    rw [Filter.contains_iff, h.count (by simpa using hsat), load_classOf, List.countP_pos_iff]
    simp [Slots.toList]

theorem Sound.get?_eq (h : c.Sound) : c.get? id = c.slots.get? id := by
  simp only [get?]
  split
  next => rfl
  next hno =>
    rw [Slots.get?_eq]
    cases hf : c.slots.find? id with
    | none => rfl
    | some d =>
        obtain ⟨hd, rfl⟩ := h.slots.find?_eq_some_iff.1 hf
        exact absurd (h.mayHave_of_mem hd) hno

end Contents

end Cache

end RecordStore
