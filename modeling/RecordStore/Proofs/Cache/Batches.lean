import RecordStore.Cache
import RecordStore.Proofs.Cache.Contents

/-!
# Batches and what they know

A batch keeps its number and its addresses as long as it is written.  Only its marks
change: an admission takes the mark of its address away, and a removal marks the addresses
of the batch that it is about.

A pass knows the slots from the time when it began.  Slots change by getting a version
that was not given before, or by going away (`Contents.Grows`).  So a slot that still has
the version that a pass knows is the slot as the pass knows it (`Contents.Knows`).
-/

namespace RecordStore

namespace Cache

/-! ## Marks -/

namespace Batch

variable {b : Batch} {id i : EntryId} {kind : Kind}

/-- A change of marks, and of nothing else. -/
def Remarks (f : Batch → Batch) : Prop := ∀ b, (f b).number = b.number ∧ (f b).ids = b.ids

theorem remarks_unmark (id : EntryId) : Remarks (unmark · id) := fun _ => ⟨rfl, rfl⟩

theorem mem_unmark : i ∈ (b.unmark id).deleted ↔ i ∈ b.deleted ∧ i ≠ id := by
  simp [unmark]

theorem remarks_markDeleted (id : EntryId) : Remarks (markDeleted · id) := by
  intro b
  simp only [markDeleted]
  split <;> exact ⟨rfl, rfl⟩

theorem mem_markDeleted : i ∈ (b.markDeleted id).deleted ↔ i ∈ b.deleted ∨ i = id ∧ i ∈ b.ids := by
  simp only [markDeleted]
  split
  next h =>
    simp only [List.mem_insert_iff]
    constructor
    · rintro (rfl | hi)
      · exact Or.inr ⟨rfl, h⟩
      · exact Or.inl hi
    · rintro (hi | ⟨rfl, -⟩)
      · exact Or.inr hi
      · exact Or.inl rfl
  next h =>
    refine ⟨Or.inl, ?_⟩
    rintro (hi | ⟨rfl, hi⟩)
    · exact hi
    · exact absurd hi h

theorem remarks_foldl_markDeleted (l : List EntryId) : Remarks (l.foldl markDeleted ·) := by
  intro b
  induction l generalizing b with
  | nil => exact ⟨rfl, rfl⟩
  | cons id l ih =>
      obtain ⟨hnumber, hids⟩ := ih (b.markDeleted id)
      obtain ⟨hnumber', hids'⟩ := remarks_markDeleted id b
      exact ⟨hnumber.trans hnumber', hids.trans hids'⟩

theorem mem_foldl_markDeleted {l : List EntryId} :
    i ∈ (l.foldl markDeleted b).deleted ↔ i ∈ b.deleted ∨ i ∈ l ∧ i ∈ b.ids := by
  induction l generalizing b with
  | nil => simp
  | cons id l ih =>
      rw [List.foldl_cons, ih, mem_markDeleted, (remarks_markDeleted id b).2, List.mem_cons,
        or_assoc, ← or_and_right]

theorem remarks_markCleared (kind : Kind) : Remarks (markCleared · kind) :=
  fun b => remarks_foldl_markDeleted _ b

theorem mem_markCleared : i ∈ (b.markCleared kind).deleted ↔
    i ∈ b.deleted ∨ i.kind = kind ∧ i ∈ b.ids := by
  simp only [markCleared, mem_foldl_markDeleted, List.mem_filter, beq_iff_eq]
  refine or_congr_right ⟨?_, ?_⟩
  · rintro ⟨⟨-, hkind⟩, hi⟩
    exact ⟨hkind, hi⟩
  · rintro ⟨hkind, hi⟩
    exact ⟨⟨hi, hkind⟩, hi⟩

end Batch

/-! ## Passes -/

namespace Pass

variable {p : Pass} {id : EntryId}

def ids (p : Pass) : List EntryId := p.candidates.map (·.slot.id)

theorem mem_ids : id ∈ p.ids ↔ ∃ d ∈ p.candidates, d.slot.id = id :=
  List.mem_map

theorem map_id_entries (p : Pass) : p.entries.map Entry.id = p.ids := by
  simp only [entries, ids, List.map_map]
  rfl

theorem mem_entries {e : Entry} : e ∈ p.entries ↔ ∃ d ∈ p.candidates, d.slot.entry = e :=
  List.mem_map

theorem mem_ids_of_entry (p : Pass) {e : Entry} (he : e ∈ p.entries) (hid : e.id = id) :
    id ∈ p.ids := by
  rw [← p.map_id_entries, ← hid]
  exact List.mem_map_of_mem he

end Pass

namespace Contents

variable {c c' : Contents} {p : Pass}

/-- What every change of the contents is like, as far as passes can see. -/
structure Grows (c c' : Contents) : Prop where
  lastVersion : c.slots.lastVersion ≤ c'.slots.lastVersion
  nextBatch : c.nextBatch ≤ c'.nextBatch
  /-- Slots that were not there before have a new version. -/
  slots : ∀ d ∈ c'.slots.candidates,
    d ∈ c.slots.candidates ∨ c.slots.lastVersion < d.slot.version

theorem Grows.refl (c : Contents) : c.Grows c :=
  ⟨Nat.le_refl _, Nat.le_refl _, fun _ hd => Or.inl hd⟩

/-- What a pass knows for good of the contents. -/
structure Knows (c : Contents) (p : Pass) : Prop where
  nodup : p.ids.Nodup
  batch_lt : p.batch < c.nextBatch
  version_le : ∀ d ∈ p.candidates, d.slot.version ≤ c.slots.lastVersion
  /-- A slot with the version that the pass knows is the slot that it knows. -/
  eq_of_version : ∀ d ∈ p.candidates, ∀ e ∈ c.slots.candidates,
    e.slot.version = d.slot.version → e = d

theorem Knows.grow (h : c.Knows p) (hg : c.Grows c') : c'.Knows p where
  nodup := h.nodup
  batch_lt := Nat.lt_of_lt_of_le h.batch_lt hg.nextBatch
  version_le d hd := Nat.le_trans (h.version_le d hd) hg.lastVersion
  eq_of_version d hd e he hv := by
    rcases hg.slots e he with he | hlt
    · exact h.eq_of_version d hd e he hv
    · have := h.version_le d hd
      omega

theorem grows_put (h : c.slots.Sound) (key : Key) (record : Record) :
    c.Grows (c.put key record) where
  lastVersion := by
    rw [slots_put, Slots.lastVersion_insert]
    exact Nat.le_succ _
  nextBatch := by rw [nextBatch_put]
  slots d hd := by
    rcases (mem_slots_put h).1 hd with rfl | ⟨hd, -⟩
    · exact Or.inr (Nat.lt_succ_self _)
    · exact Or.inl hd

theorem grows_remove (h : c.slots.Sound) (id : EntryId) : c.Grows (c.remove id) where
  lastVersion := by rw [slots_remove, Slots.lastVersion_remove]
  nextBatch := by rw [nextBatch_remove]
  slots d hd := Or.inl ((mem_slots_remove h).1 hd).1

theorem grows_removeKind (h : c.slots.Sound) (kind : Kind) : c.Grows (c.removeKind kind) where
  lastVersion := by
    rw [slots_removeKind, Slots.removeKind_eq, Slots.lastVersion_eraseAll]
  nextBatch := by rw [nextBatch_removeKind]
  slots d hd := Or.inl ((mem_slots_removeKind h).1 hd).1

theorem grows_begin (slots : List Slot) : c.Grows (c.begin slots).2 where
  lastVersion := Nat.le_refl _
  nextBatch := Nat.le_succ _
  slots _ hd := Or.inl hd

theorem grows_finish (number : Nat) : c.Grows (c.finish number).2 where
  lastVersion := Nat.le_refl _
  nextBatch := Nat.le_refl _
  slots _ hd := Or.inl hd

theorem grows_dropAllWritten (l : List Candidate) (capacity : Nat) :
    c.Grows ((c.dropAllWritten l).2.rebuild capacity) where
  lastVersion := by rw [slots_rebuild, lastVersion_dropAllWritten]
  nextBatch := by rw [nextBatch_rebuild, nextBatch_dropAllWritten]
  slots d hd := by
    rw [slots_rebuild, mem_slots_dropAllWritten] at hd
    exact Or.inl hd.1

theorem knows_begin (h : c.slots.Sound) {candidates : List Candidate}
    (hsub : candidates.Sublist c.slots.candidates) :
    (c.begin (candidates.map (·.slot))).2.Knows ⟨c.nextBatch, candidates⟩ where
  nodup := by
    have hids := h.nodup_ids
    rw [Slots.toList, List.map_map] at hids
    exact hids.sublist (hsub.map _)
  batch_lt := Nat.lt_succ_self _
  version_le d hd := h.version_le d (hsub.subset hd)
  eq_of_version d hd e he hv := h.version_inj e he d (hsub.subset hd) hv

/-! ## The list of batches -/

/-- The batches have numbers of their own that were given. -/
structure Numbered (c : Contents) : Prop where
  nodup : (c.batches.map (·.number)).Nodup
  number_lt : ∀ b ∈ c.batches, b.number < c.nextBatch

theorem Numbered.eq_of_number_eq (h : c.Numbered) {a b : Batch} (ha : a ∈ c.batches)
    (hb : b ∈ c.batches) (he : a.number = b.number) : a = b :=
  List.inj_on_of_nodup_map h.nodup ha hb he

/-- Ending a batch gives its marks. -/
theorem Numbered.finish_fst (h : c.Numbered) {b : Batch} (hb : b ∈ c.batches) :
    (c.finish b.number).1 = b.deleted := by
  simp only [finish]
  cases hf : c.batches.find? fun a => a.number == b.number with
  | none => exact absurd (List.find?_eq_none.1 hf b hb) (by simp)
  | some a =>
      have ha := List.find?_some hf
      rw [beq_iff_eq] at ha
      rw [h.eq_of_number_eq (List.mem_of_find?_eq_some hf) hb ha]
      rfl

theorem Numbered.remark (h : c.Numbered) {f : Batch → Batch} (hf : Batch.Remarks f)
    (hbatches : c'.batches = c.batches.map f) (hnext : c'.nextBatch = c.nextBatch) :
    c'.Numbered where
  nodup := by
    rw [hbatches, List.map_map]
    have : (fun b : Batch => b.number) ∘ f = fun b => b.number := funext fun b => (hf b).1
    rw [this]
    exact h.nodup
  number_lt b hb := by
    rw [hbatches] at hb
    obtain ⟨a, ha, rfl⟩ := List.mem_map.1 hb
    rw [(hf a).1, hnext]
    exact h.number_lt a ha

theorem Numbered.begin (h : c.Numbered) (slots : List Slot) : (c.begin slots).2.Numbered where
  nodup := by
    simp only [Contents.begin, List.map_append, List.map_cons, List.map_nil]
    refine List.nodup_append.2 ⟨h.nodup, List.nodup_singleton _, fun n hn m hm => ?_⟩
    obtain ⟨b, hb, rfl⟩ := List.mem_map.1 hn
    rw [List.mem_singleton.1 hm]
    exact Nat.ne_of_lt (h.number_lt b hb)
  number_lt b hb := by
    simp only [Contents.begin, List.mem_append, List.mem_singleton] at hb ⊢
    rcases hb with hb | rfl
    · exact Nat.lt_succ_of_lt (h.number_lt b hb)
    · exact Nat.lt_succ_self _

theorem mem_batches_finish {number : Nat} {b : Batch} :
    b ∈ (c.finish number).2.batches ↔ b ∈ c.batches ∧ b.number ≠ number := by
  simp [finish]

theorem Numbered.finish (h : c.Numbered) (number : Nat) : (c.finish number).2.Numbered where
  nodup := h.nodup.sublist (List.filter_sublist.map _)
  number_lt b hb := h.number_lt b (mem_batches_finish.1 hb).1

end Contents

/-! ## The beginning of an eviction pass -/

/-- In a full cache an eviction pass begins, over the oldest slots. -/
theorem beginEviction_eq {c : Cache} (hmax : 0 < c.maxSize) (hfull : c.isFull = true) :
    c.beginEviction =
      (some ⟨c.contents.nextBatch, c.contents.slots.oldest (evictionCount c.maxSize c.len)⟩,
        { c with contents := (c.contents.begin
            ((c.contents.slots.oldest (evictionCount c.maxSize c.len)).map (·.slot))).2 }) := by
  have hlen : c.maxSize ≤ c.contents.slots.len := of_decide_eq_true hfull
  have hcount : 0 < evictionCount c.maxSize c.len := by
    simp only [evictionCount]
    omega
  have hne : (c.contents.slots.oldest (evictionCount c.maxSize c.len)).isEmpty = false := by
    rw [Slots.oldest, List.isEmpty_eq_false_iff, ne_eq, List.take_eq_nil_iff, not_or,
      ← List.length_eq_zero_iff, Slots.length_candidates]
    omega
  simp only [beginEviction, hfull, if_true, beginPass, hne, Bool.false_eq_true, if_false]
  rfl

end Cache

end RecordStore
