import RecordStore.Proofs.Cache.Slots

/-!
# Slots as a list of entries

The slots of a cache are two maps and two counts.  What they stand for is plainer: one list
of entries, in the order of admission (`EntryList`).  An admission changes the entry
of its address where it stands, or is written at the end.  A removal strikes the entries
that it names, and leaves the others in their order.

Every change keeps slots and list in step (`Matches.apply`).  So after any changes of empty
slots the reports of the changes and the answers to all questions are those of the list
(`run_agrees`), and the index and the slots are inverse to each other.
-/

namespace RecordStore

namespace Cache

namespace Slots

/-! ## Changes -/

/-- A change of the slots. -/
inductive Change where
  | insert (key : Key) (record : Record)
  | remove (id : EntryId)
  | removeIfVersion (seq version : Nat)
  | removeKind (kind : Kind)
  | clear

/-- What a change reports. -/
inductive Report where
  | admitted (admission : Admission)
  | removed (slots : List Slot)
  | cleared

/-- The change of the slots, with its report. -/
def apply (s : Slots) : Change → Report × Slots
  | .insert key record => (s.insert key record).map .admitted id
  | .remove address => (s.remove address).map (fun slot => .removed slot.toList) id
  | .removeIfVersion seq version =>
      (s.removeIfVersion seq version).map (fun slot => .removed slot.toList) id
  | .removeKind kind => (s.removeKind kind).map .removed id
  | .clear => (.cleared, s.clear)

/-- The reports of several changes, one after the other, and what there is in the end. -/
def Change.run {σ : Type} (apply : σ → Change → Report × σ) (s : σ) :
    List Change → List Report × σ
  | [] => ([], s)
  | change :: changes =>
      let (report, s) := apply s change
      (run apply s changes).map (report :: ·) id

/-! ## Lists of entries -/

/-- The entries of the slots in the order of their admission. -/
structure EntryList where
  entries : List Candidate := []
  /-- How many entries were written at the end so far. -/
  appended : Nat := 0
  /-- How many records were admitted so far. -/
  admitted : Nat := 0

namespace EntryList

/-- The slots on the list. -/
def slots (r : EntryList) : List Slot := r.entries.map (·.slot)

/-- Changes the entry of the address where it stands, or writes a new one at the end. -/
def insert (r : EntryList) (key : Key) (record : Record) : Admission × EntryList :=
  let slot : Slot := ⟨r.admitted + 1, key, record⟩
  if r.entries.any fun c => c.slot.id == slot.id then
    (.replaced, { r with
      entries := r.entries.map fun c => if c.slot.id = slot.id then ⟨c.seq, slot⟩ else c
      admitted := r.admitted + 1 })
  else
    (.appended, {
      entries := r.entries ++ [⟨r.appended, slot⟩]
      appended := r.appended + 1
      admitted := r.admitted + 1 })

/-- Strikes the entries that are named, and gives their slots back. -/
def strike (r : EntryList) (named : Candidate → Bool) : List Slot × EntryList :=
  ((r.entries.filter named).map (·.slot),
    { r with entries := r.entries.filter fun c => !named c })

/-- The change of the list, with its report. -/
def apply (r : EntryList) : Change → Report × EntryList
  | .insert key record => (r.insert key record).map .admitted id
  | .remove address => (r.strike fun c => c.slot.id == address).map .removed id
  | .removeIfVersion seq version =>
      (r.strike fun c => c.seq == seq && c.slot.version == version).map .removed id
  | .removeKind kind => (r.strike fun c => c.slot.kind == kind).map .removed id
  | .clear => (.cleared, { r with entries := [] })

end EntryList

/-! ## One change -/

variable {s : Slots} {r : EntryList} {c : Candidate}

/-- The slots are sound and are those on the list, with the same counts. -/
structure Matches (s : Slots) (r : EntryList) : Prop where
  sound : s.Sound
  candidates_eq : s.candidates = r.entries
  nextSeq_eq : s.nextSeq = r.appended
  lastVersion_eq : s.lastVersion = r.admitted

/-- Lists in the order of the numbers are equal if a filter keeps the right members. -/
theorem candidates_eq_filter {t : Slots} {p : Candidate → Bool}
    (h : ∀ c, c ∈ t.candidates ↔ c ∈ s.candidates ∧ p c = true) :
    t.candidates = s.candidates.filter p := by
  refine eq_of_pairwise pairwise_candidates (pairwise_candidates.filter p) ?_
  intro c
  rw [h, List.mem_filter]

/-- A filter that just one candidate passes. -/
theorem filter_candidates_eq_singleton {p : Candidate → Bool} (hc : c ∈ s.candidates)
    (hp : ∀ d ∈ s.candidates, p d = true ↔ d = c) : s.candidates.filter p = [c] := by
  refine eq_of_pairwise (pairwise_candidates.filter p) (List.pairwise_singleton _ c) ?_
  intro d
  rw [List.mem_filter, List.mem_singleton]
  constructor
  · rintro ⟨hd, hpd⟩
    exact (hp d hd).1 hpd
  · rintro rfl
    exact ⟨hc, (hp d hc).2 rfl⟩

theorem nextSeq_remove (id : EntryId) : (s.remove id).2.nextSeq = s.nextSeq := by
  simp only [remove]
  split <;> rfl

theorem nextSeq_removeIfVersion (seq version : Nat) :
    (s.removeIfVersion seq version).2.nextSeq = s.nextSeq := by
  rcases s.removeIfVersion_eq seq version with ⟨c, -, -, -, heq⟩ | ⟨-, heq⟩ <;> rw [heq]
  rfl

theorem nextSeq_eraseAll (l : List Candidate) (s : Slots) :
    (s.eraseAll l).nextSeq = s.nextSeq := by
  induction l generalizing s with
  | nil => rfl
  | cons c l ih => exact ih (s.erase c.seq c.slot.id)

/-- The slot that a removal by address gives back is the one that is struck. -/
theorem remove_fst (h : s.Sound) (id : EntryId) :
    (s.remove id).1.toList
      = (s.candidates.filter fun c => c.slot.id == id).map (·.slot) := by
  rw [remove_eq h]
  cases hf : s.find? id with
  | none =>
      have hnone : s.candidates.filter (fun c => c.slot.id == id) = [] := by
        rw [List.filter_eq_nil_iff]
        intro c hc
        simpa using h.find?_eq_none_iff.1 hf c hc
      rw [hnone]
      rfl
  | some c =>
      obtain ⟨hc, rfl⟩ := h.find?_eq_some_iff.1 hf
      rw [filter_candidates_eq_singleton hc]
      · rfl
      · intro d hd
        rw [beq_iff_eq]
        exact ⟨h.eq_of_id_eq hd hc, fun e => by rw [e]⟩

/-- The slot that a removal by number and version gives back is the one that is struck. -/
theorem removeIfVersion_fst (seq version : Nat) :
    (s.removeIfVersion seq version).1.toList
      = (s.candidates.filter fun c => c.seq == seq && c.slot.version == version).map
          (·.slot) := by
  rcases s.removeIfVersion_eq seq version with ⟨c, hc, rfl, rfl, heq⟩ | ⟨hall, heq⟩
  · rw [heq, filter_candidates_eq_singleton hc]
    · rfl
    · intro d hd
      simp only [Bool.and_eq_true, beq_iff_eq]
      exact ⟨fun e => eq_of_seq_eq hd hc e.1, fun e => by rw [e]; exact ⟨rfl, rfl⟩⟩
  · have hnone : s.candidates.filter
        (fun c => c.seq == seq && c.slot.version == version) = [] := by
      rw [List.filter_eq_nil_iff]
      intro c hc
      simpa using hall c hc
    rw [heq, hnone]
    rfl

namespace Matches

theorem insert (h : s.Matches r) (key : Key) (record : Record) :
    (s.insert key record).1 = (r.insert key record).1 ∧
      (s.insert key record).2.Matches (r.insert key record).2 := by
  have hsound := h.sound.insert key record
  have hversion : (⟨r.admitted + 1, key, record⟩ : Slot) = (s.admitted key record).slot := by
    rw [← h.lastVersion_eq]
    rfl
  simp only [EntryList.insert, hversion, id_admitted, ← h.candidates_eq]
  cases hf : s.find? (record.idAt key) with
  | none =>
      have hnot : ¬(s.candidates.any fun c => c.slot.id == record.idAt key) = true := by
        rw [List.any_eq_true]
        rintro ⟨c, hc, hid⟩
        exact h.sound.find?_eq_none_iff.1 hf c hc (beq_iff_eq.1 hid)
      have hseq : s.admitted key record = ⟨r.appended, (s.admitted key record).slot⟩ := by
        simp [admitted, hf, h.nextSeq_eq]
      rw [if_neg hnot]
      refine ⟨by simp only [Slots.insert, hf], hsound, ?_, ?_, ?_⟩
      · rw [candidates_insert_of_none h.sound hf]
        exact congrArg (fun c => s.candidates ++ [c]) hseq
      · simp only [Slots.insert, hf, h.nextSeq_eq]
      · simp only [Slots.insert, hf, h.lastVersion_eq]
  | some d =>
      obtain ⟨hd, hid⟩ := h.sound.find?_eq_some_iff.1 hf
      have hany : (s.candidates.any fun c => c.slot.id == record.idAt key) = true :=
        List.any_eq_true.2 ⟨d, hd, beq_iff_eq.2 hid⟩
      have hseq : s.admitted key record = ⟨d.seq, (s.admitted key record).slot⟩ := by
        simp [admitted, hf]
      rw [if_pos hany]
      refine ⟨by simp only [Slots.insert, hf], hsound, ?_, ?_, ?_⟩
      · rw [candidates_insert_of_some h.sound hf]
        refine List.map_congr_left ?_
        intro c hc
        by_cases hcd : c = d
        · subst hcd
          rw [if_pos rfl, if_pos hid, ← hseq]
        · rw [if_neg fun e => hcd (eq_of_seq_eq hc hd e),
            if_neg fun e => hcd (h.sound.eq_of_id_eq hc hd (e.trans hid.symm))]
      · simp only [Slots.insert, hf, h.nextSeq_eq]
      · simp only [Slots.insert, hf, h.lastVersion_eq]

/-- A removal that keeps the counts and leaves what is not named is a strike. -/
theorem strike {t : Slots} {named : Candidate → Bool} (h : s.Matches r) (hsound : t.Sound)
    (hmem : ∀ c, c ∈ t.candidates ↔ c ∈ s.candidates ∧ (!named c) = true)
    (hnext : t.nextSeq = s.nextSeq) (hlast : t.lastVersion = s.lastVersion) :
    t.Matches (r.strike named).2 where
  sound := hsound
  candidates_eq := by
    rw [candidates_eq_filter hmem, h.candidates_eq]
    rfl
  nextSeq_eq := hnext.trans h.nextSeq_eq
  lastVersion_eq := hlast.trans h.lastVersion_eq

/-- Every change reports what the change of the list reports, and keeps slots and list in
step. -/
theorem apply (h : s.Matches r) (change : Change) :
    (s.apply change).1 = (r.apply change).1 ∧
      (s.apply change).2.Matches (r.apply change).2 := by
  cases change with
  | insert key record =>
      obtain ⟨hreport, hmatches⟩ := h.insert key record
      exact ⟨congrArg Report.admitted hreport, hmatches⟩
  | remove id =>
      constructor
      · simp only [Slots.apply, EntryList.apply, EntryList.strike, Prod.map, remove_fst h.sound,
          h.candidates_eq]
      · refine h.strike (h.sound.remove id) ?_ (nextSeq_remove id) lastVersion_remove
        intro c
        rw [Bool.not_eq_true', beq_eq_false_iff_ne]
        exact mem_candidates_remove h.sound
  | removeIfVersion seq version =>
      constructor
      · simp only [Slots.apply, EntryList.apply, EntryList.strike, Prod.map, removeIfVersion_fst,
          h.candidates_eq]
      · refine h.strike (h.sound.removeIfVersion seq version) ?_
          (nextSeq_removeIfVersion seq version) (lastVersion_removeIfVersion seq version)
        intro c
        rw [Bool.not_eq_true', ← Bool.not_eq_true, Bool.and_eq_true, beq_iff_eq, beq_iff_eq]
        exact mem_candidates_removeIfVersion
  | removeKind kind =>
      constructor
      · simp only [Slots.apply, EntryList.apply, EntryList.strike, Prod.map, removeKind_eq,
          h.candidates_eq]
      · refine h.strike (h.sound.removeKind kind) ?_ (nextSeq_eraseAll _ s)
          (lastVersion_eraseAll _ s)
        intro c
        rw [Bool.not_eq_true', beq_eq_false_iff_ne]
        exact mem_candidates_removeKind h.sound
  | clear => exact ⟨rfl, sound_clear, candidates_clear, h.nextSeq_eq, h.lastVersion_eq⟩

end Matches

/-! ## Any number of changes -/

/-- What the slots answer is what the list says. -/
structure Agrees (s : Slots) (r : EntryList) : Prop where
  /-- The index and the slots are inverse to each other. -/
  index_iff : ∀ id seq,
    s.index[id]? = some seq ↔ ∃ slot : Slot, s.bySeq[seq]? = some slot ∧ slot.id = id
  /-- The numbers and the versions of the slots were given out before. -/
  seq_lt : ∀ c ∈ s.candidates, c.seq < s.nextSeq
  version_le : ∀ c ∈ s.candidates, c.slot.version ≤ s.lastVersion
  nodup_versions : (s.toList.map (·.version)).Nodup
  nodup_ids : (r.slots.map Slot.id).Nodup
  toList_eq : s.toList = r.slots
  ofKind_eq : ∀ kind, s.ofKind kind = r.slots.filter fun slot => slot.kind == kind
  oldest_eq : ∀ count, s.oldest count = r.entries.take count
  get_eq : ∀ id, s.get? id = r.slots.find? fun slot => slot.id == id
  len_eq : s.len = r.entries.length

theorem Sound.index_iff (h : s.Sound) (id : EntryId) (seq : Nat) :
    s.index[id]? = some seq ↔ ∃ slot : Slot, s.bySeq[seq]? = some slot ∧ slot.id = id := by
  constructor
  · intro hi
    obtain ⟨slot, hmem, hid⟩ := h.mem_of_index id seq hi
    exact ⟨slot, mem_candidates.1 hmem, hid⟩
  · rintro ⟨slot, hslot, rfl⟩
    exact h.index_of_mem ⟨seq, slot⟩ (mem_candidates.2 hslot)

theorem Sound.nodup_versions (h : s.Sound) : (s.toList.map (·.version)).Nodup := by
  rw [toList, List.map_map]
  exact nodup_candidates.map_on h.version_inj

/-- Looking an address up is going through the slots. -/
theorem Sound.get?_eq_find? (h : s.Sound) (id : EntryId) :
    s.get? id = s.toList.find? fun slot => slot.id == id := by
  rw [get?_eq]
  cases hf : s.find? id with
  | none =>
      have hnot := h.find?_eq_none_iff.1 hf
      refine (List.find?_eq_none.2 ?_).symm
      intro slot hslot
      obtain ⟨c, hc, rfl⟩ := List.mem_map.1 hslot
      simpa using hnot c hc
  | some c =>
      obtain ⟨hc, hid⟩ := h.find?_eq_some_iff.1 hf
      have hfilter : s.candidates.filter (fun d => d.slot.id == id) = [c] := by
        refine filter_candidates_eq_singleton hc ?_
        intro d hd
        rw [beq_iff_eq]
        exact ⟨fun e => h.eq_of_id_eq hd hc (e.trans hid.symm), fun e => e ▸ hid⟩
      rw [toList, List.find?_map, ← List.head?_filter]
      exact (congrArg (fun l => (List.head? l).map (·.slot)) hfilter).symm

theorem Matches.agrees (h : s.Matches r) : s.Agrees r where
  index_iff := h.sound.index_iff
  seq_lt := h.sound.seq_lt
  version_le := h.sound.version_le
  nodup_versions := h.sound.nodup_versions
  nodup_ids := by
    rw [EntryList.slots, ← h.candidates_eq]
    exact h.sound.nodup_ids
  toList_eq := by rw [toList, h.candidates_eq, EntryList.slots]
  ofKind_eq kind := by rw [ofKind, toList, h.candidates_eq, EntryList.slots]
  oldest_eq count := by rw [oldest, h.candidates_eq]
  get_eq id := by rw [h.sound.get?_eq_find?, toList, h.candidates_eq, EntryList.slots]
  len_eq := by rw [← length_candidates, h.candidates_eq]

/-- Slots and list stay in step, and give the same reports, over any number of changes. -/
theorem Matches.run (h : s.Matches r) (changes : List Change) :
    (Change.run Slots.apply s changes).1 = (Change.run EntryList.apply r changes).1 ∧
      (Change.run Slots.apply s changes).2.Matches (Change.run EntryList.apply r changes).2 := by
  induction changes generalizing s r with
  | nil => exact ⟨rfl, h⟩
  | cons change changes ih =>
      obtain ⟨hreport, hnext⟩ := h.apply change
      obtain ⟨hreports, hlast⟩ := ih hnext
      refine ⟨?_, hlast⟩
      simp only [Change.run, Prod.map, hreport, hreports]

namespace EntryList

theorem counts_apply (change : Change) :
    (r.apply change).2.appended ≤ r.appended + 1 ∧
      (r.apply change).2.admitted ≤ r.admitted + 1 := by
  cases change with
  | insert key record =>
      simp only [apply, insert]
      split <;> simp [Prod.map]
  | remove id => simp [apply, strike, Prod.map]
  | removeIfVersion seq version => simp [apply, strike, Prod.map]
  | removeKind kind => simp [apply, strike, Prod.map]
  | clear => simp [apply]

/-- A change uses up one number and one version at most. -/
theorem counts_run (changes : List Change) :
    (Change.run apply r changes).2.appended ≤ r.appended + changes.length ∧
      (Change.run apply r changes).2.admitted ≤ r.admitted + changes.length := by
  induction changes generalizing r with
  | nil => exact ⟨Nat.le_refl _, Nat.le_refl _⟩
  | cons change changes ih =>
      have hone := r.counts_apply change
      have hrest := @ih (r.apply change).2
      simp only [Change.run, Prod.map, id, List.length_cons]
      omega

end EntryList

/-- Empty slots refine an empty list: whatever the changes, their reports are those of the
list, and so are the answers of the slots in the end.  The counts stay below the number of
changes, so 64 bits hold them for fewer than `2 ^ 64` of these. -/
theorem run_agrees (changes : List Change) :
    (Change.run apply {} changes).1 = (Change.run EntryList.apply {} changes).1 ∧
      (Change.run apply {} changes).2.Agrees (Change.run EntryList.apply {} changes).2 ∧
      (Change.run apply {} changes).2.nextSeq ≤ changes.length ∧
      (Change.run apply {} changes).2.lastVersion ≤ changes.length := by
  have hempty : ({} : Slots).Matches {} := ⟨sound_empty, rfl, rfl, rfl⟩
  obtain ⟨hreports, hmatches⟩ := hempty.run changes
  have hcounts := @EntryList.counts_run {} changes
  refine ⟨hreports, hmatches.agrees, ?_, ?_⟩
  · rw [hmatches.nextSeq_eq]
    simpa using hcounts.1
  · rw [hmatches.lastVersion_eq]
    simpa using hcounts.2

end Slots

end Cache

end RecordStore
